/-!
# Paths

Canonical absolute paths, shared by the mount tables and the file trees.
-/

namespace Udroid.Unix

/-- A file name. -/
abbrev Name := String

/-- A canonical absolute path, as the list of its components. -/
abbrev Path := List Name

end Udroid.Unix
