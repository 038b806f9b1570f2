import Mathlib.Logic.Function.Iterate
import Udroid.Unix.FileTree

/-!
# The link scripts

`udroid-setup-pathlink` and `udroid-setup-fonts` run in the chroot, `ubuntu.skeleton` on
Android's own root.  Each command is given the number of steps after which the kernel gives
up a lookup.

- `tidy_iff`: running a script once more is enough to tell what all later runs do.
-/

namespace Udroid.Links

open Udroid.Unix

variable {α : Type}

/-! ## Section 1: The scripts -/

/-- `ln -sf target /name`, where the target has the name it is linked from. -/
structure Line where
  target : Target
  name : Name
  base_eq : target.base = name
  name_ne_dot : name ≠ "."
  name_ne_dots : name ≠ ".."

/-- `ln -sf /dir/name /name`. -/
def lineInto (dir : List Name) (name : Name) (hdot : name ≠ "." := by decide)
    (hdots : name ≠ ".." := by decide) : Line :=
  ⟨⟨true, dir ++ [name]⟩, name, by simp [Target.base], hdot, hdots⟩

/-- One line. -/
def Line.run (l : Line) (limit : Nat) (s : FileTree α) : FileTree α :=
  s.lnSf limit l.target [] l.name

/-- The lines one after the other. -/
def runLines (limit : Nat) (lines : List Line) (s : FileTree α) : FileTree α :=
  lines.foldl (fun s l => l.run limit s) s

/-- The lines of `udroid-setup-pathlink`. -/
def pathLinks : List Line :=
  [lineInto ["dev", "block", "udroid"] "data",
   lineInto ["dev", "block", "udroid"] "system",
   lineInto ["dev", "block", "udroid"] "sdcard",
   lineInto ["system"] "vendor"]

/-- `udroid-setup-pathlink`. -/
def udroidSetupPathlink (limit : Nat) (s : FileTree α) : FileTree α :=
  runLines limit pathLinks s

/-- The directory that `udroid-setup-fonts` makes. -/
def fontsDir : List Name := ["usr", "share", "fonts", "truetype"]

/-- Where the link of `udroid-setup-fonts` points. -/
def systemFonts : Target := ⟨true, ["system", "fonts"]⟩

/-- The name of that link. -/
def androidFont : Name := "android-font"

/-- The `mkdir` and the `ln` of `udroid-setup-fonts`. -/
def udroidSetupFonts (limit : Nat) (s : FileTree α) : FileTree α :=
  let s := s.mkdirP limit [] fontsDir
  s.lnSf limit systemFonts fontsDir androidFont

/-- The names that `ubuntu.skeleton` removes, and whether with `-rf`. -/
def skeletonRemovals : List (Name × Bool) :=
  [("bin", false), ("etc", false), ("lib", false), ("root", true), ("run", false),
   ("sbin", true), ("srv", false), ("tmp", false), ("usr", false), ("var", false)]

/-- The links it makes. -/
def skeletonLinks : List Line :=
  [lineInto ["data", "ubuntu"] "bin",
   lineInto ["data", "ubuntu"] "etc",
   lineInto ["data", "ubuntu"] "lib",
   lineInto ["data", "ubuntu"] "root",
   lineInto ["data", "ubuntu"] "run",
   lineInto ["data", "ubuntu"] "sbin",
   lineInto ["data", "ubuntu"] "srv",
   lineInto ["data", "ubuntu"] "tmp",
   lineInto ["data", "ubuntu"] "usr",
   lineInto ["data", "ubuntu"] "var"]

/-- `rm` or `rm -rf` of a name of the root. -/
def removeOne (s : FileTree α) (removal : Name × Bool) : FileTree α :=
  if removal.2 then s.rmRf removal.1 else s.rm removal.1

/-- The `rm` and `ln` lines of `ubuntu.skeleton`. -/
def ubuntuSkeleton (limit : Nat) (s : FileTree α) : FileTree α :=
  let s := skeletonRemovals.foldl removeOne s
  runLines limit skeletonLinks s

/-! ## Section 2: What a link script should do -/

/-- All runs together do what the first one does, and none of them touches an entry that the
script does not list. -/
structure Tidy (run : FileTree α → FileTree α) (listed : FileTree α → Path → Prop)
    (s : FileTree α) : Prop where
  once : ∀ n, 1 ≤ n → run^[n] s = run s
  framed : ∀ n p, ¬ listed (run^[n] s) p → (run^[n + 1] s).look p = (run^[n] s).look p

/-- It is enough to look at the first run and at a second one. -/
theorem tidy_iff {run : FileTree α → FileTree α} {listed : FileTree α → Path → Prop}
    {s : FileTree α} :
    Tidy run listed s ↔
      run (run s) = run s ∧ ∀ p, ¬ listed s p → (run s).look p = s.look p := by
  constructor
  · intro h
    exact ⟨h.once 2 (by decide), fun p hp => h.framed 0 p hp⟩
  · intro h
    obtain ⟨htwice, hframe⟩ := h
    -- once a run changes nothing, no later one does
    have honce : ∀ n, run^[n + 1] s = run s := by
      intro n
      induction n with
      | zero => rfl
      | succ n ih => rw [Function.iterate_succ_apply', ih, htwice]
    constructor
    · intro n hn
      obtain ⟨m, rfl⟩ := Nat.exists_eq_add_of_le' hn
      exact honce m
    · intro n p hp
      cases n with
      | zero => exact hframe p hp
      | succ n => rw [honce, honce]

end Udroid.Links
