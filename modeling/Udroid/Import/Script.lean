import Udroid.Import.Listing
import Udroid.Unix.FileTree

/-!
# `import-from-udroid.sh`

The script copies a program and its libraries into the directories `bin` and `lib` of the
working directory, and writes a wrapper that runs them.  The file system around it does not
change; what it holds, and what `which`, `file` and the loader say of it, is a `World`.
-/

namespace Udroid.Import

open Udroid.Unix

/-! ## Section 1: The working directory and the world -/

/-- What the imports leave: the wrappers, which are all the same text, and the contents of
`bin` and `lib`.  Before the first import the two are not there; every import makes them
before it copies, so a directory that is not there is as an empty one. -/
structure Dir where
  wrappers : List Text
  bin : Text → Option Text
  lib : Text → Option Text

/-- An empty directory. -/
def Dir.empty : Dir :=
  ⟨[], fun _ => none, fun _ => none⟩

/-- Does the content have the mark of an ELF file? -/
def isElf (content : Text) : Bool :=
  decide ('\x7f' :: "ELF".toList <+: content)

/-- The components of a path. -/
def components (path : Text) : List Name :=
  (words (fun c => c == '/') path).map String.ofList

/-- Where an absolute path leads, through links. -/
def find (tree : FileTree Text) (limit : Nat) (names : List Name) : Option Path :=
  walk tree.look [] (limit + 1) [] names

/-- The content of the file that an absolute path leads to: what `readlink -f` and `cp` get. -/
def contentOf (tree : FileTree Text) (limit : Nat) (path : Text) : Option Text :=
  match (find tree limit (components path)).bind tree.look with
  | some (.file content) => some content
  | _ => none

/-- Is the path itself a link? -/
def isLink (tree : FileTree Text) (limit : Nat) (path : Text) : Bool :=
  match find tree limit (components path).dropLast, (components path).getLast? with
  | some d, some n =>
      match tree.look (d ++ [n]) with
      | some (.link _) => true
      | _ => false
  | _, _ => false

/-- The file system and what the commands say of it: the path that `which` finds for a
command, whether the line that `file` prints for a path has the text `ELF`, and the listing
of the loader.  What an import does with names that are file name patterns depends on the
files around it and is left open. -/
structure World where
  tree : FileTree Text
  limit : Nat
  which : Word → Option AbsPath
  mentionsElf : AbsPath → Bool
  list : AbsPath → List Line
  globbed : Word → Dir → Dir
  which_basename : ∀ c p, which c = some p → basename p.text = basename c.text
  link_not_elf : ∀ p, isLink tree limit p.text = true → mentionsElf p = false
  elf_mentioned : ∀ p content, isLink tree limit p.text = false →
    contentOf tree limit p.text = some content → isElf content = true → mentionsElf p = true

/-- The content of a path of the world. -/
def World.content (w : World) (path : Text) : Option Text :=
  contentOf w.tree w.limit path

/-- No pattern characters. -/
def isPlain (text : Text) : Bool :=
  text.all fun c => !isPattern c

/-- A path that expands to itself, and so does what `readlink -f` prints for it. -/
def World.isPlainPath (w : World) (path : Text) : Bool :=
  isPlain path &&
    match find w.tree w.limit (components path) with
    | some p => p.all fun n => isPlain n.toList
    | none => true

/-- Every name that an import of the command expands expands to itself, and the command is
not taken for an option. -/
def World.usual (w : World) (c : Word) : Bool :=
  isPlain c.text && c.text.head? != some '-' &&
    match w.which c with
    | none => true
    | some p => w.isPlainPath p.text && (libs (w.list p)).all w.isPlainPath

/-! ## Section 2: The script -/

/-- The text of every wrapper. -/
def wrapperText : Text :=
  ("#!/system/bin/sh\n\n#BUSYBOXPATH=/system/bin/busybox\nBUSYBOXPATH=\n\n" ++
    "CURDIR=$($BUSYBOXPATH dirname $($BUSYBOXPATH readlink -f $0))\n\n" ++
    "$CURDIR/lib/ld-linux-armhf.so.3 --library-path $CURDIR/lib " ++
    "$CURDIR/bin/$(basename $0) $@\n").toList

/-- `cp` of a file into a directory under a name. -/
def put (name content : Text) (files : Text → Option Text) : Text → Option Text :=
  fun n => if n = name then some content else files n

/-- What `cp` finds at a word of the listing.  A word that is no absolute path is a name in
the working directory, where the wrappers are. -/
def World.source (w : World) (d : Dir) (word : Text) : Option Text :=
  if word.head? = some '/' then w.content word
  -- the only files of the working directory
  else if word ∈ d.wrappers then some wrapperText
  else none

/-- The body of the loop of `dcp`. -/
def World.cpLib (w : World) (d : Dir) (word : Text) : Dir :=
  match w.source d word with
  | some content => { d with lib := put (basename word) content d.lib }
  | none => d

/-- `dcp`. -/
def World.dcp (w : World) (c : Word) (d : Dir) : Dir :=
  match w.which c with
  -- `which` prints nothing, and `file` says nothing of ELF
  | none => d
  | some path =>
      if w.mentionsElf path then
        let d :=
          match w.content path.text with
          | some content => { d with bin := put (basename path.text) content d.bin }
          | none => d
        (libs (w.list path)).foldl w.cpLib d
      else d

/-- The names at which `genexe` can write no wrapper: there are directories. -/
def directoryNames : List Text :=
  ["bin".toList, "lib".toList, ".".toList, "..".toList, "/".toList]

/-- `genexe`. -/
def genexe (c : Word) (d : Dir) : Dir :=
  if basename c.text ∈ directoryNames then d
  else { d with wrappers := basename c.text :: d.wrappers }

/-- `import-from-udroid.sh`. -/
def World.importFromUdroid (w : World) (d : Dir) (c : Word) : Dir :=
  if w.usual c then genexe c (w.dcp c d) else w.globbed c d

/-- The imports one after the other, in an empty directory. -/
def World.run (w : World) (commands : List Word) : Dir :=
  commands.foldl w.importFromUdroid Dir.empty

end Udroid.Import
