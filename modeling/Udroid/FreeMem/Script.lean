import Mathlib.Algebra.Order.Ring.Int
import Udroid.Unix.Grep

/-!
# `and-get-free-mem`

The script takes the cached processes out of `dumpsys meminfo`, asks `dumpsys meminfo` for
each of them and adds up what they could give back.  It runs under `set -euo pipefail`: a
`grep` that prints nothing ends it.

Texts are lists of lines.  What the script leaves to the shell and to the phone are the two
structures of the first section; the rest is the script line by line.
-/

namespace Udroid.FreeMem

open Udroid.Unix

/-! ## Section 1: The shell and the phone -/

/-- `n` in decimal digits. -/
def decimal (n : Nat) : Text :=
  Nat.toDigits 10 n

/-- What an arithmetic expansion prints: 64-bit two's complement, in decimal. -/
def number (z : Int) : Text :=
  let wrapped := z.bmod (2 ^ 64)
  if wrapped < 0 then '-' :: decimal wrapped.natAbs else decimal wrapped.natAbs

/-- Two things of the shell that the script does not fix: the file names that a pattern
expands to, and what `$((x+y+z))` makes of three texts (`none`: an error). -/
structure Shell where
  expand : Text → List Text
  expand_plain : ∀ word, (∀ c ∈ word, isPattern c = false) → expand word = [word]
  add : Text → Text → Text → Option Text
  add_decimal : ∀ x y z : Nat, x < 2 ^ 63 → y < 2 ^ 63 → z < 2 ^ 63 →
    add (decimal x) (decimal y) (decimal z) = some (number (x + y + z))

/-- `name=($(command))`: the words of the output, each one expanded. -/
def Shell.array (sh : Shell) (lines : List Text) : List Text :=
  (lines.flatMap (words isIfs)).flatMap sh.expand

/-- What the commands print that the script asks. -/
structure Phone where
  dumpsysMeminfo : List Text
  procMeminfo : List Text
  dumpsysMeminfoOf : Text → List Text

/-! ## Section 2: The cached processes -/

/-- Where the listing of the processes ends. -/
def totalMark : Text := "Total PSS by category:".toList

/-- What the header of the cached processes has. -/
def cachedMark : Text := ": Cached".toList

/-- The `awk` filter; `found` is its variable. -/
def cachedSection (found : Bool) : List Text → List Text
  | [] => []
  | line :: lines =>
      let found := if occurs totalMark line then false else found
      let printed := if found then [line] else []
      let found := if occurs cachedMark line then true else found
      printed ++ cachedSection found lines

/-- `tr -d ' '`. -/
def noBlanks (line : Text) : Text :=
  line.filter (fun c => c != ' ')

/-- `cached_process_array`. -/
def cachedProcessArray (sh : Shell) (phone : Phone) : List Text :=
  sh.array ((cachedSection false phone.dumpsysMeminfo).map noBlanks)

/-! ## Section 3: The loop -/

/-- `\w`. -/
def isWordChar (c : Char) : Bool :=
  c.isAlphanum || c == '_'

/-- The key of the search for the process number. -/
def pidKey : Text := "pid".toList

/-- `grep -Po 'pid\K\w+'`, one match a line; `none` where nothing matches. -/
def pidOf (word : Text) : Option Text :=
  match matchesAfter pidKey isWordChar word with
  | [] => none
  | found => some (['\n'].intercalate found)

/-- What the script has done so far. -/
structure State where
  queries : List Text
  printed : Text
  cacheProcDirty : Text
  deriving DecidableEq

/-- `printf` and `echo`. -/
def State.print (st : State) (text : Text) : State :=
  { st with printed := st.printed ++ text }

/-- `dumpsys meminfo "$pid"`. -/
def State.query (st : State) (pid : Text) : State :=
  { st with queries := st.queries ++ [pid] }

/-- The body of the loop; an error carries the state in which the script ends. -/
def turn (sh : Shell) (phone : Phone) (st : State) (word : Text) : Except State State :=
  let st := st.print ".".toList
  match pidOf word with
  -- `set -e` and `pipefail`: a search without a match ends the script
  | none => .error st
  | some pid =>
      let st := st.query pid
      match grep "TOTAL".toList (phone.dumpsysMeminfoOf pid) with
      | [] => .error st
      | lines =>
          match sh.array lines with
          | _ :: _ :: dirty :: clean :: _ =>
              match sh.add st.cacheProcDirty dirty clean with
              | none => .error st
              | some sum => .ok { st with cacheProcDirty := sum }
          | _ => .error (st.print ("Error parsing dumpsys meminfo ".toList ++ pid ++ ['\n']))

/-- `and-get-free-mem`. -/
def getFreeMem (sh : Shell) (phone : Phone) : Except State State :=
  let array := cachedProcessArray sh phone
  let st : State := ⟨[], [], []⟩
  match grep "MemAvailable:".toList phone.procMeminfo with
  -- `grep` finds no line
  | [] => .error st
  | lines =>
      match sh.array lines with
      | _ :: memAvailable :: _ => do
          let st ← array.foldlM (turn sh phone) { st with cacheProcDirty := memAvailable }
          let st := st.print ".\n".toList
          return st.print ("Free mem: ".toList ++ st.cacheProcDirty ++ ['\n'])
      | _ => .error (st.print "Error parsing meminfo\n".toList)

end Udroid.FreeMem
