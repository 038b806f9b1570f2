import Udroid.Unix.Edit

/-!
# The loader's listing

`ld-linux-armhf.so.3 --list` prints one line for each library that a program needs; the
script takes the paths out of them with three substitutions of `sed` and the first field of
`awk`.

- `libField_render`: the field that the script gets from a legible line.
- `libs_render`: the words of the script's loop over a legible listing.
-/

namespace Udroid.Import

open Udroid.Unix

/-! ## Section 1: Lines -/

/-- A name or a path: not empty, and without blanks. -/
structure Word where
  text : Text
  ne_nil : text ≠ []
  no_sep : ∀ c ∈ text, isIfs c = false

/-- A path from the root. -/
structure AbsPath extends Word where
  absolute : text.head? = some '/'

/-- A name without a directory, and not one of the two directories of an import. -/
structure PlainName extends Word where
  no_slash : '/' ∉ text
  not_dir : text ∉ ["bin".toList, "lib".toList, ".".toList, "..".toList]

/-- The lines that the loader prints. -/
inductive Line where
  | found (name : Word) (path : AbsPath) (address : Word)
  | bare (path : AbsPath) (address : Word)
  | pathless (name : PlainName) (address : Word)
  | notFound (name : Word)

/-- What stands behind a path: the address in brackets. -/
def addressField (address : Word) : Text :=
  "(0x".toList ++ (address.text ++ ")".toList)

/-- The text of a line. -/
def Line.render : Line → Text
  | .found name path address =>
      '\t' :: (name.text ++ " => ".toList ++ path.text ++ ' ' :: addressField address)
  | .bare path address => '\t' :: (path.text ++ ' ' :: addressField address)
  | .pathless name address => '\t' :: (name.text ++ ' ' :: addressField address)
  | .notFound name => '\t' :: (name.text ++ " => not found".toList)

/-- The last component of a path. -/
def basename (path : Text) : Text :=
  (words (fun c => c == '/') path).getLast?.getD ['/']

/-- The library of a line: the file name that the loader will look for, and the path. -/
def Line.need : Line → Option (Text × AbsPath)
  | .found name path _ => some (name.text, path)
  | .bare path _ => some (basename path.text, path)
  | .pathless _ _ => none
  | .notFound _ => none

/-! ## Section 2: The fields -/

/-- `sed -r 's/.*(=> )/\1/g' | sed -r 's/=> //g' | sed -r 's/(\(0x.*)//g' | awk '{print $1}'`,
for one line. -/
def libField (line : Text) : Text :=
  let line := keepFromLast "=> ".toList line
  let line := removeAll "=> ".toList line
  let line := cutAt "(0x".toList line
  (words isIfs line).headD []

/-- The words that the loop of the script goes over. -/
def libs (listing : List Line) : List Text :=
  (listing.map fun line => libField line.render).flatMap (words isIfs)

/-- The word that the script should get from a line. -/
def Line.word : Line → Text
  | .found _ path _ => path.text
  | .bare path _ => path.text
  | .pathless name _ => name.text
  | .notFound _ => "not".toList

/-- A text that the substitutions leave whole. -/
def LegibleText (text : Text) : Prop :=
  ¬ "(0x".toList <:+: text ∧ ¬ "=>".toList <:+ text

/-- A line of which the script gets its word. -/
def Line.Legible : Line → Prop
  | .found _ path _ => LegibleText path.text
  | .bare path _ => LegibleText path.text
  | .pathless name _ => LegibleText name.text
  | .notFound _ => True

/-! ## Section 3: Reading a line -/

theorem blank_notMem (w : Word) : ' ' ∉ w.text := by
  intro h
  exact absurd (w.no_sep ' ' h) (by decide)

theorem blank_notMem_addressField (address : Word) : ' ' ∉ addressField address := by
  simp [addressField, blank_notMem address]

/-- No arrow stands behind a legible text. -/
theorem no_arrow (w : Word) (h : LegibleText w.text) (address : Word) :
    ¬ "=> ".toList <:+: w.text ++ ' ' :: addressField address := by
  intro harrow
  have hending : "=>".toList ++ [' '] <:+: w.text ++ ' ' :: addressField address := harrow
  rcases infix_append_cons_of_ending (by decide) (blank_notMem w) hending with hend | hbehind
  · exact h.2 hend
  · exact blank_notMem_addressField address (hbehind.subset (by decide))

/-- The address is cut off, with nothing before it. -/
theorem cutAt_address (w : Word) (h : LegibleText w.text) (address : Word) :
    cutAt "(0x".toList (w.text ++ ' ' :: addressField address) = w.text ++ [' '] := by
  have hfront : ¬ "(0x".toList <:+: (w.text ++ [' ']) ++ "(0x".toList.dropLast := by
    intro hbracket
    have hsplit : "(0x".toList <:+: w.text ++ ' ' :: "(0x".toList.dropLast := by
      simpa using hbracket
    rcases infix_append_cons (by decide) hsplit with hin | hbehind
    · exact h.1 hin
    · exact absurd hbehind (by decide)
  have hcut := cutAt_append (by decide) hfront (address.text ++ ")".toList)
  rw [← hcut]
  simp [addressField]

theorem words_word (w : Word) : words isIfs w.text = [w.text] :=
  words_singleton w.no_sep w.ne_nil

/-- The first field of what is left. -/
theorem words_word_blank (w : Word) : words isIfs (w.text ++ [' ']) = [w.text] := by
  rw [words_append_of_word w.no_sep w.ne_nil (by decide), words_nil]

/-- A line that starts with a path or a name. -/
theorem libField_bare (w : Word) (h : LegibleText w.text) (address : Word) :
    libField ('\t' :: (w.text ++ ' ' :: addressField address)) = w.text := by
  have hnoArrow : ¬ "=> ".toList <:+: '\t' :: (w.text ++ ' ' :: addressField address) := by
    intro harrow
    rcases List.infix_cons_iff.mp harrow with hhead | hrest
    · exact absurd (List.cons_prefix_cons.mp hhead).1 (by decide)
    · exact no_arrow w h address hrest
  have hcut : cutAt "(0x".toList ('\t' :: (w.text ++ ' ' :: addressField address)) =
      '\t' :: (w.text ++ [' ']) := by
    have hhead : ¬ "(0x".toList <+: '\t' :: (w.text ++ ' ' :: addressField address) := by
      intro hbracket
      exact absurd (List.cons_prefix_cons.mp hbracket).1 (by decide)
    rw [cutAt, if_neg hhead, cutAt_address w h]
  have htab : words isIfs ('\t' :: (w.text ++ [' '])) = [w.text] := by
    rw [words_sep_cons (by decide), words_word_blank]
  simp only [libField, keepFromLast_of_not_occurs hnoArrow, removeAll_of_not_occurs hnoArrow, hcut,
    htab, List.headD_cons]

/-- The arrow and the name before it are taken away. -/
theorem removeAll_arrow {behind : Text} (h : ¬ "=> ".toList <:+: behind)
    (htail : ¬ "=> ".toList <:+: '>' :: ' ' :: behind) (front : Text) :
    removeAll "=> ".toList (keepFromLast "=> ".toList (front ++ ("=> ".toList ++ behind))) =
      behind := by
  have hkeep : keepFromLast "=> ".toList (front ++ ("=> ".toList ++ behind)) =
      "=> ".toList ++ behind := keepFromLast_append htail front
  rw [hkeep]
  exact removeAll_append (by decide) h

/-- The script gets the word of a legible line. -/
theorem libField_render (line : Line) (h : line.Legible) : libField line.render = line.word := by
  cases line with
  | found name path address =>
    -- the only arrow is the one of the line: none behind it, none that starts inside it
    have hbehind := no_arrow path.toWord h address
    have htail : ¬ "=> ".toList <:+: '>' :: ' ' :: (path.text ++ ' ' :: addressField address) := by
      intro harrow
      have hending : "=>".toList ++ [' '] <:+:
          [ '>'] ++ ' ' :: (path.text ++ ' ' :: addressField address) := harrow
      rcases infix_append_cons_of_ending (by decide) (by decide) hending with hend | hrest
      · exact absurd hend (by decide)
      · exact hbehind hrest
    have hrender : (Line.found name path address).render =
        ('\t' :: (name.text ++ [' '])) ++
          ("=> ".toList ++ (path.text ++ ' ' :: addressField address)) := by
      simp [Line.render]
    simp only [libField, hrender, removeAll_arrow hbehind htail, cutAt_address path.toWord h,
      words_word_blank path.toWord, List.headD_cons, Line.word]
  | bare path address => exact libField_bare path.toWord h address
  | pathless name address => exact libField_bare name.toWord h address
  | notFound name =>
    have hrender : (Line.notFound name).render =
        ('\t' :: (name.text ++ [' '])) ++ ("=> ".toList ++ "not found".toList) := by
      simp [Line.render]
    -- the first word of `not found` is taken for the path
    have hbehind : ¬ "=> ".toList <:+: "not found".toList := by decide
    have htail : ¬ "=> ".toList <:+: '>' :: ' ' :: "not found".toList := by decide
    have hcut : cutAt "(0x".toList "not found".toList = "not found".toList := by decide
    have hwords : words isIfs "not found".toList = ["not".toList, "found".toList] := by decide
    simp only [libField, hrender, removeAll_arrow hbehind htail, hcut, hwords,
      List.headD_cons, Line.word]

/-- The words of a line are one word. -/
theorem words_line_word (line : Line) : words isIfs line.word = [line.word] := by
  cases line with
  | found name path address => exact words_word path.toWord
  | bare path address => exact words_word path.toWord
  | pathless name address => exact words_word name.toWord
  | notFound name =>
    show words isIfs "not".toList = ["not".toList]
    decide

/-- The loop goes over the words of a legible listing, one for each line. -/
theorem libs_render {listing : List Line} (h : ∀ line ∈ listing, line.Legible) :
    libs listing = listing.map Line.word := by
  induction listing with
  | nil => rfl
  | cons line listing ih =>
    have hrest := ih fun l hl => h l (by simp [hl])
    rw [libs, List.map_cons, List.flatMap_cons, libField_render line (h line (by simp)),
      words_line_word]
    exact congrArg (line.word :: ·) hrest

end Udroid.Import
