import Mathlib.Data.List.Infix

/-!
# Words of a text

A text is a list of characters.  Its words are the longest pieces without a separator, as
the shell splits what it expands and as the loader splits a list of paths.

- `words_append_sep`: a separator ends a word.
- `words_singleton`: a text without separators is one word.
-/

namespace Udroid.Unix

/-- A line, a word or a whole variable. -/
abbrev Text := List Char

/-- What holds of the characters of a text is decided on these, not on all characters. -/
instance decidableForallMemText (text : Text) (p : Char → Prop) [DecidablePred p] :
    Decidable (∀ c ∈ text, p c) :=
  List.decidableBAll p text

/-- The same for a text in which some character is wanted. -/
instance decidableExistsMemText (text : Text) (p : Char → Prop) [DecidablePred p] :
    Decidable (∃ c ∈ text, p c) :=
  List.decidableBEx p text

/-- The words of a text: what stands between separators, the empty pieces left out. -/
def words (sep : Char → Bool) (text : Text) : List Text :=
  (text.splitOnP sep).filter (fun word => !word.isEmpty)

/-- The separators the shell splits words at. -/
def isIfs (c : Char) : Bool :=
  c == ' ' || c == '\t' || c == '\n'

/-- The characters that make a word a file name pattern. -/
def isPattern (c : Char) : Bool :=
  c == '*' || c == '?' || c == '[' || c == '\\'

variable {sep : Char → Bool}

@[simp] theorem words_nil : words sep [] = [] := rfl

/-- A separator ends the word before it. -/
theorem words_append_sep {s : Char} (hs : sep s = true) (a b : Text) :
    words sep (a ++ s :: b) = words sep a ++ words sep b := by
  rw [words, List.splitOnP_append_cons a b hs, List.filter_append, words, words]

/-- A separator at the start makes no word. -/
theorem words_sep_cons {s : Char} (hs : sep s = true) (b : Text) :
    words sep (s :: b) = words sep b := by
  simpa using words_append_sep hs [] b

/-- A text without separators is one word, if it is not empty. -/
theorem words_singleton {word : Text} (h : ∀ c ∈ word, sep c = false) (hne : word ≠ []) :
    words sep word = [word] := by
  rw [words, List.splitOnP_eq_singleton h]
  simp [hne]

/-- A word at the start of a line, up to its first separator. -/
theorem words_append_of_word {word : Text} (h : ∀ c ∈ word, sep c = false) (hne : word ≠ [])
    {s : Char} (hs : sep s = true) (b : Text) :
    words sep (word ++ s :: b) = word :: words sep b := by
  rw [words_append_sep hs, words_singleton h hne, List.singleton_append]

end Udroid.Unix
