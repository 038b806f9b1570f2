import Udroid.Unix.ShellRun

/-!
# Quoting for the shell of a device

`cmd_helper` writes the arguments of a command into a line for a shell.

- `singleQuote`, `doubleQuote`, `shrinkToSnippet`: as `cmd_helper` has them.
- `adds_singleQuote`, `adds_doubleQuote`, `adds_shrink`: the word that the shell makes of each.
- `value_quoteWord`, `value_shrinkWord`: the word has the value that was quoted.
-/

namespace Udroid.Devil

open Udroid.Unix Udroid.Unix.Shell

/-! ## Section 1: The functions -/

/-- `SingleQuote`, which is `pipes.quote`. -/
def singleQuote (s : Text) : Text :=
  if s = [] then "''".toList
  else if s.all isSafe then s
  else '\'' :: escapeSingle s ++ ['\'']

/-- `DoubleQuote`. -/
def doubleQuote (s : Text) : Text :=
  if s = [] then "\"\"".toList
  else if s.all isSafe then s
  else '"' :: escapeDouble s ++ ['"']

/-- `text.split(sep)`, where `skip` characters still belong to the separator before, and `part` is
what was read behind it. -/
def splitSkip (sep : Text) (skip : Nat) (part : Text) : Text → List Text
  | [] => [part]
  | c :: rest =>
      match skip with
      | skip + 1 => splitSkip sep skip part rest
      | 0 =>
          if sep <+: c :: rest then part :: splitSkip sep (sep.length - 1) [] rest
          else splitSkip sep 0 (part ++ [c]) rest

/-- `text.split(sep)`, for a `sep` that is not empty. -/
def splitText (sep text : Text) : List Text := splitSkip sep 0 [] text

/-- A parameter as `ShrinkToSnippet` writes it. -/
def paramText (varName : Text) : Text := ['"', '$'] ++ varName ++ ['"']

/-- `shrink` in `ShrinkToSnippet`. -/
def shrink (varName varValue value : Text) : Text :=
  let parts := (splitText varValue value).map fun x => if x = [] then [] else singleQuote x
  let withSubstitutions := (paramText varName).intercalate parts
  if withSubstitutions = [] then "''".toList else withSubstitutions

/-- `ShrinkToSnippet`. -/
def shrinkToSnippet (cmdParts : List Text) (varName varValue : Text) : Text :=
  [' '].intercalate (cmdParts.map (shrink varName varValue))

/-! ## Section 2: Quoted words -/

/-- What the shell makes of a quoted text. -/
def quoteWord (s : Text) : Word :=
  if s ≠ [] ∧ s.all isSafe then s.map .plain else s.map .quoted

theorem adds_singleQuote (s : Text) : Adds (singleQuote s) (quoteWord s) := by
  rw [singleQuote, quoteWord]
  by_cases hnil : s = []
  · subst hnil
    exact adds_single []
  · rw [if_neg hnil]
    by_cases hsafe : s.all isSafe = true
    · rw [if_pos hsafe, if_pos ⟨hnil, hsafe⟩]
      exact adds_safe hnil (List.all_eq_true.mp hsafe)
    · rw [if_neg hsafe, if_neg (fun h => hsafe h.2)]
      exact adds_single s

theorem adds_doubleQuote {s : Text} (h : ∀ c ∈ s, isLiteral c = true) :
    Adds (doubleQuote s) (quoteWord s) := by
  rw [doubleQuote, quoteWord]
  by_cases hnil : s = []
  · subst hnil
    exact adds_double h
  · rw [if_neg hnil]
    by_cases hsafe : s.all isSafe = true
    · rw [if_pos hsafe, if_pos ⟨hnil, hsafe⟩]
      exact adds_safe hnil (List.all_eq_true.mp hsafe)
    · rw [if_neg hsafe, if_neg (fun h => hsafe h.2)]
      exact adds_double h

@[simp] theorem value_quoteWord (st : State) (s : Text) : value st (quoteWord s) = s := by
  rw [quoteWord]
  split
  · exact value_plain st s
  · exact value_quoted st s

theorem map_value_quoteWord (st : State) (argv : List Text) :
    (argv.map quoteWord).map (value st) = argv := by
  simp [Function.comp_def]

/-- Quoted arguments with blanks between them are words of a line. -/
theorem line_quoted (argv : List Text) :
    Line ([' '].intercalate (argv.map singleQuote)) ((argv.map quoteWord).map .word) := by
  refine line_words ?_
  rw [List.forall₂_map_left_iff, List.forall₂_map_right_iff]
  exact List.forall₂_same.mpr fun s _ => adds_singleQuote s

/-! ## Section 3: Substitutions -/

theorem splitSkip_eq_drop (sep part : Text) (skip : Nat) (text : Text) :
    splitSkip sep skip part text = splitSkip sep 0 part (text.drop skip) := by
  induction text generalizing skip with
  | nil => cases skip <;> rfl
  | cons c rest ih =>
    cases skip with
    | zero => rfl
    | succ skip => simpa [splitSkip] using ih skip

theorem splitSkip_ne_nil (sep part : Text) (skip : Nat) (text : Text) :
    splitSkip sep skip part text ≠ [] := by
  induction text generalizing skip part with
  | nil => cases skip <;> simp [splitSkip]
  | cons c rest ih =>
    cases skip with
    | zero =>
      rw [splitSkip]
      split
      · simp
      · exact ih _ 0
    | succ skip => exact ih part skip

/-- The separator between the parts gives the text again. -/
theorem intercalate_splitSkip {sep : Text} (hsep : sep ≠ []) (part text : Text) :
    sep.intercalate (splitSkip sep 0 part text) = part ++ text := by
  obtain ⟨n, hn⟩ : ∃ n, text.length ≤ n := ⟨_, Nat.le_refl _⟩
  induction n generalizing part text with
  | zero =>
    obtain rfl : text = [] := List.eq_nil_of_length_eq_zero (Nat.le_zero.mp hn)
    simp [splitSkip]
  | succ n ih =>
    cases text with
    | nil => simp [splitSkip]
    | cons c rest =>
      simp only [List.length_cons] at hn
      rw [splitSkip]
      split
      · rename_i hpre
        obtain ⟨tail, htail⟩ := hpre
        have hpos := List.length_pos_iff.mpr hsep
        have hdrop : rest.drop (sep.length - 1) = tail := by
          have hwhole : (c :: rest).drop sep.length = tail := by rw [← htail, List.drop_left]
          rwa [show sep.length = sep.length - 1 + 1 by omega, List.drop_succ_cons] at hwhole
        have hlen := congrArg List.length htail
        simp only [List.length_append, List.length_cons] at hlen
        rw [splitSkip_eq_drop, hdrop,
          List.intercalate_cons_of_ne_nil (splitSkip_ne_nil sep [] 0 tail),
          ih [] tail (by omega), List.nil_append, ← htail, List.append_assoc]
      · rw [ih (part ++ [c]) rest (by omega), List.append_assoc, List.singleton_append]

theorem intercalate_splitText {sep : Text} (hsep : sep ≠ []) (text : Text) :
    sep.intercalate (splitText sep text) = text :=
  intercalate_splitSkip hsep [] text

/-- What the shell makes of a part between two parameters. -/
def partWord (x : Text) : Word := if x = [] then [] else quoteWord x

/-- What the shell makes of a shrunk text. -/
def shrinkWord (varName varValue value : Text) : Word :=
  [Seg.param varName].intercalate ((splitText varValue value).map partWord)

/-- Nothing, or a piece of a word. -/
def Puts (text : Text) (segs : Word) : Prop := (text = [] ∧ segs = []) ∨ Adds text segs

theorem Puts.append {a b : Text} {segs segs' : Word} (ha : Puts a segs) (hb : Puts b segs') :
    Puts (a ++ b) (segs ++ segs') := by
  rcases ha with ⟨rfl, rfl⟩ | ha
  · exact hb
  · rcases hb with ⟨rfl, rfl⟩ | hb
    · rw [List.append_nil, List.append_nil]
      exact Or.inr ha
    · exact Or.inr (ha.append hb)

theorem not_adds_nil (segs : Word) : ¬ Adds [] segs := by
  intro h
  have hfeed := h none []
  simp [feed_nil] at hfeed

theorem puts_part (x : Text) : Puts (if x = [] then [] else singleQuote x) (partWord x) := by
  rw [partWord]
  by_cases hnil : x = []
  · rw [if_pos hnil, if_pos hnil]
    exact Or.inl ⟨rfl, rfl⟩
  · rw [if_neg hnil, if_neg hnil]
    exact Or.inr (adds_singleQuote x)

theorem puts_intercalate {sep : Text} {sepWord : Word} (hsep : Puts sep sepWord)
    (parts : List Text) :
    Puts (sep.intercalate (parts.map fun x => if x = [] then [] else singleQuote x))
      (sepWord.intercalate (parts.map partWord)) := by
  induction parts with
  | nil => exact Or.inl ⟨rfl, rfl⟩
  | cons x parts ih =>
    cases parts with
    | nil => simpa using puts_part x
    | cons y parts =>
      simp only [List.map_cons, List.intercalate_cons_cons] at ih ⊢
      exact ((puts_part x).append hsep).append ih

theorem adds_shrink {varName : Text} (hname : isName varName = true) (varValue value : Text) :
    Adds (shrink varName varValue value) (shrinkWord varName varValue value) := by
  have hputs := puts_intercalate (Or.inr (adds_param hname)) (splitText varValue value)
  rw [shrink, shrinkWord]
  rcases hputs with ⟨htext, hword⟩ | hadds
  · -- an empty text is written with quotes
    simp only [paramText, htext, if_true, hword]
    exact adds_single []
  · have hne : (paramText varName).intercalate ((splitText varValue value).map
        fun x => if x = [] then [] else singleQuote x) ≠ [] := by
      intro heq
      rw [← paramText, heq] at hadds
      exact not_adds_nil _ hadds
    simp only [if_neg hne]
    exact hadds

theorem value_intercalate (st : State) (sep : Word) (ws : List Word) :
    Shell.value st (sep.intercalate ws) =
      (Shell.value st sep).intercalate (ws.map (Shell.value st)) := by
  induction ws with
  | nil => rfl
  | cons w ws ih =>
    cases ws with
    | nil => simp
    | cons w' ws =>
      rw [List.map_cons] at ih
      rw [List.intercalate_cons_cons, List.map_cons, List.map_cons, List.intercalate_cons_cons,
        value_append, value_append, ih]

/-- A shrunk text has its value where the parameter has its. -/
theorem value_shrinkWord {st : State} {varName varValue : Text} (hne : varValue ≠ [])
    (hvar : st.vars varName = some varValue) (value : Text) :
    Shell.value st (shrinkWord varName varValue value) = value := by
  have hpart : ∀ x, Shell.value st (partWord x) = x := by
    intro x
    rw [partWord]
    split
    · rename_i hnil
      rw [hnil]
      rfl
    · exact value_quoteWord st x
  rw [shrinkWord, value_intercalate, value_param, hvar, Option.getD_some, List.map_map,
    Function.comp_def]
  simp only [hpart, List.map_id', intercalate_splitText hne]

end Udroid.Devil
