import Udroid.Unix.Text
import Mathlib.Data.List.TakeWhile

/-!
# Searching lines

`grep` keeps the lines that have a text; `grep -Po 'key\K\w+'` prints, for every place where
the key stands before some word characters, these characters.  A search goes on behind what
the last match took.

- `matchesAfter_append_cons`: a character outside words cuts a search in two.
- `matchesAfter_key`: the search finds the word behind the key.
- `matchesAfter_eq_nil_iff`: it finds nothing where the key never stands before a word.
-/

namespace Udroid.Unix

/-! ## Section 1: Lines with a text -/

/-- Does the line have the text? -/
def occurs (pat line : Text) : Bool :=
  decide (pat <:+: line)

@[simp] theorem occurs_eq_true {pat line : Text} : occurs pat line = true ↔ pat <:+: line := by
  simp [occurs]

@[simp] theorem occurs_eq_false {pat line : Text} :
    occurs pat line = false ↔ ¬ pat <:+: line := by
  simp [occurs]

/-- `grep pat`. -/
def grep (pat : Text) (lines : List Text) : List Text :=
  lines.filter (occurs pat)

/-- What `grep` prints starts with the first line that has the text. -/
theorem grep_first {pat line : Text} {before after : List Text}
    (hbefore : ∀ l ∈ before, ¬ pat <:+: l) (hline : pat <:+: line) :
    grep pat (before ++ line :: after) = line :: grep pat after := by
  have hnone : before.filter (occurs pat) = [] := by
    simpa [List.filter_eq_nil_iff] using hbefore
  simp [grep, hnone, hline]

/-! ## Section 2: The word behind a key -/

variable (key : Text) (run : Char → Bool)

/-- The characters behind a key at the start of the text, if the text starts with it. -/
def behindKey (text : Text) : Text :=
  if key <+: text then (text.drop key.length).takeWhile run else []

/-- All matches of `key\K\w+`, from left to right; `skip` characters belong to the match
before. -/
def matchesAfterSkip (skip : Nat) : Text → List Text
  | [] => []
  | c :: rest =>
      match skip with
      | skip + 1 => matchesAfterSkip skip rest
      | 0 =>
          let word := behindKey key run (c :: rest)
          if word.isEmpty then matchesAfterSkip 0 rest
          else word :: matchesAfterSkip (key.length + word.length - 1) rest

/-- `grep -Po 'key\K\w+'`, the matches one by one. -/
def matchesAfter (text : Text) : List Text :=
  matchesAfterSkip key run 0 text

/-! ## Section 3: Searching -/

variable {key run}

@[simp] theorem matchesAfter_nil : matchesAfter key run [] = [] := rfl

theorem matchesAfterSkip_eq_drop (skip : Nat) (text : Text) :
    matchesAfterSkip key run skip text = matchesAfter key run (text.drop skip) := by
  induction text generalizing skip with
  | nil => cases skip <;> rfl
  | cons c rest ih =>
    cases skip with
    | zero => rfl
    | succ skip => simpa [matchesAfterSkip] using ih skip

/-- Where no match starts the search moves on by one character. -/
theorem matchesAfter_cons_of_not {c : Char} {rest : Text}
    (h : behindKey key run (c :: rest) = []) :
    matchesAfter key run (c :: rest) = matchesAfter key run rest := by
  simp [matchesAfter, matchesAfterSkip, h]

/-- Where a match starts the search goes on behind it. -/
theorem matchesAfter_cons_of_match {c : Char} {rest : Text} (hkey : key ≠ [])
    (h : behindKey key run (c :: rest) ≠ []) :
    matchesAfter key run (c :: rest) =
      behindKey key run (c :: rest) :: matchesAfter key run
        ((c :: rest).drop (key.length + (behindKey key run (c :: rest)).length)) := by
  obtain ⟨k, hk⟩ : ∃ k, key.length = k + 1 :=
    Nat.exists_eq_succ_of_ne_zero (by simpa using hkey)
  have hdrop : key.length + (behindKey key run (c :: rest)).length =
      key.length + (behindKey key run (c :: rest)).length - 1 + 1 := by omega
  rw [hdrop, List.drop_succ_cons, ← matchesAfterSkip_eq_drop]
  simp [matchesAfter, matchesAfterSkip, h]

/-- A match is what follows the key up to the end of the word. -/
theorem behindKey_key (key word : Text) (hword : ∀ c ∈ word, run c = true) (rest : Text) :
    behindKey key run (key ++ (word ++ rest)) = word ++ rest.takeWhile run := by
  have hpre : key <+: key ++ (word ++ rest) := List.prefix_append _ _
  simp [behindKey, List.takeWhile_append_of_pos hword]

theorem behindKey_eq_nil_of_not_key {text : Text} (h : ¬ key <+: text) :
    behindKey key run text = [] := by
  simp [behindKey, h]

theorem run_of_mem_behindKey {key text : Text} {c : Char} (h : c ∈ behindKey key run text) :
    run c = true := by
  unfold behindKey at h
  split at h
  · exact List.mem_takeWhile_imp h
  · simp at h

/-- The key and the word behind it are a part of the text. -/
theorem behindKey_of_key (run : Char → Bool) {text : Text} (h : key <+: text) :
    key ++ behindKey key run text <+: text := by
  obtain ⟨rest, rfl⟩ := h
  simp only [behindKey, List.prefix_append, if_true, List.drop_left, List.prefix_append_right_inj]
  exact List.takeWhile_prefix _

/-! ## Section 4: What a search finds -/

theorem takeWhile_append_cons_of_not {c : Char} (hc : run c = false) (a b : Text) :
    (a ++ c :: b).takeWhile run = a.takeWhile run := by
  induction a with
  | nil => simp [hc]
  | cons x a ih =>
    simp only [List.cons_append, List.takeWhile_cons, ih]

/-- A key of word characters does not go over a character outside words. -/
theorem key_prefix_append_cons (hkeyRun : ∀ k ∈ key, run k = true) {c : Char}
    (hc : run c = false) {a b : Text} (h : key <+: a ++ c :: b) : key <+: a := by
  rcases List.prefix_or_prefix_of_prefix h (List.prefix_append a (c :: b)) with h' | h'
  · exact h'
  · obtain ⟨l, rfl⟩ := h'
    have hl : l <+: c :: b := (List.prefix_append_right_inj a).mp h
    cases l with
    | nil => simp
    | cons x l =>
      obtain ⟨rfl, -⟩ := List.cons_prefix_cons.mp hl
      simp [hkeyRun x (by simp)] at hc

/-- What stands behind a key does not go over a character outside words either. -/
theorem behindKey_append_cons (hkeyRun : ∀ k ∈ key, run k = true) {c : Char}
    (hc : run c = false) (a b : Text) :
    behindKey key run (a ++ c :: b) = behindKey key run a := by
  by_cases h : key <+: a
  · obtain ⟨rest, rfl⟩ := h
    simp only [behindKey, List.append_assoc, List.prefix_append, if_true, List.drop_left]
    exact takeWhile_append_cons_of_not hc rest b
  · rw [behindKey_eq_nil_of_not_key h]
    exact behindKey_eq_nil_of_not_key fun h' => h (key_prefix_append_cons hkeyRun hc h')

/-- A character outside words cuts a search in two: no match goes over it. -/
theorem matchesAfter_append_cons (hkey : key ≠ []) (hkeyRun : ∀ k ∈ key, run k = true) {c : Char}
    (hc : run c = false) (a b : Text) :
    matchesAfter key run (a ++ c :: b) = matchesAfter key run a ++ matchesAfter key run b := by
  -- on the length of what is left before the cut: a match takes several characters at once
  induction hn : a.length using Nat.strong_induction_on generalizing a with
  | _ n ih =>
    subst hn
    cases a with
    | nil =>
      have hnot : behindKey key run (c :: b) = [] := by
        have hnil := behindKey_append_cons hkeyRun hc [] b
        rw [List.nil_append] at hnil
        rw [hnil]
        exact behindKey_eq_nil_of_not_key (by simpa using hkey)
      simp [matchesAfter_cons_of_not hnot]
    | cons x a =>
      have hbehind := behindKey_append_cons hkeyRun hc (x :: a) b
      rw [List.cons_append] at hbehind ⊢
      by_cases hmatch : behindKey key run (x :: a) = []
      · rw [matchesAfter_cons_of_not (hbehind.trans hmatch), matchesAfter_cons_of_not hmatch]
        exact ih a.length (by simp) a rfl
      · have hpre : key <+: x :: a := by
          by_contra h
          exact hmatch (behindKey_eq_nil_of_not_key h)
        have hlen := (behindKey_of_key run hpre).length_le
        have hpos : 0 < key.length := List.length_pos_iff.mpr hkey
        rw [List.length_append] at hlen
        rw [matchesAfter_cons_of_match hkey (by rwa [hbehind]), hbehind,
          matchesAfter_cons_of_match hkey hmatch, ← List.cons_append,
          List.drop_append_of_le_length hlen, List.cons_append]
        congr 1
        refine ih _ ?_ _ rfl
        rw [List.length_drop]
        simp only [List.length_cons] at hlen ⊢
        omega

/-- The search finds the word behind a key at the start of the text, and goes on after it. -/
theorem matchesAfter_key (hkey : key ≠ []) {word : Text} (hword : ∀ c ∈ word, run c = true)
    (hne : word ≠ []) (rest : Text) :
    matchesAfter key run (key ++ (word ++ rest)) =
      (word ++ rest.takeWhile run) :: matchesAfter key run (rest.dropWhile run) := by
  have hbehind := behindKey_key key word hword rest
  obtain ⟨k, key', rfl⟩ := List.exists_cons_of_ne_nil hkey
  rw [List.cons_append] at hbehind ⊢
  rw [matchesAfter_cons_of_match hkey (by simp [hbehind, hne]), hbehind]
  congr 2
  have hsplit : k :: (key' ++ (word ++ rest)) =
      (k :: key' ++ (word ++ rest.takeWhile run)) ++ rest.dropWhile run := by
    simp [List.takeWhile_append_dropWhile]
  rw [hsplit, ← List.length_append, List.drop_left]

/-- The search finds nothing exactly where the key never stands before a word character. -/
theorem matchesAfter_eq_nil_iff (hkey : key ≠ []) (text : Text) :
    matchesAfter key run text = [] ↔ ∀ c, run c = true → ¬ key ++ [c] <:+: text := by
  induction text with
  | nil => simp
  | cons x text ih =>
    -- no match starts here: then nothing that starts here is the key before a word character
    by_cases hmatch : behindKey key run (x :: text) = []
    · rw [matchesAfter_cons_of_not hmatch, ih]
      refine forall₂_congr fun c hc => not_congr ?_
      rw [List.infix_cons_iff]
      refine ⟨Or.inr, fun h => h.resolve_left ?_⟩
      rintro ⟨rest, hrest⟩
      have hbehind := behindKey_key key [c] (by simpa using hc) rest
      rw [← List.append_assoc, hrest, hmatch] at hbehind
      simp at hbehind
    · simp only [matchesAfter_cons_of_match hkey hmatch, List.cons_ne_nil, false_iff, not_forall,
        not_not]
      -- a match starts here, with the key and the first character of the word
      obtain ⟨c, word, hword⟩ := List.exists_cons_of_ne_nil hmatch
      have hpre : key <+: x :: text := by
        by_contra h
        exact hmatch (behindKey_eq_nil_of_not_key h)
      have hmem : c ∈ behindKey key run (x :: text) := by
        rw [hword]
        exact List.mem_cons_self
      have hc : run c = true := run_of_mem_behindKey hmem
      refine ⟨c, hc, ?_⟩
      have hfull := behindKey_of_key run hpre
      rw [hword, ← List.singleton_append, ← List.append_assoc] at hfull
      exact ((List.prefix_append _ _).trans hfull).isInfix

/-- Every match is a word. -/
theorem run_of_mem_matchesAfter (hkey : key ≠ []) {text word : Text}
    (h : word ∈ matchesAfter key run text) : ∀ c ∈ word, run c = true := by
  -- on the length, since the search goes on behind the whole match
  induction hn : text.length using Nat.strong_induction_on generalizing text with
  | _ n ih =>
    subst hn
    cases text with
    | nil => simp at h
    | cons x text =>
      by_cases hmatch : behindKey key run (x :: text) = []
      · rw [matchesAfter_cons_of_not hmatch] at h
        exact ih text.length (by simp) h rfl
      · rw [matchesAfter_cons_of_match hkey hmatch] at h
        have hpos : 0 < key.length := List.length_pos_iff.mpr hkey
        rcases List.mem_cons.mp h with rfl | h
        · exact fun c hc => run_of_mem_behindKey hc
        · exact ih _ (by rw [List.length_drop]; simp only [List.length_cons]; omega) h rfl

end Udroid.Unix
