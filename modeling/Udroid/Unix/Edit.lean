import Udroid.Unix.Grep

/-!
# Editing lines

Three substitutions of `sed` with a plain text for a pattern: keep what stands from its
last occurrence on, take it out everywhere, cut the line at its first occurrence.

- `keepFromLast_append`, `removeAll_append`, `cutAt_append`: what each does to a line in
  which the text occurs once more at most.
- `infix_append_cons`, `infix_append_cons_of_ending`: how a text can occur around a separator.
-/

namespace Udroid.Unix

variable {pat : Text}

/-! ## Section 1: The edits -/

/-- `s/.*(pat)/\1/`: what stands before the last occurrence goes. -/
def keepFromLast (pat : Text) : Text → Text
  | [] => []
  | c :: rest => if occurs pat rest then keepFromLast pat rest else c :: rest

/-- `s/pat//g`, where `skip` characters still belong to the occurrence before. -/
def removeAllSkip (pat : Text) (skip : Nat) : Text → Text
  | [] => []
  | c :: rest =>
      match skip with
      | skip + 1 => removeAllSkip pat skip rest
      | 0 =>
          if pat <+: c :: rest then removeAllSkip pat (pat.length - 1) rest
          else c :: removeAllSkip pat 0 rest

/-- `s/pat//g`. -/
def removeAll (pat text : Text) : Text :=
  removeAllSkip pat 0 text

/-- `s/pat.*//`: what stands from the first occurrence on goes. -/
def cutAt (pat : Text) : Text → Text
  | [] => []
  | c :: rest => if pat <+: c :: rest then [] else c :: cutAt pat rest

/-! ## Section 2: What they do -/

theorem keepFromLast_of_not_occurs {text : Text} (h : ¬ pat <:+: text) :
    keepFromLast pat text = text := by
  cases text with
  | nil => rfl
  | cons c rest =>
    have hrest : ¬ pat <:+: rest := fun hpat => h (List.infix_cons hpat)
    rw [keepFromLast, occurs_eq_false.mpr hrest]
    rfl

/-- The last occurrence is the one behind which the text does not occur again. -/
theorem keepFromLast_append {b : Text} (hb : ¬ pat <:+: (pat ++ b).tail) (a : Text) :
    keepFromLast pat (a ++ (pat ++ b)) = pat ++ b := by
  induction a with
  | nil =>
    rw [List.nil_append]
    cases htext : pat ++ b with
    | nil => rfl
    | cons c rest =>
      rw [htext, List.tail_cons] at hb
      rw [keepFromLast, occurs_eq_false.mpr hb]
      rfl
  | cons c a ih =>
    have hpat : pat <:+: a ++ (pat ++ b) := List.infix_append' _ _ _
    rw [List.cons_append, keepFromLast, occurs_eq_true.mpr hpat, if_pos rfl, ih]

theorem removeAllSkip_eq_drop (skip : Nat) (text : Text) :
    removeAllSkip pat skip text = removeAll pat (text.drop skip) := by
  induction text generalizing skip with
  | nil => cases skip <;> rfl
  | cons c rest ih =>
    cases skip with
    | zero => rfl
    | succ skip => simpa [removeAllSkip] using ih skip

theorem removeAll_of_not_occurs {text : Text} (h : ¬ pat <:+: text) :
    removeAll pat text = text := by
  induction text with
  | nil => rfl
  | cons c rest ih =>
    have hhead : ¬ pat <+: c :: rest := fun hpat => h hpat.isInfix
    have hrest : ¬ pat <:+: rest := fun hpat => h (List.infix_cons hpat)
    rw [removeAll, removeAllSkip, if_neg hhead]
    exact congrArg (c :: ·) (ih hrest)

/-- An occurrence at the start goes, and nothing else if there is no other. -/
theorem removeAll_append (hne : pat ≠ []) {b : Text} (hb : ¬ pat <:+: b) :
    removeAll pat (pat ++ b) = b := by
  obtain ⟨c, rest, rfl⟩ := List.exists_cons_of_ne_nil hne
  have hhead : c :: rest <+: c :: (rest ++ b) := List.prefix_append (c :: rest) b
  rw [List.cons_append, removeAll, removeAllSkip, if_pos hhead, removeAllSkip_eq_drop]
  simpa using removeAll_of_not_occurs hb

/-- The first occurrence is the one before which the text does not start. -/
theorem cutAt_append (hne : pat ≠ []) {a : Text} (ha : ¬ pat <:+: a ++ pat.dropLast) (b : Text) :
    cutAt pat (a ++ (pat ++ b)) = a := by
  induction a with
  | nil =>
    obtain ⟨c, rest, rfl⟩ := List.exists_cons_of_ne_nil hne
    have hhead : c :: rest <+: c :: (rest ++ b) := List.prefix_append (c :: rest) b
    rw [List.nil_append, List.cons_append, cutAt, if_pos hhead]
  | cons c a ih =>
    have hhead : ¬ pat <+: c :: (a ++ (pat ++ b)) := by
      intro hpat
      -- it would lie within the first characters
      have hlen : pat.length ≤ (c :: a ++ pat.dropLast).length := by
        simp only [List.cons_append, List.length_cons, List.length_append, List.length_dropLast]
        omega
      have hfront : c :: a ++ pat.dropLast <+: c :: (a ++ (pat ++ b)) := by
        rw [← List.cons_append, List.prefix_append_right_inj]
        exact (List.dropLast_prefix pat).trans (List.prefix_append pat b)
      exact ha (List.prefix_of_prefix_length_le hpat hfront hlen).isInfix
    have hrest : ¬ pat <:+: a ++ pat.dropLast := fun hpat => ha (List.infix_cons hpat)
    rw [List.cons_append, cutAt, if_neg hhead, ih hrest]

/-! ## Section 3: Occurrences around a separator -/

/-- A text without the separator occurs before it or behind it. -/
theorem infix_append_cons {c : Char} (hc : c ∉ pat) {a b : Text} (h : pat <:+: a ++ c :: b) :
    pat <:+: a ∨ pat <:+: b := by
  -- in `a`, behind `a`, or over the end of `a`, where it would have the separator in it
  rcases List.infix_append_iff.mp h with h | h | ⟨l, r, rfl, hl, hr⟩
  · exact Or.inl h
  · rcases List.infix_cons_iff.mp h with h | h
    · cases pat with
      | nil => exact Or.inl List.nil_infix
      | cons x pat =>
        obtain ⟨rfl, -⟩ := List.cons_prefix_cons.mp h
        simp at hc
    · exact Or.inr h
  · cases r with
    | nil => exact Or.inl (by simpa using hl.isInfix)
    | cons x r =>
      obtain ⟨rfl, -⟩ := List.cons_prefix_cons.mp hr
      simp at hc

/-- A text that ends in the separator occurs where the text before it ends, or behind. -/
theorem infix_append_cons_of_ending {c : Char} (hc : c ∉ pat) {a b : Text} (ha : c ∉ a)
    (h : pat ++ [c] <:+: a ++ c :: b) : pat <:+ a ∨ pat ++ [c] <:+: b := by
  -- over the end of `a` it can only go with its own separator, its last character
  rcases List.infix_append_iff.mp h with h | h | ⟨l, r, hsplit, hl, hr⟩
  · exact absurd (h.subset (by simp)) ha
  · rcases List.infix_cons_iff.mp h with h | h
    · cases pat with
      | nil => exact Or.inl List.nil_suffix
      | cons x pat =>
        obtain ⟨rfl, -⟩ := List.cons_prefix_cons.mp h
        simp at hc
    · exact Or.inr h
  · cases r using List.reverseRecOn with
    | nil =>
      rw [List.append_nil] at hsplit
      exact absurd (hl.subset (hsplit ▸ List.mem_append_right pat (List.mem_singleton_self c))) ha
    | append_singleton r x =>
      rw [← List.append_assoc] at hsplit
      obtain ⟨rfl, -⟩ := List.append_inj' hsplit rfl
      cases r with
      | nil => exact Or.inl (by simpa using hl)
      | cons y r =>
        obtain ⟨rfl, -⟩ := List.cons_prefix_cons.mp hr
        simp at hc

end Udroid.Unix
