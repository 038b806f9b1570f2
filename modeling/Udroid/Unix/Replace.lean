import Udroid.Unix.Text

/-!
# Replacing a text

`text.replace(pat, rep)`: every occurrence, from left to right, and none inside another; and
what stands behind the first occurrence.

- `replace_of_prefix`, `replace_of_not_prefix`: one place of the text.
- `behindFirst_append`: the first occurrence.
- `replace_expand`: putting carriage returns before each newline, and taking them out again.
- `infix_of_infix_expand`: they do not make an occurrence where there was none.
-/

namespace Udroid.Unix

/-! ## Section 1: Replacing -/

/-- `text.replace(pat, rep)`, where `skip` characters still belong to the occurrence before. -/
def replaceSkip (pat rep : Text) (skip : Nat) : Text → Text
  | [] => []
  | c :: rest =>
      match skip with
      | skip + 1 => replaceSkip pat rep skip rest
      | 0 =>
          if pat <+: c :: rest then rep ++ replaceSkip pat rep (pat.length - 1) rest
          else c :: replaceSkip pat rep 0 rest

/-- `text.replace(pat, rep)`, for a `pat` that is not empty. -/
def replace (pat rep text : Text) : Text :=
  replaceSkip pat rep 0 text

variable {pat rep : Text}

@[simp] theorem replace_nil : replace pat rep [] = [] := rfl

theorem replaceSkip_eq_drop (skip : Nat) (text : Text) :
    replaceSkip pat rep skip text = replace pat rep (text.drop skip) := by
  induction text generalizing skip with
  | nil => cases skip <;> rfl
  | cons c rest ih =>
    cases skip with
    | zero => rfl
    | succ skip => simpa [replaceSkip] using ih skip

/-- An occurrence at the start is replaced, and the rest is searched behind it. -/
theorem replace_of_prefix (hne : pat ≠ []) (rest : Text) :
    replace pat rep (pat ++ rest) = rep ++ replace pat rep rest := by
  obtain ⟨c, tail, rfl⟩ := List.exists_cons_of_ne_nil hne
  have hpre : c :: tail <+: c :: (tail ++ rest) := List.prefix_append (c :: tail) rest
  rw [List.cons_append, replace, replaceSkip, if_pos hpre, replaceSkip_eq_drop]
  simp

theorem replace_of_not_prefix {c : Char} {rest : Text} (h : ¬ pat <+: c :: rest) :
    replace pat rep (c :: rest) = c :: replace pat rep rest := by
  rw [replace, replaceSkip, if_neg h, replace]

/-! ## Section 2: The first occurrence -/

/-- What stands behind the first occurrence of `pat`. -/
def behindFirst (pat : Text) : Text → Option Text
  | [] => none
  | c :: rest =>
      if pat <+: c :: rest then some ((c :: rest).drop pat.length) else behindFirst pat rest

/-- The first occurrence is the one before which none starts. -/
theorem behindFirst_append (hne : pat ≠ []) {a : Text} (ha : ¬ pat <:+: a ++ pat.dropLast)
    (b : Text) : behindFirst pat (a ++ (pat ++ b)) = some b := by
  induction a with
  | nil =>
    obtain ⟨c, tail, rfl⟩ := List.exists_cons_of_ne_nil hne
    have hpre : c :: tail <+: c :: (tail ++ b) := List.prefix_append (c :: tail) b
    rw [List.nil_append, List.cons_append, behindFirst, if_pos hpre]
    simp
  | cons c a ih =>
    have hnot : ¬ pat <+: c :: (a ++ (pat ++ b)) := by
      intro hpre
      -- an occurrence that starts here ends before the last character of the next one
      have hfront : c :: a ++ pat.dropLast <+: c :: (a ++ (pat ++ b)) := by
        rw [← List.cons_append, List.prefix_append_right_inj]
        exact (List.dropLast_prefix pat).trans (List.prefix_append pat b)
      have hlen : pat.length ≤ (c :: a ++ pat.dropLast).length := by
        simp only [List.cons_append, List.length_cons, List.length_append, List.length_dropLast]
        omega
      exact ha (List.prefix_of_prefix_length_le hpre hfront hlen).isInfix
    have hrest : ¬ pat <:+: a ++ pat.dropLast := fun hpat => ha (List.infix_cons hpat)
    rw [List.cons_append, behindFirst, if_neg hnot, ih hrest]

/-! ## Section 3: Carriage returns -/

/-- A newline behind `k` carriage returns. -/
def newline (k : Nat) : Text := List.replicate k '\r' ++ ['\n']

/-- Put `k` carriage returns before every newline. -/
def expand (k : Nat) (text : Text) : Text :=
  text.flatMap fun c => if c = '\n' then newline k else [c]

theorem newline_ne_nil (k : Nat) : newline k ≠ [] := by simp [newline]

theorem newline_succ (k : Nat) : newline (k + 1) = '\r' :: newline k := by
  rw [newline, List.replicate_succ, List.cons_append, newline]

@[simp] theorem expand_nil (k : Nat) : expand k [] = [] := rfl

@[simp] theorem expand_newline (k : Nat) (rest : Text) :
    expand k ('\n' :: rest) = newline k ++ expand k rest := by
  simp [expand]

theorem expand_cons (k : Nat) {c : Char} (hc : c ≠ '\n') (rest : Text) :
    expand k (c :: rest) = c :: expand k rest := by
  simp [expand, hc]

@[simp] theorem expand_zero (text : Text) : expand 0 text = text := by
  induction text with
  | nil => rfl
  | cons c rest ih =>
    by_cases hc : c = '\n'
    · subst hc
      simp [newline, ih]
    · rw [expand_cons 0 hc, ih]

theorem not_newline_prefix_cons {j : Nat} {c : Char} (hr : c ≠ '\r') (hn : c ≠ '\n')
    (rest : Text) : ¬ newline j <+: c :: rest := by
  intro hpre
  cases j with
  | zero => exact hn (List.cons_prefix_cons.mp hpre).1.symm
  | succ j =>
    rw [newline_succ] at hpre
    exact hr (List.cons_prefix_cons.mp hpre).1.symm

theorem not_newline_prefix_newline {j k : Nat} (hjk : j < k) (rest : Text) :
    ¬ newline j <+: newline k ++ rest := by
  induction j generalizing k with
  | zero =>
    obtain ⟨k, rfl⟩ := Nat.exists_eq_succ_of_ne_zero (Nat.ne_zero_of_lt hjk)
    rw [newline_succ]
    intro hpre
    exact absurd (List.cons_prefix_cons.mp hpre).1 (by decide)
  | succ j ih =>
    obtain ⟨k, rfl⟩ := Nat.exists_eq_succ_of_ne_zero (Nat.ne_zero_of_lt hjk)
    rw [newline_succ, newline_succ, List.cons_append, List.cons_prefix_cons]
    exact fun hpre => ih (Nat.lt_of_succ_lt_succ hjk) hpre.2

/-- Every newline of an expanded text has all its carriage returns before it. -/
theorem not_newline_prefix_expand {j k : Nat} (hjk : j < k) (text : Text) :
    ¬ newline j <+: expand k text := by
  induction text generalizing j with
  | nil =>
    rw [expand_nil, List.prefix_nil]
    exact newline_ne_nil j
  | cons c rest ih =>
    by_cases hn : c = '\n'
    · subst hn
      rw [expand_newline]
      exact not_newline_prefix_newline hjk _
    · rw [expand_cons k hn]
      by_cases hr : c = '\r'
      · subst hr
        cases j with
        | zero =>
          intro hpre
          exact absurd (List.cons_prefix_cons.mp hpre).1 (by decide)
        | succ j =>
          rw [newline_succ, List.cons_prefix_cons]
          exact fun hpre => ih (Nat.lt_of_succ_lt hjk) hpre.2
      · exact not_newline_prefix_cons hr hn _

/-- Replacing the expanded newlines gives the text back, with the carriage returns it had. -/
theorem replace_expand (k : Nat) (text : Text) :
    replace (newline k) ['\n'] (expand k text) = text := by
  induction text with
  | nil => rfl
  | cons c rest ih =>
    by_cases hn : c = '\n'
    · subst hn
      rw [expand_newline, replace_of_prefix (newline_ne_nil k), ih]
      rfl
    · rw [expand_cons k hn, replace_of_not_prefix, ih]
      -- a carriage return of the text is one too many for the newline behind it
      by_cases hr : c = '\r'
      · subst hr
        cases k with
        | zero => exact fun hpre => absurd (List.cons_prefix_cons.mp hpre).1 (by decide)
        | succ k =>
          rw [newline_succ, List.cons_prefix_cons]
          exact fun hpre => not_newline_prefix_expand (Nat.lt_succ_self k) rest hpre.2
      · exact not_newline_prefix_cons hr hn _

theorem expand_append (k : Nat) (a b : Text) : expand k (a ++ b) = expand k a ++ expand k b :=
  List.flatMap_append

theorem expand_of_notMem {k : Nat} {text : Text} (h : '\n' ∉ text) : expand k text = text := by
  induction text with
  | nil => rfl
  | cons c rest ih =>
    simp only [List.mem_cons, not_or] at h
    rw [expand_cons k (Ne.symm h.1), ih h.2]

/-- A text with neither newlines nor carriage returns in it starts an expanded text where it
starts the text. -/
theorem prefix_of_prefix_expand {k : Nat} {text : Text} (hr : '\r' ∉ pat) (hn : '\n' ∉ pat)
    (h : pat <+: expand k text) : pat <+: text := by
  induction text generalizing pat with
  | nil => simpa using h
  | cons c rest ih =>
    cases pat with
    | nil => exact List.nil_prefix
    | cons p pat =>
      simp only [List.mem_cons, not_or] at hr hn
      by_cases hc : c = '\n'
      · -- an expanded newline starts with a character that the text does not have
        subst hc
        rw [expand_newline] at h
        cases k with
        | zero => exact absurd (List.cons_prefix_cons.mp h).1.symm hn.1
        | succ k =>
          rw [newline_succ] at h
          exact absurd (List.cons_prefix_cons.mp h).1.symm hr.1
      · rw [expand_cons k hc] at h
        obtain ⟨rfl, hrest⟩ := List.cons_prefix_cons.mp h
        exact List.cons_prefix_cons.mpr ⟨rfl, ih hr.2 hn.2 hrest⟩

theorem infix_of_infix_replicate {k : Nat} {rest : Text} (hne : pat ≠ []) (hr : '\r' ∉ pat)
    (h : pat <:+: List.replicate k '\r' ++ rest) : pat <:+: rest := by
  induction k with
  | zero => simpa using h
  | succ k ih =>
    rw [List.replicate_succ, List.cons_append, List.infix_cons_iff] at h
    rcases h with h | h
    · obtain ⟨p, pat, rfl⟩ := List.exists_cons_of_ne_nil hne
      obtain ⟨rfl, -⟩ := List.cons_prefix_cons.mp h
      simp at hr
    · exact ih h

/-- Expanding does not make an occurrence where there was none. -/
theorem infix_of_infix_expand {k : Nat} {text : Text} (hne : pat ≠ []) (hr : '\r' ∉ pat)
    (hn : '\n' ∉ pat) (h : pat <:+: expand k text) : pat <:+: text := by
  induction text with
  | nil => simpa using h
  | cons c rest ih =>
    by_cases hc : c = '\n'
    · subst hc
      rw [expand_newline, newline, List.append_assoc] at h
      have htail := infix_of_infix_replicate hne hr h
      rw [List.singleton_append, List.infix_cons_iff] at htail
      rcases htail with hpre | hrest
      · obtain ⟨p, pat, rfl⟩ := List.exists_cons_of_ne_nil hne
        obtain ⟨rfl, -⟩ := List.cons_prefix_cons.mp hpre
        simp at hn
      · exact List.infix_cons (ih hrest)
    · have hcons := expand_cons k hc rest
      rw [hcons, List.infix_cons_iff] at h
      rcases h with hpre | hrest
      · rw [← hcons] at hpre
        exact (prefix_of_prefix_expand hr hn hpre).isInfix
      · exact List.infix_cons (ih hrest)

end Udroid.Unix
