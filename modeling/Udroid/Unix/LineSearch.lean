import Udroid.Unix.Text

/-!
# Searching at the starts of lines

`re.search` with a pattern that is anchored by `^`, under `re.MULTILINE`: the pattern is tried
at the start of the text and behind every newline.  What the pattern matches is a condition on
the text from there on.

- `search_eq_some`, `search_eq_none`: a search finds the first place from a position on.
- `lastFrom_spec`: searching on and on finds the last one.
- `lines_append_cons`, `unlines_lines`: a text and its lines.
- `lastFrom_lines`: the last match of a pattern that looks at one line only.
-/

namespace Udroid.Unix

/-! ## Section 1: Searching -/

/-- The first place of the text where `p` holds at the start of a line; `start` says whether the
text itself is at one. -/
def scan (p : Text → Bool) (start : Bool) : Text → Option Nat
  | [] => if start && p [] then some 0 else none
  | c :: rest =>
      if start && p (c :: rest) then some 0
      else (scan p (c == '\n') rest).map (· + 1)

/-- `pattern.search(text, pos)`. -/
def search (p : Text → Bool) (text : Text) (pos : Nat) : Option Nat :=
  (scan p ((text.take pos).getLast? == some '\n' || pos == 0) (text.drop pos)).map (· + pos)

/-- The place behind `before` is the start of a line. -/
def LineStart (start : Bool) (before : Text) : Prop :=
  (before = [] ∧ start = true) ∨ before.getLast? = some '\n'

/-- The pattern matches at the place. -/
def MatchesAt (p : Text → Bool) (text : Text) (i : Nat) : Prop :=
  ∃ a b, text = a ++ b ∧ a.length = i ∧ LineStart true a ∧ p b = true

variable {p : Text → Bool}

theorem lineStart_cons {start : Bool} {c : Char} {a : Text} :
    LineStart start (c :: a) ↔ LineStart (c == '\n') a := by
  cases a with
  | nil => simp [LineStart]
  | cons d a => simp [LineStart]

theorem scan_eq_some {start : Bool} {text : Text} {i : Nat} (h : scan p start text = some i) :
    ∃ a b, text = a ++ b ∧ a.length = i ∧ LineStart start a ∧ p b = true := by
  induction text generalizing start i with
  | nil =>
    rw [scan] at h
    split at h
    · rename_i hcond
      obtain ⟨hstart, hp⟩ := Bool.and_eq_true_iff.mp hcond
      exact ⟨[], [], rfl, Option.some.inj h, Or.inl ⟨rfl, hstart⟩, hp⟩
    · cases h
  | cons c rest ih =>
    rw [scan] at h
    split at h
    · rename_i hcond
      obtain ⟨hstart, hp⟩ := Bool.and_eq_true_iff.mp hcond
      exact ⟨[], c :: rest, rfl, Option.some.inj h, Or.inl ⟨rfl, hstart⟩, hp⟩
    · obtain ⟨j, hj, rfl⟩ := Option.map_eq_some_iff.mp h
      obtain ⟨a, b, rfl, rfl, hline, hp⟩ := ih hj
      exact ⟨c :: a, b, rfl, rfl, lineStart_cons.mpr hline, hp⟩

/-- Before what a scan finds the pattern matches nowhere. -/
theorem scan_first {start : Bool} {text a b : Text} {i : Nat} (h : scan p start text = some i)
    (hsplit : text = a ++ b) (hlt : a.length < i) (hline : LineStart start a) : p b = false := by
  induction a generalizing start text i with
  | nil =>
    obtain rfl : text = b := hsplit
    have hstart : start = true := by simpa [LineStart] using hline
    cases hp : p text with
    | false => rfl
    | true =>
      cases text with
      | nil =>
        simp only [scan, hstart, hp, Bool.and_self, if_true, Option.some_inj] at h
        omega
      | cons c rest =>
        simp only [scan, hstart, hp, Bool.and_self, if_true, Option.some_inj] at h
        omega
  | cons c a ih =>
    subst hsplit
    rw [List.cons_append, scan] at h
    split at h
    · simp only [Option.some_inj] at h
      omega
    · obtain ⟨j, hj, rfl⟩ := Option.map_eq_some_iff.mp h
      simp only [List.length_cons] at hlt
      exact ih hj rfl (by omega) (lineStart_cons.mp hline)

theorem scan_eq_none {start : Bool} {text a b : Text} (h : scan p start text = none)
    (hsplit : text = a ++ b) (hline : LineStart start a) : p b = false := by
  induction a generalizing start text with
  | nil =>
    obtain rfl : text = b := hsplit
    have hstart : start = true := by simpa [LineStart] using hline
    cases hp : p text with
    | false => rfl
    | true => cases text <;> simp [scan, hstart, hp] at h
  | cons c a ih =>
    subst hsplit
    rw [List.cons_append, scan] at h
    split at h
    · cases h
    · exact ih (Option.map_eq_none_iff.mp h) rfl (lineStart_cons.mp hline)

theorem lineStart_take {text : Text} {pos : Nat} (hpos : pos ≤ text.length) {a : Text} :
    LineStart ((text.take pos).getLast? == some '\n' || pos == 0) a ↔
      LineStart true (text.take pos ++ a) := by
  cases a with
  | nil =>
    have hlen : (text.take pos).length = pos := by simp [hpos]
    have hnil : text.take pos = [] ↔ pos = 0 := by
      rw [← List.length_eq_zero_iff, hlen]
    simp only [LineStart, List.append_nil, List.getLast?_nil, Bool.or_eq_true, beq_iff_eq, hnil]
    simp [or_comm]
  | cons c a => simp [LineStart]

/-- What a search finds: a match, from the position on. -/
theorem search_eq_some {text : Text} {pos i : Nat} (hpos : pos ≤ text.length)
    (h : search p text pos = some i) : pos ≤ i ∧ MatchesAt p text i := by
  obtain ⟨j, hj, rfl⟩ := Option.map_eq_some_iff.mp h
  obtain ⟨a, b, hsplit, rfl, hline, hp⟩ := scan_eq_some hj
  have hlen : (text.take pos).length = pos := by simp [hpos]
  refine ⟨Nat.le_add_left _ _, text.take pos ++ a, b, ?_, ?_, (lineStart_take hpos).mp hline, hp⟩
  · rw [List.append_assoc, ← hsplit, List.take_append_drop]
  · rw [List.length_append, hlen, Nat.add_comm]

theorem split_at {text a b : Text} {pos : Nat} (hsplit : text = a ++ b) (hle : pos ≤ a.length) :
    text.drop pos = a.drop pos ++ b ∧ a = text.take pos ++ a.drop pos := by
  subst hsplit
  rw [List.drop_append_of_le_length hle, List.take_append_of_le_length hle, List.take_append_drop]
  exact ⟨rfl, rfl⟩

/-- It is the first match from there. -/
theorem search_first {text : Text} {pos i j : Nat} (h : search p text pos = some i)
    (hpos : pos ≤ j) (hj : j < i) : ¬ MatchesAt p text j := by
  rintro ⟨a, b, hsplit, rfl, hline, hp⟩
  obtain ⟨k, hk, rfl⟩ := Option.map_eq_some_iff.mp h
  obtain ⟨hdrop, htake⟩ := split_at hsplit hpos
  have hle : pos ≤ text.length := by
    rw [hsplit, List.length_append]
    omega
  have hfalse := scan_first hk hdrop (by rw [List.length_drop]; omega)
    ((lineStart_take hle).mpr (htake ▸ hline))
  rw [hp] at hfalse
  cases hfalse

theorem search_eq_none {text : Text} {pos j : Nat} (h : search p text pos = none)
    (hpos : pos ≤ j) : ¬ MatchesAt p text j := by
  rintro ⟨a, b, hsplit, rfl, hline, hp⟩
  obtain ⟨hdrop, htake⟩ := split_at hsplit hpos
  have hle : pos ≤ text.length := by
    rw [hsplit, List.length_append]
    omega
  have hfalse := scan_eq_none (Option.map_eq_none_iff.mp h) hdrop
    ((lineStart_take hle).mpr (htake ▸ hline))
  rw [hp] at hfalse
  cases hfalse

theorem search_of_length_lt (hnil : p [] = false) {text : Text} {pos : Nat}
    (h : text.length < pos) : search p text pos = none := by
  rw [search, List.drop_eq_nil_of_le (Nat.le_of_lt h), scan, hnil, Bool.and_false]
  rfl

theorem MatchesAt.le {text : Text} {i : Nat} (h : MatchesAt p text i) : i ≤ text.length := by
  obtain ⟨a, b, rfl, rfl, -, -⟩ := h
  simp

/-- Search on behind each match, and keep the last one. -/
def lastFrom (p : Text → Bool) (text : Text) : Nat → Nat → Nat
  | 0, start => start
  | fuel + 1, start =>
      match search p text (start + 1) with
      | some i => lastFrom p text fuel i
      | none => start

/-- With one step for each character, this ends at the last match behind `start`, or at `start`. -/
theorem lastFrom_spec (hnil : p [] = false) {text : Text} {fuel start : Nat}
    (hfuel : text.length ≤ start + fuel) :
    (lastFrom p text fuel start = start ∨
        start < lastFrom p text fuel start ∧ MatchesAt p text (lastFrom p text fuel start)) ∧
      ∀ j, lastFrom p text fuel start < j → ¬ MatchesAt p text j := by
  induction fuel generalizing start with
  | zero =>
    refine ⟨Or.inl rfl, fun j hj hmatch => ?_⟩
    have hle := hmatch.le
    simp only [lastFrom] at hj
    omega
  | succ fuel ih =>
    rw [lastFrom]
    cases hsearch : search p text (start + 1) with
    | none => exact ⟨Or.inl rfl, fun j hj => search_eq_none hsearch hj⟩
    | some i =>
      have hpos : start + 1 ≤ text.length := by
        by_contra hlt
        rw [search_of_length_lt hnil (Nat.lt_of_not_le hlt)] at hsearch
        cases hsearch
      obtain ⟨hle, hmatch⟩ := search_eq_some hpos hsearch
      obtain ⟨hlast, hnone⟩ := @ih i (by omega)
      refine ⟨Or.inr ?_, hnone⟩
      rcases hlast with heq | ⟨hlt, hmatch'⟩
      · simp only [heq]
        exact ⟨hle, hmatch⟩
      · exact ⟨Nat.lt_trans hle hlt, hmatch'⟩

/-! ## Section 2: Lines -/

/-- The lines of a text, without their newlines; behind a last newline there is an empty one. -/
def lines (text : Text) : List Text := text.splitOn '\n'

/-- The text with these lines. -/
def unlines (ls : List Text) : Text := ['\n'].intercalate ls

theorem unlines_lines (text : Text) : unlines (lines text) = text :=
  List.intercalate_splitOn '\n'

theorem lines_unlines {ls : List Text} (hline : ∀ l ∈ ls, '\n' ∉ l) (hne : ls ≠ []) :
    lines (unlines ls) = ls :=
  List.splitOn_intercalate '\n' hline hne

theorem lines_append_cons (a b : Text) : lines (a ++ '\n' :: b) = lines a ++ lines b :=
  List.splitOn_append_cons_self a b

theorem lines_of_notMem {l : Text} (h : '\n' ∉ l) : lines l = [l] :=
  List.splitOn_eq_singleton h

/-- The first line of a text, and what is behind it. -/
theorem exists_first_line (text : Text) :
    ∃ l, '\n' ∉ l ∧ (text = l ∨ ∃ rest, text = l ++ '\n' :: rest) := by
  induction text with
  | nil => exact ⟨[], by simp, Or.inl rfl⟩
  | cons c text ih =>
    by_cases hc : c = '\n'
    · exact ⟨[], by simp, Or.inr ⟨text, by rw [hc, List.nil_append]⟩⟩
    · obtain ⟨l, hl, hsplit⟩ := ih
      refine ⟨c :: l, by simp [hl, Ne.symm hc], ?_⟩
      rcases hsplit with rfl | ⟨rest, rfl⟩
      · exact Or.inl rfl
      · exact Or.inr ⟨rest, rfl⟩

theorem lines_ne_nil (text : Text) : lines text ≠ [] := by
  obtain ⟨l, hl, hsplit⟩ := exists_first_line text
  rcases hsplit with rfl | ⟨rest, rfl⟩
  · simp [lines_of_notMem hl]
  · simp [lines_append_cons, lines_of_notMem hl]

/-- No line has a newline in it. -/
theorem notMem_of_mem_lines {text l : Text} (hl : l ∈ lines text) : '\n' ∉ l := by
  obtain ⟨n, hn⟩ : ∃ n, text.length ≤ n := ⟨_, Nat.le_refl _⟩
  induction n generalizing text with
  | zero =>
    obtain rfl : text = [] := List.eq_nil_of_length_eq_zero (Nat.le_zero.mp hn)
    have hnil : l = [] := by simpa [lines] using hl
    simp [hnil]
  | succ n ih =>
    obtain ⟨first, hfirst, hsplit⟩ := exists_first_line text
    rcases hsplit with rfl | ⟨rest, rfl⟩
    · rw [lines_of_notMem hfirst, List.mem_singleton] at hl
      exact hl ▸ hfirst
    · rw [lines_append_cons, lines_of_notMem hfirst, List.singleton_append, List.mem_cons] at hl
      rcases hl with rfl | hl
      · exact hfirst
      · refine ih hl ?_
        simp only [List.length_append, List.length_cons] at hn
        omega

theorem unlines_append {ls ls' : List Text} (h : ls ≠ []) (h' : ls' ≠ []) :
    unlines (ls ++ ls') = unlines ls ++ '\n' :: unlines ls' := by
  induction ls with
  | nil => exact absurd rfl h
  | cons l ls ih =>
    cases ls with
    | nil => simp [unlines, List.intercalate_cons_of_ne_nil h']
    | cons l' ls =>
      have hrest := ih (by simp)
      have hcons : ∀ xs, unlines (l :: l' :: xs) = l ++ '\n' :: unlines (l' :: xs) := by
        intro xs
        simp [unlines]
      rw [List.cons_append, List.cons_append, hcons, ← List.cons_append, hrest, hcons]
      simp

/-! ## Section 3: Patterns that look at one line -/

/-- The pattern does not look behind the end of the line. -/
def LineLocal (p : Text → Bool) : Prop :=
  ∀ l rest, '\n' ∉ l → p (l ++ '\n' :: rest) = p l

/-- The lines from the last one with the pattern on. -/
def lastLines (p : Text → Bool) : List Text → Option (List Text)
  | [] => none
  | l :: ls =>
      match lastLines p ls with
      | some found => some found
      | none => if p l then some (l :: ls) else none

theorem lastLines_eq_none {ls : List Text} :
    lastLines p ls = none ↔ ∀ l ∈ ls, p l = false := by
  induction ls with
  | nil => simp [lastLines]
  | cons l ls ih =>
    rw [lastLines]
    cases hrest : lastLines p ls with
    | none =>
      have hall := ih.mp hrest
      cases hp : p l with
      | true => simp [hp]
      | false => simpa [hp] using hall
    | some found =>
      -- a line further on has the pattern
      have hnot : ¬ ∀ l' ∈ ls, p l' = false := by
        rw [← ih, hrest]
        simp
      simp only [reduceCtorEq, List.mem_cons, forall_eq_or_imp, false_iff, not_and]
      exact fun _ => hnot

theorem lastLines_append (before : List Text) {l : Text} {after : List Text} (hl : p l = true)
    (hafter : ∀ l' ∈ after, p l' = false) :
    lastLines p (before ++ l :: after) = some (l :: after) := by
  induction before with
  | nil => simp [lastLines, lastLines_eq_none.mpr hafter, hl]
  | cons b before ih => simp [lastLines, ih]

/-- What `lastLines` finds. -/
theorem lastLines_eq_some {ls found : List Text} (h : lastLines p ls = some found) :
    ∃ before l after, ls = before ++ l :: after ∧ found = l :: after ∧ p l = true ∧
      ∀ l' ∈ after, p l' = false := by
  induction ls with
  | nil => cases h
  | cons l ls ih =>
    rw [lastLines] at h
    cases hrest : lastLines p ls with
    | some found' =>
      rw [hrest] at h
      obtain rfl := Option.some.inj h
      obtain ⟨before, m, after, rfl, rfl, hm, hafter⟩ := ih hrest
      exact ⟨l :: before, m, after, rfl, rfl, hm, hafter⟩
    | none =>
      simp only [hrest] at h
      split at h
      · rename_i hl
        exact ⟨[], l, ls, rfl, (Option.some.inj h).symm, hl, lastLines_eq_none.mp hrest⟩
      · cases h

/-- The first line of a text decides. -/
theorem LineLocal.first_line (h : LineLocal p) {l : Text} (hl : '\n' ∉ l) (ls : List Text) :
    p (unlines (l :: ls)) = p l := by
  cases ls with
  | nil => simp [unlines]
  | cons l' ls =>
    have hcons := unlines_append (List.cons_ne_nil l []) (List.cons_ne_nil l' ls)
    rw [List.singleton_append] at hcons
    rw [hcons]
    simpa [unlines] using h l _ hl

/-- A line that has the pattern, and is not the first one, is a match behind the start. -/
theorem LineLocal.matchesAt (h : LineLocal p) {text : Text} {before : List Text} {l : Text}
    {after : List Text} (hbefore : before ≠ []) (hlines : lines text = before ++ l :: after)
    (hl : p l = true) : ∃ i, MatchesAt p text i ∧ (unlines before).length < i ∧
      text.drop i = unlines (l :: after) := by
  have hmem : '\n' ∉ l := notMem_of_mem_lines (show l ∈ lines text by simp [hlines])
  have htext : text = unlines before ++ ['\n'] ++ unlines (l :: after) := by
    rw [← unlines_lines text, hlines, unlines_append hbefore (List.cons_ne_nil l after)]
    simp
  refine ⟨(unlines before ++ ['\n']).length, ⟨_, _, htext, rfl, Or.inr (by simp), ?_⟩, by simp, ?_⟩
  · rw [h.first_line hmem, hl]
  · rw [htext, List.drop_left]

/-- A match behind the start of the text is at a later line that has the pattern. -/
theorem LineLocal.line_of_matchesAt (h : LineLocal p) {text : Text} {i : Nat}
    (hmatch : MatchesAt p text i) (hpos : 0 < i) :
    ∃ before l after, before ≠ [] ∧ lines text = before ++ l :: after ∧ p l = true ∧
      text.drop i = unlines (l :: after) := by
  obtain ⟨a, b, rfl, rfl, hline, hp⟩ := hmatch
  rcases hline with ⟨rfl, -⟩ | hlast
  · cases hpos
  · obtain ⟨a, rfl⟩ := List.getLast?_eq_some_iff.mp hlast
    obtain ⟨l, after, hb⟩ := List.exists_cons_of_ne_nil (lines_ne_nil b)
    have hmem : '\n' ∉ l := notMem_of_mem_lines (show l ∈ lines b by simp [hb])
    have hunlines : b = unlines (l :: after) := by rw [← hb, unlines_lines]
    refine ⟨lines a, l, after, lines_ne_nil a, ?_, ?_, ?_⟩
    · rw [List.append_assoc, List.singleton_append, lines_append_cons, hb]
    · rw [← h.first_line hmem after, ← hunlines, hp]
    · rw [List.drop_left, hunlines]

/-- The last match behind the start of the text is at the last of its later lines that has the
pattern. -/
theorem lastFrom_lines (hnil : p [] = false) (hlocal : LineLocal p) (text : Text) :
    match lastLines p (lines text).tail with
    | none => lastFrom p text text.length 0 = 0
    | some found => 0 < lastFrom p text text.length 0 ∧
        text.drop (lastFrom p text text.length 0) = unlines found := by
  obtain ⟨hlast, hnone⟩ := lastFrom_spec hnil (show text.length ≤ 0 + text.length by omega)
  obtain ⟨first, rest, hlines⟩ := List.exists_cons_of_ne_nil (lines_ne_nil text)
  rw [hlines, List.tail_cons]
  cases hfound : lastLines p rest with
  | none =>
    rcases hlast with hzero | ⟨hpos, hmatch⟩
    · exact hzero
    · -- a match behind the start would be a later line with the pattern
      obtain ⟨before, l, after, hbefore, hsplit, hl, -⟩ := hlocal.line_of_matchesAt hmatch hpos
      obtain ⟨b, before, rfl⟩ := List.exists_cons_of_ne_nil hbefore
      rw [hlines, List.cons_append, List.cons.injEq] at hsplit
      have hfalse := lastLines_eq_none.mp hfound l (by simp [hsplit.2])
      rw [hl] at hfalse
      cases hfalse
  | some found =>
    obtain ⟨before, l, after, rfl, rfl, hl, hafter⟩ := lastLines_eq_some hfound
    have hmatch := hlocal.matchesAt (List.cons_ne_nil first before) hlines hl
    obtain ⟨i, hi, hlt, hdrop⟩ := hmatch
    -- the search ends at this match, since behind it there is no other
    have hle : i ≤ lastFrom p text text.length 0 := by
      by_contra hnot
      exact hnone i (Nat.lt_of_not_le hnot) hi
    have hpos : 0 < lastFrom p text text.length 0 := by omega
    refine ⟨hpos, ?_⟩
    rcases hlast with hzero | ⟨-, hmatch'⟩
    · omega
    · obtain ⟨before', l', after', -, hlines', hl', hdrop'⟩ :=
        hlocal.line_of_matchesAt hmatch' hpos
      rw [hdrop']
      have heq := hlines'.symm.trans hlines
      rw [← List.cons_append] at heq
      rcases List.append_eq_append_iff.mp heq with ⟨gap, -, hgap⟩ | ⟨gap, -, hgap⟩
      · cases gap with
        | nil => rw [hgap, List.nil_append]
        | cons g gap =>
          -- a line before it would be a match before `i`
          have hlong := congrArg List.length hdrop'
          have hshort := congrArg List.length hdrop
          rw [hgap, unlines_append (List.cons_ne_nil g gap) (List.cons_ne_nil l after)] at hlong
          simp only [List.length_append, List.length_cons, List.length_drop] at hlong hshort
          omega
      · cases gap with
        | nil => rw [← List.nil_append (l' :: after'), ← hgap]
        | cons g gap =>
          have hmem : l' ∈ after := by
            rw [List.cons_append, List.cons.injEq] at hgap
            simp [hgap.2]
          rw [hafter l' hmem] at hl'
          cases hl'

/-! ## Section 4: Patterns made of literals and runs -/

/-- A literal text, and then the rest of the pattern. -/
def literal (lit : Text) (next : Text → Bool) (text : Text) : Bool :=
  decide (lit <+: text) && next (text.drop lit.length)

/-- One or more characters of a class, and then the rest of the pattern.  The run takes as many as
there are, so the rest must not want another one. -/
def run (cls : Char → Bool) (next : Text → Bool) : Text → Bool
  | [] => false
  | c :: rest => cls c && next (rest.dropWhile cls)

theorem lineLocal_true : LineLocal (fun _ => true) := fun _ _ _ => rfl

theorem LineLocal.literal {lit : Text} {next : Text → Bool} (hlit : '\n' ∉ lit)
    (h : LineLocal next) : LineLocal (literal lit next) := by
  intro l rest hl
  by_cases hpre : lit <+: l
  · obtain ⟨t, rfl⟩ := hpre
    have ht : '\n' ∉ t := fun hmem => hl (List.mem_append_right _ hmem)
    simp [Unix.literal, h t rest ht]
  · have hlong : ¬ lit <+: l ++ '\n' :: rest := by
      intro hlong
      rcases Nat.lt_or_ge l.length lit.length with hlt | hge
      · -- the literal would go over the newline
        obtain ⟨t, ht⟩ := List.prefix_of_prefix_length_le (List.prefix_append l ('\n' :: rest))
          hlong (Nat.le_of_lt hlt)
        subst ht
        have hcons := (List.prefix_append_right_inj l).mp hlong
        cases t with
        | nil => simp at hlt
        | cons c t =>
          obtain ⟨rfl, -⟩ := List.cons_prefix_cons.mp hcons
          simp at hlit
      · exact hpre (List.prefix_of_prefix_length_le hlong (List.prefix_append l _) hge)
    simp [Unix.literal, hpre, hlong]

theorem LineLocal.run {cls : Char → Bool} {next : Text → Bool} (hcls : cls '\n' = false)
    (h : LineLocal next) : LineLocal (run cls next) := by
  intro l rest hl
  cases l with
  | nil => simp [Unix.run, hcls]
  | cons c l =>
    have hdrop : (l ++ '\n' :: rest).dropWhile cls = l.dropWhile cls ++ '\n' :: rest := by
      clear hl
      induction l with
      | nil => simp [hcls]
      | cons d l ih =>
        cases hd : cls d with
        | true => simp only [List.cons_append, List.dropWhile_cons, hd, if_true, ih]
        | false => simp [hd]
    have hmem : '\n' ∉ l.dropWhile cls := by
      intro hmem
      exact hl (List.mem_cons_of_mem c ((List.dropWhile_sublist cls).mem hmem))
    rw [List.cons_append, Unix.run, Unix.run, hdrop, h _ rest hmem]

end Udroid.Unix
