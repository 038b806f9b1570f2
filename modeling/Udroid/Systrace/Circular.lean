import Udroid.Unix.LineSearch

/-!
# Traces from circular buffers

The kernel keeps one circular buffer for each CPU, and where older events have been dropped it
writes a marker before the first event of that CPU.  `fix_circular_traces` throws away the part of
the trace where not all CPUs have events yet.

- `fixCircularTraces`: the loop over the matches, on the characters of the trace.
- `fixCircularTraces_lines`: what it does to the lines.
- `fixCircularTraces_spec`: the header stays, the events are those behind the last marker, and
  no marker is left behind an event.
-/

namespace Udroid.Systrace

open Udroid.Unix

/-! ## Section 1: The loop -/

/-- `buffer_start_re`, from the start of a line on: `#+ CPU \d+ buffer started`. -/
def isBufferStart : Text → Bool :=
  run (· == '#') (literal " CPU ".toList
    (run Char.isDigit (literal " buffer started".toList (fun _ => true))))

/-- `[^#]`, from the start of a line on.  The newline of an empty line is such a character. -/
def endsHeader : Text → Bool
  | [] => false
  | c :: _ => c != '#'

/-- `fix_circular_traces`; it raises when the end of the header is not found. -/
def fixCircularTraces (out : Text) : Option Text :=
  -- each turn finds a later match, so there are no more turns than characters
  let startOfFullTrace := lastFrom isBufferStart out out.length 0
  if 0 < startOfFullTrace then
    match search endsHeader out 0 with
    | some endOfHeader => some (out.take endOfHeader ++ out.drop startOfFullTrace)
    | none => none
  else some out

/-! ## Section 2: The same on lines -/

/-- A line of the header, or another comment. -/
def isHeaderLine (l : Text) : Bool := l.head? == some '#'

/-- The header of a trace. -/
def headerLines (ls : List Text) : List Text := ls.takeWhile isHeaderLine

/-- What stands behind it. -/
def bodyLines (ls : List Text) : List Text := ls.dropWhile isHeaderLine

/-- The lines with events. -/
def events (ls : List Text) : List Text := ls.filter (fun l => !isHeaderLine l)

/-- Behind the header there is no line, or an empty one at the end of the text. -/
def HeaderOnly (ls : List Text) : Prop := bodyLines ls = [] ∨ bodyLines ls = [[]]

instance (ls : List Text) : Decidable (HeaderOnly ls) :=
  inferInstanceAs (Decidable (_ ∨ _))

/-- `fix_circular_traces` on lines. -/
def fixLines (ls : List Text) : Option (List Text) :=
  match lastLines isBufferStart ls.tail with
  | none => some ls
  | some found => if HeaderOnly ls then none else some (headerLines ls ++ found)

theorem isBufferStart_nil : isBufferStart [] = false := rfl

theorem isBufferStart_lineLocal : LineLocal isBufferStart := by
  refine LineLocal.run (by decide) (LineLocal.literal (by decide) ?_)
  exact LineLocal.run (by decide) (LineLocal.literal (by decide) lineLocal_true)

theorem isHeaderLine_of_isBufferStart {l : Text} (h : isBufferStart l = true) :
    isHeaderLine l = true := by
  cases l with
  | nil => cases h
  | cons c l =>
    have hc : c = '#' := by
      simp only [isBufferStart, run, Bool.and_eq_true, beq_iff_eq] at h
      exact h.1
    simp [isHeaderLine, hc]

/-! ## Section 3: The end of the header -/

/-- A line where the pattern does not match is passed over. -/
theorem scan_line {p : Text → Bool} {l : Text} (hl : '\n' ∉ l) {rest : Text}
    (hp : p (l ++ '\n' :: rest) = false) :
    scan p true (l ++ '\n' :: rest) = (scan p true rest).map (· + (l.length + 1)) := by
  have hinner : ∀ l : Text, '\n' ∉ l →
      scan p false (l ++ '\n' :: rest) = (scan p true rest).map (· + (l.length + 1)) := by
    intro l hl
    induction l with
    | nil => simp [scan]
    | cons c l ih =>
      have hc : (c == '\n') = false := beq_false_of_ne fun heq => hl (heq ▸ List.mem_cons_self)
      have hrest := ih (fun hmem => hl (List.mem_cons_of_mem c hmem))
      simp [scan, hc, hrest, Function.comp_def, Nat.add_assoc]
  cases l with
  | nil => simp [scan, show p ('\n' :: rest) = false from hp]
  | cons c l =>
    have hc : (c == '\n') = false := beq_false_of_ne fun heq => hl (heq ▸ List.mem_cons_self)
    rw [List.cons_append] at hp
    have hrest := hinner l (fun hmem => hl (List.mem_cons_of_mem c hmem))
    simp [scan, hc, hrest, hp, Function.comp_def, Nat.add_assoc]

/-- Lines, each with its newline. -/
def endedLines (ls : List Text) : Text := ls.flatMap (fun l => l ++ ['\n'])

theorem unlines_endedLines (ls : List Text) {ls' : List Text} (h : ls' ≠ []) :
    unlines (ls ++ ls') = endedLines ls ++ unlines ls' := by
  induction ls with
  | nil => rfl
  | cons l ls ih =>
    have happend := unlines_append (List.cons_ne_nil l []) (show ls ++ ls' ≠ [] by simp [h])
    rw [List.singleton_append] at happend
    rw [List.cons_append, happend, ih]
    simp [endedLines, unlines]

theorem scan_of_notMem {p : Text → Bool} {l : Text} (hl : '\n' ∉ l) : scan p false l = none := by
  induction l with
  | nil => simp [scan]
  | cons c l ih =>
    have hc : (c == '\n') = false := beq_false_of_ne fun heq => hl (heq ▸ List.mem_cons_self)
    simp [scan, hc, ih (fun hmem => hl (List.mem_cons_of_mem c hmem))]

theorem search_zero (p : Text → Bool) (text : Text) : search p text 0 = scan p true text := by
  simp [search]

theorem bodyLines_cons (l : Text) (ls : List Text) :
    bodyLines (l :: ls) = if isHeaderLine l then bodyLines ls else l :: ls := by
  simp [bodyLines, List.dropWhile_cons]

/-- The search for the end of the header. -/
theorem search_endsHeader {ls : List Text} (hline : ∀ l ∈ ls, '\n' ∉ l) (hne : ls ≠ []) :
    search endsHeader (unlines ls) 0 =
      if HeaderOnly ls then none else some (endedLines (headerLines ls)).length := by
  rw [search_zero]
  induction ls with
  | nil => exact absurd rfl hne
  | cons l ls ih =>
    have hl : '\n' ∉ l := hline l List.mem_cons_self
    cases ls with
    | nil =>
      -- the last line
      have hunlines : unlines [l] = l := by simp [unlines]
      rw [hunlines]
      cases l with
      | nil => simp [HeaderOnly, bodyLines_cons, isHeaderLine, scan, endsHeader]
      | cons c l =>
        have hscan := scan_of_notMem (p := endsHeader)
          (fun hmem => hl (List.mem_cons_of_mem c hmem) : '\n' ∉ l)
        by_cases hhash : c = '#'
        · simp [HeaderOnly, isHeaderLine, scan, endsHeader, hhash, hscan, bodyLines]
        · simp [HeaderOnly, bodyLines_cons, isHeaderLine, scan, endsHeader, hhash, headerLines,
            endedLines]
    | cons l' ls =>
      have hrest := ih (fun m hm => hline m (List.mem_cons_of_mem l hm)) (List.cons_ne_nil l' ls)
      have hunlines := unlines_append (List.cons_ne_nil l []) (List.cons_ne_nil l' ls)
      rw [List.singleton_append] at hunlines
      have hone : unlines [l] = l := by simp [unlines]
      rw [hunlines, hone]
      cases hhead : isHeaderLine l with
      | true =>
        have hfalse : endsHeader (l ++ '\n' :: unlines (l' :: ls)) = false := by
          cases l with
          | nil => cases hhead
          | cons c l =>
            have hc : c = '#' := by simpa [isHeaderLine] using hhead
            simp [endsHeader, hc]
        have hbody : HeaderOnly (l :: l' :: ls) ↔ HeaderOnly (l' :: ls) := by
          rw [HeaderOnly, HeaderOnly, bodyLines_cons, hhead, if_pos rfl]
        have hended : endedLines (headerLines (l :: l' :: ls)) =
            l ++ '\n' :: endedLines (headerLines (l' :: ls)) := by
          simp [headerLines, hhead, endedLines]
        rw [scan_line hl hfalse, hrest]
        by_cases honly : HeaderOnly (l' :: ls)
        · rw [if_pos honly, if_pos (hbody.mpr honly), Option.map_none]
        · rw [if_neg honly, if_neg (mt hbody.mp honly), Option.map_some, hended, List.length_append,
            List.length_cons, Nat.add_left_comm]
      | false =>
        have hnot : ¬ HeaderOnly (l :: l' :: ls) := by
          rw [HeaderOnly, bodyLines_cons, hhead]
          simp
        rw [if_neg hnot]
        cases l with
        | nil => simp [scan, endsHeader, headerLines, isHeaderLine, endedLines]
        | cons c l =>
          have hc : c ≠ '#' := by simpa [isHeaderLine] using hhead
          simp [scan, endsHeader, hc, headerLines, isHeaderLine, endedLines]

/-! ## Section 4: What is thrown away -/

/-- On lines, the loop takes the header and what follows from the last marker on. -/
theorem fixCircularTraces_lines (out : Text) :
    fixCircularTraces out = (fixLines (lines out)).map unlines := by
  have hlast := lastFrom_lines isBufferStart_nil isBufferStart_lineLocal out
  rw [fixCircularTraces, fixLines]
  cases hfound : lastLines isBufferStart (lines out).tail with
  | none =>
    rw [hfound] at hlast
    have hzero : lastFrom isBufferStart out out.length 0 = 0 := hlast
    simp [hzero, unlines_lines]
  | some found =>
    rw [hfound] at hlast
    obtain ⟨hpos, hdrop⟩ := hlast
    have hsearch := search_endsHeader (fun l hl => notMem_of_mem_lines hl) (lines_ne_nil out)
    rw [unlines_lines] at hsearch
    simp only [hpos, if_true, hsearch, hdrop]
    by_cases honly : HeaderOnly (lines out)
    · simp only [if_pos honly, Option.map_none]
    · simp only [if_neg honly, Option.map_some, Option.some_inj]
      -- the header is where the trace starts
      have hne : bodyLines (lines out) ≠ [] := fun heq => honly (Or.inl heq)
      have hout : out = endedLines (headerLines (lines out)) ++ unlines (bodyLines (lines out)) := by
        rw [← unlines_endedLines _ hne, headerLines, bodyLines, List.takeWhile_append_dropWhile,
          unlines_lines]
      have htake : out.take (endedLines (headerLines (lines out))).length =
          endedLines (headerLines (lines out)) :=
        (congrArg _ hout).trans List.take_left
      obtain ⟨before, l, after, -, rfl, -, -⟩ := lastLines_eq_some hfound
      rw [htake, unlines_endedLines _ (List.cons_ne_nil l after)]

theorem fixLines_eq_none {ls : List Text} :
    fixLines ls = none ↔ HeaderOnly ls ∧ ∃ l ∈ ls.tail, isBufferStart l = true := by
  rw [fixLines]
  cases hfound : lastLines isBufferStart ls.tail with
  | none =>
    have hall := lastLines_eq_none.mp hfound
    simp only [reduceCtorEq, false_iff, not_and, not_exists]
    intro _ l hl htrue
    rw [hall l hl] at htrue
    cases htrue
  | some found =>
    obtain ⟨before, m, after, hsplit, -, hm, -⟩ := lastLines_eq_some hfound
    have hmem : ∃ l ∈ ls.tail, isBufferStart l = true := ⟨m, by simp [hsplit], hm⟩
    by_cases honly : HeaderOnly ls
    · simp only [if_pos honly, true_iff]
      exact ⟨honly, hmem⟩
    · simp [honly]

/-- What is left of a trace. -/
structure Trimmed (ls ls' : List Text) : Prop where
  /-- The header is kept. -/
  header : headerLines ls <+: ls'
  /-- All events are kept, or those behind a marker. -/
  kept : ls' = ls ∨ ∃ before m after, ls = before ++ m :: after ∧ isBufferStart m = true ∧
    events ls' = events (m :: after)
  /-- No marker is left behind an event. -/
  full : ∀ l ∈ bodyLines ls', isBufferStart l = false

theorem bodyLines_append_header {hdr : List Text} (h : ∀ l ∈ hdr, isHeaderLine l = true)
    (ls : List Text) : bodyLines (hdr ++ ls) = bodyLines ls := by
  rw [bodyLines, bodyLines, List.dropWhile_append_of_pos h]

theorem isHeaderLine_of_mem_headerLines {ls : List Text} {l : Text} (h : l ∈ headerLines ls) :
    isHeaderLine l = true :=
  List.all_eq_true.mp List.all_takeWhile l h

theorem events_header {hdr : List Text} (h : ∀ l ∈ hdr, isHeaderLine l = true) :
    events hdr = [] := by
  rw [events, List.filter_eq_nil_iff]
  intro l hl
  simp [h l hl]

theorem fixLines_trimmed {ls ls' : List Text} (h : fixLines ls = some ls') : Trimmed ls ls' := by
  rw [fixLines] at h
  cases hfound : lastLines isBufferStart ls.tail with
  | none =>
    rw [hfound] at h
    obtain rfl := Option.some.inj h
    refine ⟨List.takeWhile_prefix _, Or.inl rfl, fun l hl => ?_⟩
    -- the first line may be a marker, but then it belongs to the header
    cases ls with
    | nil => cases hl
    | cons first rest =>
      rw [bodyLines_cons] at hl
      split at hl
      · exact lastLines_eq_none.mp hfound l ((List.dropWhile_sublist _).mem hl)
      · rename_i hfirst
        rcases List.mem_cons.mp hl with rfl | hl
        · cases hl : isBufferStart l with
          | false => rfl
          | true => exact absurd (isHeaderLine_of_isBufferStart hl) hfirst
        · exact lastLines_eq_none.mp hfound l hl
  | some found =>
    obtain ⟨before, m, after, hsplit, rfl, hm, hafter⟩ := lastLines_eq_some hfound
    simp only [hfound] at h
    split at h
    · cases h
    · obtain rfl := Option.some.inj h
      have hhdr : ∀ l ∈ headerLines ls, isHeaderLine l = true :=
        fun _ hl => isHeaderLine_of_mem_headerLines hl
      refine ⟨List.prefix_append _ _, Or.inr ?_, fun l hl => ?_⟩
      · cases ls with
        | nil => simp at hsplit
        | cons first rest =>
          rw [List.tail_cons] at hsplit
          refine ⟨first :: before, m, after, by rw [hsplit, List.cons_append], hm, ?_⟩
          rw [events, List.filter_append, ← events, ← events, events_header hhdr, List.nil_append]
      · rw [bodyLines_append_header hhdr, bodyLines_cons, isHeaderLine_of_isBufferStart hm,
          if_pos rfl] at hl
        exact hafter l ((List.dropWhile_sublist _).mem hl)

/-- What is left are lines of the trace, at least one. -/
theorem fixLines_lines {out : Text} {ls' : List Text} (h : fixLines (lines out) = some ls') :
    (∀ l ∈ ls', '\n' ∉ l) ∧ ls' ≠ [] := by
  rw [fixLines] at h
  cases hfound : lastLines isBufferStart (lines out).tail with
  | none =>
    rw [hfound] at h
    obtain rfl := Option.some.inj h
    exact ⟨fun l hl => notMem_of_mem_lines hl, lines_ne_nil out⟩
  | some found =>
    obtain ⟨before, m, after, hsplit, rfl, -, -⟩ := lastLines_eq_some hfound
    simp only [hfound] at h
    split at h
    · cases h
    · obtain rfl := Option.some.inj h
      refine ⟨fun l hl => notMem_of_mem_lines (show l ∈ lines out from ?_), by simp⟩
      rcases List.mem_append.mp hl with hl | hl
      · exact (List.takeWhile_sublist _).mem hl
      · exact List.mem_of_mem_tail (hsplit ▸ List.mem_append_right before hl)

/-- Of every trace the header stays, the events are all of them or those behind a marker, and no
marker is left behind an event, so that all CPUs have events in what is left.  Only a trace that
has a marker and ends with its header makes `fix_circular_traces` raise. -/
theorem fixCircularTraces_spec (out : Text) :
    (fixCircularTraces out = none ↔
      HeaderOnly (lines out) ∧ ∃ l ∈ (lines out).tail, isBufferStart l = true) ∧
      ∀ out', fixCircularTraces out = some out' → Trimmed (lines out) (lines out') := by
  rw [fixCircularTraces_lines, Option.map_eq_none_iff]
  refine ⟨fixLines_eq_none, fun out' hout' => ?_⟩
  obtain ⟨ls', hls', rfl⟩ := Option.map_eq_some_iff.mp hout'
  rw [lines_unlines (fixLines_lines hls').1 (fixLines_lines hls').2]
  exact fixLines_trimmed hls'

end Udroid.Systrace
