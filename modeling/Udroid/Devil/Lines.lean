import Mathlib.Data.List.ReduceOption
import Udroid.Devil.RunShell

/-!
# Lines of an output that comes in pieces

`IterCmdOutputLines` yields the lines of an output while it is read, whatever pieces it is read in.

- `iterCmdOutputLines`: the loop, with its buffer.
- `lines_iterCmdOutputLines`: the lines are those of the output, but for a line ending that is cut
  between its two characters, which ends a line twice.
-/

namespace Udroid.Devil

open Udroid.Unix

/-! ## Section 1: The loop -/

/-- What one turn of the loop gets. -/
inductive Reading where
  /-- Nothing came in time. -/
  | silence
  /-- Data, but only when the time was over. -/
  | late (data : Text)
  | data (data : Text)
deriving DecidableEq

def isLineEnd (c : Char) : Bool := c == '\n' || c == '\r'

/-- The text does not end with a line ending. -/
def hasIncompleteLine (text : Text) : Bool := text.getLast?.any fun c => !isLineEnd c

/-- `_IterCmdOutputLines`, with what is in its buffer; it yields nothing (`None`) when a turn was
too long. -/
def iterCmdOutputLines (buffer : Text) : List Reading → List (Option Text)
  | [] => if buffer = [] then [] else [some buffer]
  | .silence :: rest => none :: iterCmdOutputLines buffer rest
  -- late data is not put into the buffer
  | .late _ :: rest => none :: iterCmdOutputLines buffer rest
  | .data data :: rest =>
      let lines := splitLines (buffer ++ data)
      if hasIncompleteLine (buffer ++ data) then
        lines.dropLast.map some ++ iterCmdOutputLines (lines.getLast?.getD []) rest
      else lines.map some ++ iterCmdOutputLines [] rest

/-! ## Section 2: What it reads -/

/-- The data that came in time. -/
def inTime : List Reading → List Text
  | [] => []
  | .data data :: rest => data :: inTime rest
  | _ :: rest => inTime rest

/-- A line ending is cut between these pieces. -/
def Cut (a b : Text) : Prop := a.getLast? = some '\r' ∧ b.head? = some '\n'

instance (a b : Text) : Decidable (Cut a b) := inferInstanceAs (Decidable (_ ∧ _))

/-- The pieces put together; where a line ending is cut, its first character stands twice. -/
def joined : List Text → Text
  | [] => []
  | [a] => a
  | a :: b :: rest => a ++ (if Cut a b then ['\r'] else []) ++ joined (b :: rest)

theorem joined_eq_flatten {pieces : List Text} (h : pieces.IsChain fun a b => ¬ Cut a b) :
    joined pieces = pieces.flatten := by
  induction pieces with
  | nil => rfl
  | cons a pieces ih =>
    cases pieces with
    | nil => simp [joined]
    | cons b pieces =>
      obtain ⟨hcut, hrest⟩ := List.isChain_cons_cons.mp h
      rw [joined, if_neg hcut, ih hrest]
      simp

/-! ## Section 3: Lines of a longer text -/

theorem splitLinesFrom_cons (line : Text) {c : Char} {rest : Text}
    (h : ¬ (c = '\r' ∧ rest.head? = some '\n')) :
    splitLinesFrom line (c :: rest) =
      if isLineEnd c then line :: splitLinesFrom [] rest else splitLinesFrom (line ++ [c]) rest := by
  have hnot : ∀ tail, ¬ (c = '\r' ∧ rest = '\n' :: tail) := by
    rintro tail ⟨hc, hrest⟩
    exact h ⟨hc, by rw [hrest]; rfl⟩
  rw [splitLinesFrom]
  · simp [isLineEnd]
  · exact fun tail hc hrest => hnot tail ⟨hc, hrest⟩

theorem hasIncompleteLine_cons (c : Char) {rest : Text} (hne : rest ≠ []) :
    hasIncompleteLine (c :: rest) = hasIncompleteLine rest := by
  obtain ⟨d, rest, rfl⟩ := List.exists_cons_of_ne_nil hne
  rw [hasIncompleteLine, List.getLast?_cons_cons, hasIncompleteLine]

theorem cut_cons (c : Char) {rest : Text} (hne : rest ≠ []) (b : Text) :
    Cut (c :: rest) b ↔ Cut rest b := by
  obtain ⟨d, rest, rfl⟩ := List.exists_cons_of_ne_nil hne
  rw [Cut, List.getLast?_cons_cons, Cut]

/-- The first character of a text is cut off no line ending, if it is not at its end. -/
theorem not_crlf_append {c : Char} {rest b : Text} (h : ∀ tail, c = '\r' → rest = '\n' :: tail → False)
    (hcut : rest = [] → ¬ Cut [c] b) : ¬ (c = '\r' ∧ (rest ++ b).head? = some '\n') := by
  rintro ⟨rfl, hhead⟩
  cases rest with
  | nil => exact hcut rfl ⟨rfl, by simpa using hhead⟩
  | cons d rest =>
    have hd : d = '\n' := by simpa using hhead
    exact h rest rfl (by rw [hd])

/-- Behind a line ending, what follows has lines of its own. -/
theorem splitLinesFrom_append {a : Text} (hne : a ≠ []) (hend : hasIncompleteLine a = false)
    {b : Text} (hcut : ¬ Cut a b) (line : Text) :
    splitLinesFrom line (a ++ b) = splitLinesFrom line a ++ splitLines b := by
  fun_induction splitLinesFrom line a with
  | case1 => exact absurd rfl hne
  | case2 => exact absurd rfl hne
  | case3 line rest ih =>
    by_cases hrest : rest = []
    · subst hrest
      rfl
    · rw [hasIncompleteLine_cons _ (List.cons_ne_nil _ _), hasIncompleteLine_cons _ hrest] at hend
      rw [cut_cons _ (List.cons_ne_nil _ _), cut_cons _ hrest] at hcut
      rw [List.cons_append, List.cons_append, splitLinesFrom, ih hrest hend hcut, List.cons_append]
  | case4 line c rest h hc ih =>
    have hbreak : isLineEnd c = true := by simpa [isLineEnd] using hc
    rw [List.cons_append, splitLinesFrom_cons line (not_crlf_append h fun hnil => hnil ▸ hcut),
      if_pos hbreak, List.cons_append]
    by_cases hrest : rest = []
    · subst hrest
      rfl
    · rw [hasIncompleteLine_cons _ hrest] at hend
      rw [cut_cons _ hrest] at hcut
      rw [ih hrest hend hcut]
  | case5 line c rest h hc ih =>
    have hbreak : isLineEnd c = false := by simpa [isLineEnd] using hc
    have hrest : rest ≠ [] := by
      rintro rfl
      simp [hasIncompleteLine, hbreak] at hend
    rw [hasIncompleteLine_cons _ hrest] at hend
    rw [List.cons_append,
      splitLinesFrom_cons line (not_crlf_append h fun hnil => absurd hnil hrest), hbreak]
    rw [cut_cons _ hrest] at hcut
    exact ih hrest hend hcut

/-- A text without a line ending at its end leaves a line open, which goes on in what follows. -/
theorem splitLinesFrom_open {a : Text} (hne : a ≠ []) (hend : hasIncompleteLine a = true)
    {line : Text} (hline : ∀ c ∈ line, isLineEnd c = false) :
    ∃ ls l, splitLinesFrom line a = ls ++ [l] ∧ (∀ c ∈ l, isLineEnd c = false) ∧
      ∀ b, splitLinesFrom line (a ++ b) = ls ++ splitLinesFrom l b := by
  fun_induction splitLinesFrom line a with
  | case1 => exact absurd rfl hne
  | case2 => exact absurd rfl hne
  | case3 line rest ih =>
    have hrest : rest ≠ [] := by
      rintro rfl
      cases hend
    rw [hasIncompleteLine_cons _ (List.cons_ne_nil _ _), hasIncompleteLine_cons _ hrest] at hend
    obtain ⟨ls, l, heq, hl, happend⟩ := ih hrest hend (by simp)
    refine ⟨line :: ls, l, by rw [heq, List.cons_append], hl, fun b => ?_⟩
    rw [List.cons_append, List.cons_append, splitLinesFrom, happend, List.cons_append]
  | case4 line c rest h hc ih =>
    have hbreak : isLineEnd c = true := by simpa [isLineEnd] using hc
    have hrest : rest ≠ [] := by
      rintro rfl
      simp [hasIncompleteLine, hbreak] at hend
    rw [hasIncompleteLine_cons _ hrest] at hend
    obtain ⟨ls, l, heq, hl, happend⟩ := ih hrest hend (by simp)
    refine ⟨line :: ls, l, by rw [heq, List.cons_append], hl, fun b => ?_⟩
    rw [List.cons_append,
      splitLinesFrom_cons line (not_crlf_append h fun hnil => absurd hnil hrest), if_pos hbreak,
      happend, List.cons_append]
  | case5 line c rest h hc ih =>
    have hbreak : isLineEnd c = false := by simpa [isLineEnd] using hc
    have hopen : ∀ d ∈ line ++ [c], isLineEnd d = false := by
      intro d hd
      rcases List.mem_append.mp hd with hd | hd
      · exact hline d hd
      · rw [List.mem_singleton.mp hd, hbreak]
    by_cases hrest : rest = []
    · subst hrest
      refine ⟨[], line ++ [c], by simp [splitLinesFrom], hopen, fun b => ?_⟩
      have hnot : ¬ (c = '\r' ∧ b.head? = some '\n') := by
        rintro ⟨rfl, -⟩
        cases hbreak
      rw [List.singleton_append, splitLinesFrom_cons line hnot, hbreak]
      rfl
    · rw [hasIncompleteLine_cons _ hrest] at hend
      obtain ⟨ls, l, heq, hl, happend⟩ := ih hrest hend hopen
      refine ⟨ls, l, heq, hl, fun b => ?_⟩
      rw [List.cons_append,
        splitLinesFrom_cons line (not_crlf_append h fun hnil => absurd hnil hrest), hbreak]
      exact happend b

/-- A line so far is the start of the line. -/
theorem splitLinesFrom_eq {l : Text} (h : ∀ c ∈ l, isLineEnd c = false) (b : Text) :
    splitLinesFrom l b = splitLines (l ++ b) := by
  have hread : ∀ (l line : Text), (∀ c ∈ l, isLineEnd c = false) →
      splitLinesFrom line (l ++ b) = splitLinesFrom (line ++ l) b := by
    intro l
    induction l with
    | nil => simp
    | cons c l ih =>
      intro line hl
      have hc := hl c List.mem_cons_self
      have hnot : ¬ (c = '\r' ∧ (l ++ b).head? = some '\n') := by
        rintro ⟨rfl, -⟩
        cases hc
      have hstep := ih (line ++ [c]) fun d hd => hl d (List.mem_cons_of_mem c hd)
      rw [List.append_assoc, List.singleton_append] at hstep
      rw [List.cons_append, splitLinesFrom_cons line hnot, hc, ← hstep]
      rfl
  rw [splitLines, hread l [] h, List.nil_append]

/-! ## Section 4: The lines -/

theorem joined_head {a : Text} (hne : a ≠ []) (rest : List Text) :
    (joined (a :: rest)).head? = a.head? := by
  obtain ⟨c, a, rfl⟩ := List.exists_cons_of_ne_nil hne
  cases rest <;> simp [joined]

theorem joined_cons (a : Text) {rest : List Text} (h : ∀ d ∈ rest, d ≠ []) :
    joined (a :: rest) = a ++ (if Cut a (joined rest) then ['\r'] else []) ++ joined rest := by
  cases rest with
  | nil =>
    have hnot : ¬ Cut a (joined []) := by simp [Cut, joined]
    rw [if_neg hnot]
    simp [joined]
  | cons b rest =>
    have hcut : Cut a b ↔ Cut a (joined (b :: rest)) := by
      rw [Cut, Cut, joined_head (h b List.mem_cons_self)]
    simp only [joined, hcut]

/-- The piece that ends in a cut line ending has its lines, and so has what follows. -/
theorem splitLines_cut {a : Text} (hend : hasIncompleteLine a = false) {b : Text} (hcut : Cut a b) :
    splitLines (a ++ ['\r'] ++ b) = splitLines a ++ splitLines b := by
  obtain ⟨rest, rfl⟩ : ∃ rest, b = '\n' :: rest := List.head?_eq_some_iff.mp hcut.2
  have hne : a ≠ [] := by
    rintro rfl
    cases hcut.1
  have hnot : ¬ Cut a ('\r' :: '\n' :: rest) := by simp [Cut]
  have htwice : splitLines ('\r' :: '\n' :: rest) = splitLines ('\n' :: rest) := rfl
  rw [List.append_assoc, List.singleton_append, splitLines, splitLinesFrom_append hne hend hnot,
    htwice, ← splitLines]

theorem reduceOption_map_some (lines : List Text) : (lines.map some).reduceOption = lines := by
  rw [List.reduceOption, List.filterMap_map]
  exact List.filterMap_some

/-- The lines are those of what is in the buffer and the data that comes in time, joined. -/
theorem lines_from_buffer {buffer : Text} (hbuffer : ∀ c ∈ buffer, isLineEnd c = false)
    {readings : List Reading} (hne : ∀ d ∈ inTime readings, d ≠ []) :
    (iterCmdOutputLines buffer readings).reduceOption =
      splitLines (buffer ++ joined (inTime readings)) := by
  induction readings generalizing buffer with
  | nil =>
    rw [iterCmdOutputLines, inTime, joined, ← splitLinesFrom_eq hbuffer, splitLinesFrom]
    by_cases hnil : buffer = []
    · rw [if_pos hnil, if_pos hnil, List.reduceOption_nil]
    · rw [if_neg hnil, if_neg hnil, List.reduceOption_cons_of_some, List.reduceOption_nil]
  | cons reading rest ih =>
    cases reading with
    | silence =>
      rw [iterCmdOutputLines, List.reduceOption_cons_of_none]
      exact ih hbuffer hne
    | late d =>
      rw [iterCmdOutputLines, List.reduceOption_cons_of_none]
      exact ih hbuffer hne
    | data d =>
      rw [inTime] at hne
      have hd : d ≠ [] := hne d List.mem_cons_self
      have hrest : ∀ e ∈ inTime rest, e ≠ [] := fun e he => hne e (List.mem_cons_of_mem d he)
      have hlast : (buffer ++ d).getLast? = d.getLast? := by
        rw [List.getLast?_append, List.getLast?_eq_some_getLast hd, Option.some_or]
      have hcutiff : ∀ b, Cut d b ↔ Cut (buffer ++ d) b := by
        intro b
        rw [Cut, Cut, hlast]
      have hwhole : buffer ++ d ≠ [] := List.append_ne_nil_of_right_ne_nil buffer hd
      rw [iterCmdOutputLines, inTime, joined_cons d hrest, ← List.append_assoc, ← List.append_assoc]
      simp only [hcutiff]
      cases hopen : hasIncompleteLine (buffer ++ d) with
      | true =>
        obtain ⟨ls, l, heq, hl, happend⟩ :=
          splitLinesFrom_open hwhole hopen (List.forall_mem_nil fun c => isLineEnd c = false)
        have hnot : ¬ Cut (buffer ++ d) (joined (inTime rest)) := by
          rintro ⟨hr, -⟩
          rw [hasIncompleteLine, hr] at hopen
          cases hopen
        rw [if_neg hnot, List.append_nil, splitLines, splitLines, heq, happend,
          splitLinesFrom_eq hl, ← ih hl hrest]
        simp [List.reduceOption_append, reduceOption_map_some]
      | false =>
        have hstep := ih (List.forall_mem_nil fun c => isLineEnd c = false) hrest
        rw [List.nil_append] at hstep
        simp only [Bool.false_eq_true, if_false]
        rw [List.reduceOption_append, hstep, reduceOption_map_some]
        by_cases hcut : Cut (buffer ++ d) (joined (inTime rest))
        · rw [if_pos hcut, splitLines_cut hopen hcut]
        · rw [if_neg hcut, List.append_nil]
          exact (splitLinesFrom_append hwhole hopen hcut []).symm

/-- The lines are those of the data that comes in time, joined; so they do not depend on how the
output is cut into pieces, if no line ending is cut. -/
theorem lines_iterCmdOutputLines {readings : List Reading} (hne : ∀ d ∈ inTime readings, d ≠ []) :
    (iterCmdOutputLines [] readings).reduceOption = splitLines (joined (inTime readings)) ∧
      ((inTime readings).IsChain (fun a b => ¬ Cut a b) →
        (iterCmdOutputLines [] readings).reduceOption = splitLines (inTime readings).flatten) := by
  have hlines := lines_from_buffer (List.forall_mem_nil fun c => isLineEnd c = false) hne
  rw [List.nil_append] at hlines
  refine ⟨hlines, fun hchain => ?_⟩
  rw [hlines, joined_eq_flatten hchain]

theorem lines_iterCmdOutputLines_cut :
    (iterCmdOutputLines []
        [.data ['a', '\r'], .silence, .data ['\n', 'b'], .late ['x'], .data ['c']]).reduceOption =
      [['a'], [], ['b', 'c']] :=
  (lines_iterCmdOutputLines (by decide)).1

end Udroid.Devil
