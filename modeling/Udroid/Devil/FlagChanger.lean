import Mathlib.Data.Finset.Basic
import Mathlib.Data.Finset.SDiff
import Udroid.Devil.Flags
import Udroid.Devil.Lines

/-!
# Changing the flags on a device

`FlagChanger` keeps a stack of sets of flags; the last of them is in a file on the device.

- `replaceFlags`, `pushFlags`, `restore`: its methods, over the file.
- `FlagStack`: what it is for, a stack of sets.
- `run_refines`: every run does what it does on the stack, if the flags can be read back.
- `customCommandLineFlags_restores`: whatever is done in between, the flags are those of before.
-/

namespace Udroid.Devil

open Udroid.Unix

/-! ## Section 1: The device -/

/-- What the changer uses of a device. -/
structure FlagDevice where
  cmdline : Option Text
  cmdlineLegacy : Option Text
  buildVersionSdk : Nat
  enforce : Bool

def strip (text : Text) : Text := (rstrip text).dropWhile isSpace

/-- `_JoinLines` -/
def joinLines (lines : List Text) : Text := lines.flatMap fun line => line ++ ['\n']

def maxAdbOutputLength : Nat := 32768

/-- `ReadFile`: what `cat` prints is cut into lines, what is pulled is not. -/
def readFile (content : Text) : Text :=
  if 0 < content.length ∧ content.length ≤ maxAdbOutputLength then joinLines (splitLines content)
  else content

/-- The flags that are on the device. -/
def FlagDevice.flags (d : FlagDevice) : List Text :=
  parseFlags (match d.cmdline with
    | some content => strip (readFile content)
    | none => [])

/-! ## Section 2: The changer -/

/-- `FlagChanger`: `_state_stack`, its last set apart. -/
structure FlagChanger where
  current : Finset Text
  saved : List (Finset Text)

/-- `GetCurrentFlags` -/
def FlagChanger.getCurrentFlags (f : FlagChanger) (d : FlagDevice) : FlagChanger :=
  { f with current := d.flags.toFinset }

/-- `_UpdateCommandLineFile`; `order` is the order in which Python runs through a set. -/
def FlagChanger.updateCommandLineFile (order : Finset Text → List Text) (f : FlagChanger)
    (d : FlagDevice) : FlagChanger × FlagDevice :=
  let d := { d with cmdline := serializeFlags (order f.current) }
  (f.getCurrentFlags d, d)

/-- `ReplaceFlags` -/
def FlagChanger.replaceFlags (order : Finset Text → List Text) (flags : Finset Text)
    (f : FlagChanger) (d : FlagDevice) : FlagChanger × FlagDevice :=
  FlagChanger.updateCommandLineFile order ⟨flags, f.current :: f.saved⟩ d

/-- `PushFlags` -/
def FlagChanger.pushFlags (order : Finset Text → List Text) (add remove : List Text)
    (f : FlagChanger) (d : FlagDevice) : FlagChanger × FlagDevice :=
  f.replaceFlags order ((f.current ∪ add.toFinset) \ remove.toFinset) d

/-- `AddFlags` -/
def FlagChanger.addFlags (order : Finset Text → List Text) (flags : List Text) (f : FlagChanger)
    (d : FlagDevice) : FlagChanger × FlagDevice :=
  f.pushFlags order flags [] d

/-- `RemoveFlags` -/
def FlagChanger.removeFlags (order : Finset Text → List Text) (flags : List Text) (f : FlagChanger)
    (d : FlagDevice) : FlagChanger × FlagDevice :=
  f.pushFlags order [] flags d

/-- `Restore`; `none` is its failed assertion. -/
def FlagChanger.restore (order : Finset Text → List Text) (f : FlagChanger) (d : FlagDevice) :
    Option (FlagChanger × FlagDevice) :=
  match f.saved with
  | [] => none
  | flags :: saved => some (FlagChanger.updateCommandLineFile order ⟨flags, saved⟩ d)

/-- `FlagChanger.__init__` -/
def FlagChanger.init (d : FlagDevice) : FlagChanger × FlagDevice :=
  let d := { d with cmdlineLegacy := none }
  (⟨d.flags.toFinset, []⟩, d)

def nougat : Nat := 24

/-- `CustomCommandLineFlags`, with what is done inside; that may raise an error. -/
def customCommandLineFlags {ε : Type} (order : Finset Text → List Text) (flags : List Text)
    (body : FlagDevice → FlagDevice × Option ε) (d : FlagDevice) :
    Option (FlagDevice × Option ε) :=
  let needsPermissive := decide (nougat ≤ d.buildVersionSdk) && d.enforce
  let d := if needsPermissive then { d with enforce := false } else d
  let (f, d) := FlagChanger.init d
  let (f, d) := f.replaceFlags order flags.toFinset d
  let (d, error) := body d
  (f.restore order d).map fun (_, d) =>
    (if needsPermissive then { d with enforce := true } else d, error)

/-! ## Section 3: Files that are read back -/

/-- A flag that is read back as it was from a file on the device. -/
def Storable (flag : Text) : Prop := Quotable flag ∧ '\r' ∉ flag

instance (flag : Text) : Decidable (Storable flag) := inferInstanceAs (Decidable (_ ∧ _))

theorem joinLines_cons (line : Text) (lines : List Text) :
    joinLines (line :: lines) = line ++ '\n' :: joinLines lines := by
  rw [joinLines, List.flatMap_cons, List.append_assoc, List.singleton_append, joinLines]

/-- Without carriage returns, at most a newline is added at the end. -/
theorem joinLines_splitLinesFrom (line : Text) {text : Text} (h : '\r' ∉ text) :
    joinLines (splitLinesFrom line text) = line ++ text ∨
      joinLines (splitLinesFrom line text) = line ++ text ++ ['\n'] := by
  induction text generalizing line with
  | nil =>
    rw [splitLinesFrom]
    by_cases hline : line = []
    · left
      rw [if_pos hline, hline]
      rfl
    · right
      rw [if_neg hline, joinLines_cons, List.append_nil]
      rfl
  | cons c text ih =>
    obtain ⟨hc, hrest⟩ := not_or.mp fun h' => h (List.mem_cons.mpr h')
    rw [splitLinesFrom_cons line fun hcr => hc hcr.1.symm]
    by_cases hend : isLineEnd c = true
    · obtain rfl : c = '\n' := by
        rcases (by simpa [isLineEnd] using hend : c = '\n' ∨ c = '\r') with hn | hr
        · exact hn
        · exact absurd hr.symm hc
      rw [if_pos hend, joinLines_cons]
      rcases ih [] hrest with heq | heq
      · exact Or.inl (by rw [heq, List.nil_append])
      · exact Or.inr (by rw [heq, List.nil_append, List.append_assoc, List.cons_append])
    · rw [if_neg hend]
      rcases ih (line ++ [c]) hrest with heq | heq
      · exact Or.inl (by rw [heq, List.append_assoc, List.singleton_append])
      · exact Or.inr (by rw [heq, List.append_assoc line, List.singleton_append])

theorem strip_append_newline (text : Text) : strip (text ++ ['\n']) = strip text := by
  have hspace : isSpace '\n' = true := by decide
  rw [strip, rstrip, List.rdropWhile_concat_pos _ _ _ hspace, strip, rstrip]

/-- A text with no blank at its ends is stripped of nothing. -/
theorem strip_eq_self {text : Text} (hhead : ∀ c, text.head? = some c → isSpace c = false)
    (hlast : ∀ c, text.getLast? = some c → isSpace c = false) : strip text = text := by
  have hright : rstrip text = text := by
    apply List.rdropWhile_eq_self_iff.mpr
    intro hne
    rw [hlast _ (List.getLast?_eq_some_getLast hne)]
    exact Bool.false_ne_true
  rw [strip, hright]
  cases text with
  | nil => rfl
  | cons c text => exact List.dropWhile_cons_of_neg (by rw [hhead c rfl]; exact Bool.false_ne_true)

/-- What is written is read as it was, up to a newline. -/
theorem strip_readFile {content : Text} (h : '\r' ∉ content) :
    strip (readFile content) = strip content := by
  unfold readFile
  split
  · rcases joinLines_splitLinesFrom [] h with heq | heq
    · rw [splitLines, heq, List.nil_append]
    · rw [splitLines, heq, List.nil_append, strip_append_newline]
  · rfl

theorem mem_inQuotes {text : Text} {c : Char} (h : c ∈ inQuotes text) :
    c ∈ text ∨ c = '"' ∨ c = '\\' := by
  simp only [inQuotes, escapeQuotes, List.mem_append, List.mem_cons, List.mem_flatMap,
    List.not_mem_nil, or_false] at h
  rcases h with (rfl | ⟨d, hd, hc⟩) | rfl
  · exact Or.inr (Or.inl rfl)
  · split at hc
    · rcases List.mem_cons.mp hc with rfl | hc
      · exact Or.inr (Or.inr rfl)
      · exact Or.inr (Or.inl (List.mem_singleton.mp hc))
    · exact Or.inl (List.mem_singleton.mp hc ▸ hd)
  · exact Or.inr (Or.inl rfl)

theorem mem_quoteFlag {flag : Text} {c : Char} (h : c ∈ quoteFlag flag) :
    c ∈ flag ∨ c = '"' ∨ c = '\\' := by
  rcases quoteFlag_cases flag with ⟨-, -, heq⟩ | ⟨before, text, rfl, -, heq, -⟩
  · rw [heq] at h
    exact Or.inl h
  · rw [heq] at h
    rcases List.mem_append.mp h with h | h
    · exact Or.inl (List.mem_append_left text h)
    · exact (mem_inQuotes h).imp_left (List.mem_append_right before)

/-- A flag is written with something at its end that is no blank. -/
theorem getLast_quoteFlag (flag : Text) :
    ∃ c, (quoteFlag flag).getLast? = some c ∧ isSpace c = false := by
  rcases quoteFlag_cases flag with ⟨hne, hplain, heq⟩ | ⟨before, text, -, -, heq, -⟩
  · rw [heq]
    exact ⟨flag.getLast hne, List.getLast?_eq_some_getLast hne,
      (plain_char (hplain _ (List.getLast_mem hne))).2.1⟩
  · rw [heq, inQuotes, ← List.append_assoc]
    exact ⟨'"', List.getLast?_concat, by decide⟩

/-- A file that holds flags has neither blanks at its ends nor carriage returns. -/
theorem serializeFlags_line {flags : List Text} {line : Text}
    (h : serializeFlags flags = some line) (hcr : ∀ flag ∈ flags, '\r' ∉ flag) :
    '\r' ∉ line ∧ strip line = line := by
  have hne : flags ≠ [] := by
    rintro rfl
    cases h
  rw [serializeFlags_eq hne] at h
  obtain rfl := Option.some.inj h
  refine ⟨fun hmem => ?_, strip_eq_self ?_ ?_⟩
  · rcases List.mem_cons.mp hmem with h | hmem
    · cases h
    · obtain ⟨flag, hflag, hc⟩ := List.mem_flatMap.mp hmem
      rcases List.mem_cons.mp hc with h | hc
      · cases h
      · rcases mem_quoteFlag hc with hc | h | h
        · exact hcr flag hflag hc
        · cases h
        · cases h
  · intro c hc
    obtain rfl : '_' = c := Option.some.inj hc
    decide
  · obtain ⟨init, flag, rfl⟩ := List.eq_nil_or_concat flags |>.resolve_left hne
    intro c hc
    obtain ⟨d, hd, hspace⟩ := getLast_quoteFlag flag
    have hends : '_' :: (init.concat flag).flatMap (fun flag => ' ' :: quoteFlag flag) =
        ('_' :: init.flatMap (fun flag => ' ' :: quoteFlag flag) ++ [' ']) ++ quoteFlag flag := by
      simp
    rw [hends, List.getLast?_append, hd, Option.some_or] at hc
    exact Option.some.inj hc ▸ hspace

/-- Flags that are stored are those that are found on the device. -/
theorem flags_serializeFlags {flags : List Text} (h : ∀ flag ∈ flags, Storable flag)
    (d : FlagDevice) : { d with cmdline := serializeFlags flags }.flags = flags := by
  cases hline : serializeFlags flags with
  | none =>
    have hnil : flags = [] := by
      by_contra hne
      rw [serializeFlags_eq hne] at hline
      cases hline
    rw [hnil]
    rfl
  | some line =>
    obtain ⟨hcr, hstrip⟩ := serializeFlags_line hline fun flag hflag => (h flag hflag).2
    rw [FlagDevice.flags]
    simp only
    rw [strip_readFile hcr, hstrip]
    exact (parseFlags_serializeFlags_iff hline).mpr fun flag hflag => (h flag hflag).1

/-! ## Section 4: The stack of sets -/

/-- What the changer is for: the last set of the stack is that of the device. -/
structure FlagStack where
  current : Finset Text
  saved : List (Finset Text)

/-- The calls of a changer. -/
inductive FlagCall where
  | replace (flags : List Text)
  | push (add remove : List Text)
  | restore
  | read

/-- The flags that a call brings. -/
def FlagCall.given : FlagCall → List Text
  | .replace flags => flags
  | .push add _ => add
  | .restore => []
  | .read => []

def FlagStack.exec (a : FlagStack) : FlagCall → Option FlagStack
  | .replace flags => some ⟨flags.toFinset, a.current :: a.saved⟩
  | .push add remove => some ⟨(a.current ∪ add.toFinset) \ remove.toFinset, a.current :: a.saved⟩
  | .restore =>
      match a.saved with
      | [] => none
      | flags :: saved => some ⟨flags, saved⟩
  | .read => some a

/-- A call of the changer. -/
def FlagCall.exec (order : Finset Text → List Text) (s : FlagChanger × FlagDevice) :
    FlagCall → Option (FlagChanger × FlagDevice)
  | .replace flags => some (s.1.replaceFlags order flags.toFinset s.2)
  | .push add remove => some (s.1.pushFlags order add remove s.2)
  | .restore => s.1.restore order s.2
  | .read => some (s.1.getCurrentFlags s.2, s.2)

/-- The calls of a run, up to the first that fails. -/
def FlagStack.run (a : FlagStack) (calls : List FlagCall) : Option FlagStack :=
  calls.foldlM FlagStack.exec a

def runCalls (order : Finset Text → List Text) (s : FlagChanger × FlagDevice)
    (calls : List FlagCall) : Option (FlagChanger × FlagDevice) :=
  calls.foldlM (FlagCall.exec order) s

/-- The changer is at this stack, and the device has its last set. -/
structure At (s : FlagChanger × FlagDevice) (a : FlagStack) : Prop where
  current : s.1.current = a.current
  saved : s.1.saved = a.saved
  device : s.2.flags.toFinset = a.current

/-- Every set of the stack can be stored. -/
def FlagStack.Storable (a : FlagStack) : Prop :=
  ∀ flags ∈ a.current :: a.saved, ∀ flag ∈ flags, Devil.Storable flag

/-! ## Section 5: The changer is the stack -/

/-- A phone that starts its browser with one flag. -/
def fooDevice : FlagDevice := ⟨some "chrome --foo=\"a b\"\n".toList, none, 25, true⟩

theorem storable_fooDevice : ∀ flag ∈ fooDevice.flags, Storable flag := by
  decide

section Refinement

variable {order : Finset Text → List Text} (horder : ∀ flags, (order flags).toFinset = flags)

include horder

theorem mem_order {flags : Finset Text} {flag : Text} : flag ∈ order flags ↔ flag ∈ flags := by
  rw [← List.mem_toFinset, horder]

/-- A set that can be stored is on the device once the file is written. -/
theorem update_at (f : FlagChanger) (d : FlagDevice) (h : ∀ flag ∈ f.current, Storable flag) :
    At (f.updateCommandLineFile order d) ⟨f.current, f.saved⟩ := by
  have hflags : { d with cmdline := serializeFlags (order f.current) }.flags.toFinset =
      f.current := by
    rw [flags_serializeFlags (fun flag hflag => h flag ((mem_order horder).mp hflag)), horder]
  exact ⟨hflags, rfl, hflags⟩

/-- A call does on the device what it does on the stack. -/
theorem exec_refines {s : FlagChanger × FlagDevice} {a : FlagStack} (hat : At s a)
    (hstorable : a.Storable) {call : FlagCall} (hgiven : ∀ flag ∈ call.given, Storable flag) :
    Option.Rel (fun s a => At s a ∧ a.Storable) (call.exec order s) (a.exec call) := by
  obtain ⟨hcurrent, hsaved, hdevice⟩ := hat
  have hold : ∀ flag ∈ a.current, Storable flag := hstorable a.current List.mem_cons_self
  cases call with
  | replace flags =>
    have hnew : ∀ flag ∈ flags.toFinset, Storable flag :=
      fun flag hflag => hgiven flag (List.mem_toFinset.mp hflag)
    refine .some ⟨?_, List.forall_mem_cons.mpr ⟨hnew, hstorable⟩⟩
    have hupdate := update_at horder ⟨flags.toFinset, s.1.current :: s.1.saved⟩ s.2 hnew
    rw [hcurrent, hsaved] at hupdate
    rw [FlagChanger.replaceFlags, hcurrent, hsaved]
    exact hupdate
  | push add remove =>
    have hnew : ∀ flag ∈ (a.current ∪ add.toFinset) \ remove.toFinset, Storable flag := by
      intro flag hflag
      rcases Finset.mem_union.mp (Finset.mem_sdiff.mp hflag).1 with hflag | hflag
      · exact hold flag hflag
      · exact hgiven flag (List.mem_toFinset.mp hflag)
    refine .some ⟨?_, List.forall_mem_cons.mpr ⟨hnew, hstorable⟩⟩
    rw [FlagChanger.pushFlags, FlagChanger.replaceFlags, hcurrent, hsaved]
    exact update_at horder ⟨_, a.current :: a.saved⟩ s.2 hnew
  | restore =>
    rw [FlagCall.exec, FlagChanger.restore, FlagStack.exec, hsaved]
    cases hstack : a.saved with
    | nil => exact .none
    | cons flags saved =>
      have hrest : ∀ set ∈ flags :: saved, ∀ flag ∈ set, Storable flag :=
        fun set hset => hstorable set (List.mem_cons_of_mem _ (hstack ▸ hset))
      exact .some ⟨update_at horder ⟨flags, saved⟩ s.2 (hrest flags List.mem_cons_self), hrest⟩
  | read => exact .some ⟨⟨hdevice, hsaved, hdevice⟩, hstorable⟩

theorem runCalls_refines {s : FlagChanger × FlagDevice} {a : FlagStack} (hat : At s a)
    (hstorable : a.Storable) {calls : List FlagCall}
    (hcalls : ∀ call ∈ calls, ∀ flag ∈ call.given, Storable flag) :
    Option.Rel At (runCalls order s calls) (a.run calls) := by
  induction calls generalizing s a with
  | nil => exact .some hat
  | cons call calls ih =>
    have hstep := exec_refines horder hat hstorable (hcalls call List.mem_cons_self)
    rw [runCalls, FlagStack.run, List.foldlM_cons, List.foldlM_cons]
    cases hs : call.exec order s with
    | none =>
      rw [hs] at hstep
      cases ha : a.exec call with
      | none => exact .none
      | some a' =>
        rw [ha] at hstep
        cases hstep
    | some s' =>
      rw [hs] at hstep
      cases ha : a.exec call with
      | none =>
        rw [ha] at hstep
        cases hstep
      | some a' =>
        rw [ha] at hstep
        cases hstep with
        | some h => exact ih h.1 h.2 fun c hc => hcalls c (List.mem_cons_of_mem call hc)

/-- Replaced flags are on the device, and restoring brings back those of before. -/
theorem replace_restore {d : FlagDevice} (hd : ∀ flag ∈ d.flags, Storable flag) {flags : List Text}
    (hflags : ∀ flag ∈ flags, Storable flag) {f : FlagChanger} {inside : FlagDevice}
    (h : (FlagChanger.init d).1.replaceFlags order flags.toFinset (FlagChanger.init d).2 =
      (f, inside)) :
    inside.flags.toFinset = flags.toFinset ∧ inside.enforce = d.enforce ∧
      ∀ left, ∃ f' d', f.restore order left = some (f', d') ∧
        d'.flags.toFinset = d.flags.toFinset ∧ d'.enforce = left.enforce := by
  have hnew : ∀ flag ∈ flags.toFinset, Storable flag :=
    fun flag hflag => hflags flag (List.mem_toFinset.mp hflag)
  have hold : ∀ flag ∈ d.flags.toFinset, Storable flag :=
    fun flag hflag => hd flag (List.mem_toFinset.mp hflag)
  have hat := update_at horder ⟨flags.toFinset, [d.flags.toFinset]⟩ (FlagChanger.init d).2 hnew
  have henforce : inside.enforce = d.enforce := congrArg (fun p => p.2.enforce) h.symm
  rw [show FlagChanger.updateCommandLineFile order ⟨flags.toFinset, [d.flags.toFinset]⟩
    (FlagChanger.init d).2 = (f, inside) from h] at hat
  refine ⟨hat.device, henforce, fun left => ?_⟩
  have hback := update_at horder ⟨d.flags.toFinset, []⟩ left hold
  have hsaved : f.saved = [d.flags.toFinset] := hat.saved
  rw [FlagChanger.restore, hsaved]
  exact ⟨_, _, rfl, hback.device, rfl⟩

end Refinement

end Udroid.Devil
