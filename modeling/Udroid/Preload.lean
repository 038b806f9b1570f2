import Udroid.Unix.Text

/-!
# The preload functions of `.bashrc`

`ld-preload-switch` moves the preload list out of `LD_PRELOAD` and back; `ld-hook-shmem`
and `ld-hook-uname` append a library to `LD_PRELOAD`, whether the list is switched off or
not.

- `held_hook`, `held_switch`: what one call does to the libraries the two variables hold.
- `held_subset_wanted`: a run never holds a library nobody asked for.
- `libraries_kept_iff`: when a run of calls keeps every library.
-/

namespace Udroid.Preload

open Udroid.Unix

/-! ## Section 1: The shell's variables -/

/-- The two variables; `none` is an unset one. -/
structure Env where
  ldPreload : Option Text
  ldPreloadOld : Option Text
  deriving DecidableEq

/-- `$NAME`: an unset variable expands to the empty text. -/
def value (var : Option Text) : Text :=
  var.getD []

/-- The loader reads a preload list as paths between colons or blanks. -/
def isListSep (c : Char) : Bool :=
  c == ':' || c == ' '

/-- The library paths of a variable. -/
def libraries (var : Option Text) : List Text :=
  words isListSep (value var)

/-- The library paths that one of the two variables still has. -/
def Env.held (e : Env) : List Text :=
  libraries e.ldPreload ++ libraries e.ldPreloadOld

/-! ## Section 2: The functions -/

/-- `ld-preload-switch`. -/
def ldPreloadSwitch (e : Env) : Env :=
  if value e.ldPreload ≠ [] then
    let e := { e with ldPreloadOld := some (value e.ldPreload) }
    { e with ldPreload := none }
  else if value e.ldPreloadOld ≠ [] then
    let e := { e with ldPreload := some (value e.ldPreloadOld) }
    { e with ldPreloadOld := none }
  else e

/-- `export LD_PRELOAD=$LD_PRELOAD:lib`, the body of both hook functions. -/
def ldHook (lib : Text) (e : Env) : Env :=
  { e with ldPreload := some (value e.ldPreload ++ ':' :: lib) }

/-- The library of `ld-hook-shmem`. -/
def shmemLibrary : Text := "/usr/local/udroid/hook/libandroid-shmem.so".toList

/-- The library of `ld-hook-uname`. -/
def unameLibrary : Text := "/usr/local/udroid/hook/libsyscall-uname.so".toList

/-- `ld-hook-shmem`. -/
def ldHookShmem : Env → Env := ldHook shmemLibrary

/-- `ld-hook-uname`. -/
def ldHookUname : Env → Env := ldHook unameLibrary

/-- A call of one of the three functions. -/
inductive Call where
  | ldPreloadSwitch
  | ldHookShmem
  | ldHookUname
  deriving DecidableEq

/-- What a call does. -/
def Call.exec : Call → Env → Env
  | .ldPreloadSwitch => Preload.ldPreloadSwitch
  | .ldHookShmem => Preload.ldHookShmem
  | .ldHookUname => Preload.ldHookUname

/-- The libraries a call adds to the list. -/
def Call.adds : Call → List Text
  | .ldPreloadSwitch => []
  | .ldHookShmem => [shmemLibrary]
  | .ldHookUname => [unameLibrary]

/-- The calls one after the other. -/
def run (calls : List Call) (e : Env) : Env :=
  calls.foldl (fun e call => call.exec e) e

/-- The shell at the start: the device's own list, or none, and nothing switched off. -/
def initial (ldPreload : Option Text) : Env :=
  ⟨ldPreload, none⟩

/-- The libraries of the list at the start and those that the calls add. -/
def wanted (ldPreload : Option Text) (calls : List Call) : List Text :=
  libraries ldPreload ++ calls.flatMap Call.adds

/-- A switch overwrites what is switched off with the current list: it loses nothing if
the current list is empty, or has all that is switched off. -/
def SwitchSafe (e : Env) : Prop :=
  value e.ldPreload ≠ [] → ∀ lib ∈ libraries e.ldPreloadOld, lib ∈ libraries e.ldPreload

/-! ## Section 3: One call -/

theorem libraries_of_value_eq_nil {var : Option Text} (h : value var = []) :
    libraries var = [] := by
  rw [libraries, h, words_nil]

@[simp] theorem libraries_none : libraries none = [] := rfl

@[simp] theorem libraries_some_value (var : Option Text) :
    libraries (some (value var)) = libraries var := rfl

/-- A hook adds its library at the end of the list. -/
theorem libraries_hook (var : Option Text) (lib : Text) (hsep : ∀ c ∈ lib, isListSep c = false)
    (hne : lib ≠ []) :
    libraries (some (value var ++ ':' :: lib)) = libraries var ++ [lib] := by
  have hcolon : isListSep ':' = true := rfl
  calc libraries (some (value var ++ ':' :: lib))
      = words isListSep (value var) ++ words isListSep lib := words_append_sep hcolon _ _
    _ = libraries var ++ [lib] := by rw [words_singleton hsep hne, libraries]

/-- A hook loses nothing, wherever the list is. -/
theorem held_hook {call : Call} (hcall : call ≠ .ldPreloadSwitch) (e : Env) (lib : Text) :
    lib ∈ (call.exec e).held ↔ lib ∈ e.held ∨ lib ∈ call.adds := by
  have hshmem := libraries_hook e.ldPreload shmemLibrary (by decide) (by decide)
  have huname := libraries_hook e.ldPreload unameLibrary (by decide) (by decide)
  cases call with
  | ldPreloadSwitch => exact absurd rfl hcall
  | ldHookShmem =>
    simp only [Call.exec, ldHookShmem, ldHook, Env.held, hshmem, Call.adds, List.mem_append]
    tauto
  | ldHookUname =>
    simp only [Call.exec, ldHookUname, ldHook, Env.held, huname, Call.adds, List.mem_append]
    tauto

/-- A switch keeps the current list if it is not empty, else what is switched off. -/
theorem held_switch (e : Env) :
    (ldPreloadSwitch e).held =
      if value e.ldPreload ≠ [] then libraries e.ldPreload else libraries e.ldPreloadOld := by
  unfold ldPreloadSwitch
  split
  · simp [Env.held]
  · rename_i hempty
    have hlist : libraries e.ldPreload = [] := libraries_of_value_eq_nil (by simpa using hempty)
    split
    · simp [Env.held]
    · simp [Env.held, hlist]

/-- A switch holds nothing that was not held before. -/
theorem held_switch_subset {e : Env} {lib : Text} (h : lib ∈ (ldPreloadSwitch e).held) :
    lib ∈ e.held := by
  rw [held_switch] at h
  split at h
  · exact List.mem_append_left _ h
  · exact List.mem_append_right _ h

/-- A switch loses nothing exactly where it is safe. -/
theorem held_switch_kept_iff (e : Env) :
    (∀ lib ∈ e.held, lib ∈ (ldPreloadSwitch e).held) ↔ SwitchSafe e := by
  rw [held_switch]
  constructor
  · intro h hlist lib hlib
    simpa [hlist] using h lib (List.mem_append_right _ hlib)
  -- what is in the current list stays; what is switched off stays by the condition, or because
  -- the switch brings it back
  · intro h lib hlib
    rcases List.mem_append.mp hlib with hlib | hlib
    · have hlist : value e.ldPreload ≠ [] := by
        intro hempty
        simp [libraries_of_value_eq_nil hempty] at hlib
      simpa [hlist] using hlib
    · by_cases hlist : value e.ldPreload ≠ []
      · simpa [hlist] using h hlist lib hlib
      · simpa [hlist] using hlib

/-! ## Section 4: A run of calls -/

theorem run_append (calls later : List Call) (e : Env) :
    run (calls ++ later) e = run later (run calls e) := by
  simp [run, List.foldl_append]

theorem run_concat (calls : List Call) (call : Call) (e : Env) :
    run (calls ++ [call]) e = call.exec (run calls e) := by
  rw [run_append]
  rfl

theorem wanted_concat (ldPreload : Option Text) (calls : List Call) (call : Call) :
    wanted ldPreload (calls ++ [call]) = wanted ldPreload calls ++ call.adds := by
  simp [wanted]

/-- What the variables hold comes from the start or from a hook. -/
theorem held_subset_wanted (ldPreload : Option Text) (calls : List Call) {lib : Text}
    (h : lib ∈ (run calls (initial ldPreload)).held) : lib ∈ wanted ldPreload calls := by
  induction calls using List.reverseRecOn with
  | nil => simpa [run, initial, Env.held, wanted] using h
  | append_singleton calls call ih =>
    rw [run_concat] at h
    rw [wanted_concat]
    -- a switch adds nothing, a hook its library
    by_cases hcall : call = .ldPreloadSwitch
    · subst hcall
      exact List.mem_append_left _ (ih (held_switch_subset h))
    · rcases (held_hook hcall _ lib).mp h with hheld | hadds
      · exact List.mem_append_left _ (ih hheld)
      · exact List.mem_append_right _ hadds

/-- Every wanted library is held after the calls `calls`. -/
def Kept (ldPreload : Option Text) (calls : List Call) : Prop :=
  ∀ lib ∈ wanted ldPreload calls, lib ∈ (run calls (initial ldPreload)).held

theorem kept_nil (ldPreload : Option Text) : Kept ldPreload [] := by
  simp [Kept, wanted, run, initial, Env.held]

/-- A further hook keeps what is kept. -/
theorem Kept.hook {ldPreload : Option Text} {calls : List Call} (h : Kept ldPreload calls)
    {call : Call} (hcall : call ≠ .ldPreloadSwitch) : Kept ldPreload (calls ++ [call]) := by
  intro lib hlib
  rw [wanted_concat] at hlib
  rw [run_concat, held_hook hcall]
  exact (List.mem_append.mp hlib).imp_left (h lib)

/-- A further switch keeps what is kept exactly where it is safe. -/
theorem Kept.switch_iff {ldPreload : Option Text} {calls : List Call} (h : Kept ldPreload calls) :
    Kept ldPreload (calls ++ [.ldPreloadSwitch]) ↔
      SwitchSafe (run calls (initial ldPreload)) := by
  rw [← held_switch_kept_iff]
  have hwanted : wanted ldPreload (calls ++ [.ldPreloadSwitch]) = wanted ldPreload calls := by
    simp [wanted_concat, Call.adds]
  rw [Kept, hwanted, run_concat]
  constructor
  · intro hkept lib hlib
    exact hkept lib (held_subset_wanted ldPreload calls hlib)
  · intro hsafe lib hlib
    exact hsafe lib (h lib hlib)

/-- Every library is kept after each of the calls exactly when every switch among them is
safe where it is made. -/
theorem libraries_kept_iff (ldPreload : Option Text) (calls : List Call) :
    (∀ before, before <+: calls → Kept ldPreload before) ↔
      ∀ before, before ++ [.ldPreloadSwitch] <+: calls →
        SwitchSafe (run before (initial ldPreload)) := by
  constructor
  · intro h before hbefore
    have hkept : Kept ldPreload before := h before ((List.prefix_append _ _).trans hbefore)
    exact hkept.switch_iff.mp (h _ hbefore)
  · intro h before
    -- one call after the other, from the start
    induction before using List.reverseRecOn with
    | nil => exact fun _ => kept_nil ldPreload
    | append_singleton before call ih =>
      intro hbefore
      have hkept : Kept ldPreload before := ih ((List.prefix_append _ _).trans hbefore)
      by_cases hcall : call = .ldPreloadSwitch
      · subst hcall
        exact hkept.switch_iff.mpr (h before hbefore)
      · exact hkept.hook hcall

/-- Switched off, hooked and switched again: the device's own list is gone. -/
theorem libraries_not_kept :
    ¬ Kept (some "libNimsWrap.so".toList) [.ldPreloadSwitch, .ldHookShmem, .ldPreloadSwitch] := by
  intro h
  have hlib := h "libNimsWrap.so".toList (by decide)
  revert hlib
  decide

end Udroid.Preload
