import Mathlib.Data.Finset.Card
import Mathlib.Data.List.Range

/-!
# `setperformance.sh`

The script counts the `processor` lines of `/proc/cpuinfo`, takes the numbers below that
count for the numbers of the CPUs, and writes `scaling_min_freq` before
`scaling_max_freq`.  The kernel rejects a minimum above the maximum.

- `setperformance_cpufreq`: what the whole loop does to one CPU.
- `setperformance_iff`: when every online CPU ends in the performance state.
-/

namespace Udroid.Performance

/-! ## Section 1: The cpufreq files -/

/-- The cpufreq directory of one CPU, within the limits the kernel keeps. -/
structure Cpufreq where
  scalingGovernor : String
  scalingMinFreq : Nat
  scalingMaxFreq : Nat
  cpuinfoMaxFreq : Nat
  min_le_max : scalingMinFreq ≤ scalingMaxFreq
  max_le_cpuinfo : scalingMaxFreq ≤ cpuinfoMaxFreq

/-- The CPUs that are online, and the cpufreq directory each has while it is online. -/
structure Device where
  online : Finset Nat
  cpufreq : Nat → Cpufreq

/-- Change the directory of one CPU; there is none while the CPU is offline. -/
def Device.update (d : Device) (nb : Nat) (f : Cpufreq → Cpufreq) : Device :=
  if nb ∈ d.online then
    { d with cpufreq := fun c => if c = nb then f (d.cpufreq c) else d.cpufreq c }
  else d

/-- `echo governor > scaling_governor`. -/
def writeGovernor (governor : String) (f : Cpufreq) : Cpufreq :=
  { f with scalingGovernor := governor }

/-- `echo freq > scaling_min_freq`, rejected above the current maximum.  What is not a number
is rejected as well. -/
def writeMinFreq (freq : Option Nat) (f : Cpufreq) : Cpufreq :=
  match freq with
  | none => f
  | some v =>
      if h : v ≤ f.scalingMaxFreq then { f with scalingMinFreq := v, min_le_max := h } else f

/-- `echo freq > scaling_max_freq`, rejected below the current minimum and above what the
hardware can do. -/
def writeMaxFreq (freq : Option Nat) (f : Cpufreq) : Cpufreq :=
  match freq with
  | none => f
  | some v =>
      if h : f.scalingMinFreq ≤ v ∧ v ≤ f.cpuinfoMaxFreq then
        { f with scalingMaxFreq := v, min_le_max := h.1, max_le_cpuinfo := h.2 }
      else f

/-- `cat cpuinfo_max_freq`; the output is empty when the file is not there. -/
def catMaxFreq (d : Device) (nb : Nat) : Option Nat :=
  if nb ∈ d.online then some (d.cpufreq nb).cpuinfoMaxFreq else none

/-! ## Section 2: The script -/

/-- The body of the loop, for CPU number `nb`. -/
def setCpu (d : Device) (nb : Nat) : Device :=
  let d := d.update nb (writeGovernor "performance")
  let maxFreq := catMaxFreq d nb
  -- the minimum first, though the maximum may be lower
  let d := d.update nb (writeMinFreq maxFreq)
  d.update nb (writeMaxFreq maxFreq)

/-- `seq 0 last`. -/
def seq (last : Int) : List Nat :=
  List.range (last + 1).toNat

/-- `setperformance.sh`: `/proc/cpuinfo` has one `processor` line for each online CPU. -/
def setperformance (d : Device) : Device :=
  let cpus : Int := d.online.card
  let cpus := cpus - 1
  (seq cpus).foldl setCpu d

/-! ## Section 3: One CPU, one turn of the loop -/

/-- What one turn of the loop makes of the directory of its CPU. -/
def turn (f : Cpufreq) : Cpufreq :=
  writeMaxFreq (some f.cpuinfoMaxFreq)
    (writeMinFreq (some f.cpuinfoMaxFreq) (writeGovernor "performance" f))

@[simp] theorem online_update (d : Device) (nb : Nat) (f : Cpufreq → Cpufreq) :
    (d.update nb f).online = d.online := by
  unfold Device.update
  split <;> rfl

theorem cpufreq_update_self {d : Device} {nb : Nat} (h : nb ∈ d.online) (f : Cpufreq → Cpufreq) :
    (d.update nb f).cpufreq nb = f (d.cpufreq nb) := by
  simp [Device.update, h]

theorem cpufreq_update_of_ne (d : Device) {nb c : Nat} (h : c ≠ nb) (f : Cpufreq → Cpufreq) :
    (d.update nb f).cpufreq c = d.cpufreq c := by
  unfold Device.update
  split <;> simp [h]

@[simp] theorem online_setCpu (d : Device) (nb : Nat) : (setCpu d nb).online = d.online := by
  simp [setCpu]

theorem cpufreq_setCpu_self {d : Device} {nb : Nat} (h : nb ∈ d.online) :
    (setCpu d nb).cpufreq nb = turn (d.cpufreq nb) := by
  have hgov : (d.update nb (writeGovernor "performance")).cpufreq nb =
      writeGovernor "performance" (d.cpufreq nb) := cpufreq_update_self h _
  have hcat : catMaxFreq (d.update nb (writeGovernor "performance")) nb =
      some (d.cpufreq nb).cpuinfoMaxFreq := by
    simp [catMaxFreq, h, hgov, writeGovernor]
  simp only [setCpu, hcat]
  rw [cpufreq_update_self (by simpa using h), cpufreq_update_self (by simpa using h), hgov, turn]

theorem cpufreq_setCpu_of_ne (d : Device) {nb c : Nat} (h : c ≠ nb) :
    (setCpu d nb).cpufreq c = d.cpufreq c := by
  simp only [setCpu]
  rw [cpufreq_update_of_ne _ h, cpufreq_update_of_ne _ h, cpufreq_update_of_ne _ h]

/-! ## Section 4: The whole loop -/

/-- A loop over distinct numbers gives each online CPU it meets one turn, and no other. -/
theorem cpufreq_foldl_setCpu {nbs : List Nat} (hnodup : nbs.Nodup) {d : Device} {c : Nat}
    (hc : c ∈ d.online) :
    (nbs.foldl setCpu d).cpufreq c = if c ∈ nbs then turn (d.cpufreq c) else d.cpufreq c := by
  induction nbs generalizing d with
  | nil => rfl
  | cons nb nbs ih =>
    obtain ⟨hnotMem, hrest⟩ := List.nodup_cons.mp hnodup
    rw [List.foldl_cons, ih hrest (by simpa using hc)]
    -- its own turn comes now, and no other since the numbers are distinct; or it comes later
    by_cases hcn : c = nb
    · subst hcn
      simp [hnotMem, cpufreq_setCpu_self hc]
    · simp [hcn, cpufreq_setCpu_of_ne d hcn]

/-- The script gives a turn to the online CPUs whose number is below the number of online
CPUs. -/
theorem setperformance_cpufreq {d : Device} {c : Nat} (hc : c ∈ d.online) :
    (setperformance d).cpufreq c =
      if c < d.online.card then turn (d.cpufreq c) else d.cpufreq c := by
  have hseq : seq ((d.online.card : Int) - 1) = List.range d.online.card := by
    simp [seq]
  simp only [setperformance, hseq]
  rw [cpufreq_foldl_setCpu List.nodup_range hc]
  simp only [List.mem_range]

/-! ## Section 5: The performance state -/

/-- Governor `performance`, and both limits at what the hardware can do. -/
def Performing (f : Cpufreq) : Prop :=
  f.scalingGovernor = "performance" ∧ f.scalingMinFreq = f.cpuinfoMaxFreq ∧
    f.scalingMaxFreq = f.cpuinfoMaxFreq

instance (f : Cpufreq) : Decidable (Performing f) :=
  inferInstanceAs (Decidable (_ ∧ _ ∧ _))

/-- A turn of the loop reaches the performance state exactly where the maximum was not
capped: under a cap the new minimum is rejected, before the cap is lifted. -/
theorem performing_turn_iff (f : Cpufreq) :
    Performing (turn f) ↔ f.scalingMaxFreq = f.cpuinfoMaxFreq := by
  have hmin := f.min_le_max
  have hmax := f.max_le_cpuinfo
  -- without a cap both writes go through; with one the minimum is written too early
  by_cases hcap : f.cpuinfoMaxFreq ≤ f.scalingMaxFreq
  · have heq : f.scalingMaxFreq = f.cpuinfoMaxFreq := Nat.le_antisymm hmax hcap
    simp [Performing, turn, writeGovernor, writeMinFreq, writeMaxFreq, heq]
  · have hne : f.scalingMaxFreq ≠ f.cpuinfoMaxFreq := fun h => hcap (Nat.le_of_eq h.symm)
    have hlow : f.scalingMinFreq ≠ f.cpuinfoMaxFreq := by omega
    simp [Performing, turn, writeGovernor, writeMinFreq, writeMaxFreq, hcap, hne, hlow,
      Nat.le_trans hmin hmax]

/-- Every online CPU is in the performance state after the script exactly when each was
either given a turn with its maximum not capped, or, its number being too high for a turn,
was in that state before. -/
theorem setperformance_iff (d : Device) :
    (∀ c ∈ d.online, Performing ((setperformance d).cpufreq c)) ↔
      ∀ c ∈ d.online, if c < d.online.card then
        (d.cpufreq c).scalingMaxFreq = (d.cpufreq c).cpuinfoMaxFreq
      else Performing (d.cpufreq c) := by
  refine forall₂_congr ?_
  intro c hc
  rw [setperformance_cpufreq hc]
  split
  · exact performing_turn_iff _
  · rfl

/-- A CPU whose maximum is capped below what the hardware can do. -/
def cappedCpu : Cpufreq := ⟨"interactive", 300, 1200, 2000, by decide, by decide⟩

/-- A CPU without a cap. -/
def freeCpu : Cpufreq := ⟨"interactive", 300, 2000, 2000, by decide, by decide⟩

/-- With one capped CPU online the minimum stays where it was; with CPU 1 unplugged CPU 2
keeps its governor. -/
theorem setperformance_fails :
    ¬ (∀ c ∈ ({0} : Finset Nat), Performing ((setperformance ⟨{0}, fun _ => cappedCpu⟩).cpufreq c)) ∧
      ¬ (∀ c ∈ ({0, 2} : Finset Nat),
        Performing ((setperformance ⟨{0, 2}, fun _ => freeCpu⟩).cpufreq c)) := by
  decide

end Udroid.Performance
