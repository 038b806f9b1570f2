import Udroid.Mounts.Convergence
import Udroid.Mounts.Rounds
import Udroid.Mounts.Teardown
import Udroid.Unix.MountRegion

/-!
# The life of the mounts

The mounts of the chroot over any history: calls of `fsmount`, `fsumount`, `uninstall.bat`
and `shell/chromium`, in any order and number, from a clean table.  What a history leaves is
told by a small machine.  Its state is whether the chroot is set up, how many `/dev` binds
are stacked on `/data/ubuntu/dev` and which of them carry a tmpfs, and how many set-ups were
let through.

- `Life`, `Life.next`: the machine.
- `history_same`: the table after any history is, as a tree, the one the machine tells.
- `set_up_iff`: when the chroot is set up, and that then every target shows its source.
- `cleared_iff`: how many more calls of `fsumount` it takes to clear `/data/ubuntu`.
-/

namespace Udroid.Mounts

open Udroid.Unix Udroid.Unix.MountTable

/-! ## Section 1: Calls and the machine -/

/-- A call of one of the scripts that mount or unmount. -/
inductive Call where
  | fsmount
  | fsumount
  | uninstall
  | chromium
  deriving DecidableEq, Repr

/-- What a call does to the mount table. -/
def Call.exec (t : MountTable Fs) : Call → MountTable Fs
  | .fsmount => Mounts.fsmount .isolated t
  | .fsumount => Mounts.fsumount .isolated t
  | .uninstall => Mounts.uninstall .isolated t
  | .chromium => chromiumShm .isolated t

/-- The table after a history of calls. -/
def history (t : MountTable Fs) (calls : List Call) : MountTable Fs :=
  calls.foldl Call.exec t

/-- The state of the machine. -/
structure Life where
  /-- is the chroot set up? -/
  up : Bool
  /-- the binds stacked on `/data/ubuntu/dev`, newest first: does a tmpfs sit on its `shm`? -/
  devs : List Bool
  /-- does a tmpfs sit on the `shm` of the rootfs itself? -/
  shm : Bool
  /-- the number of set-ups that were let through -/
  setUps : Nat
  /-- a chroot that is set up was set up, and has its `/dev` -/
  up_made : up = true → devs ≠ [] ∧ setUps ≠ 0

/-- Before the first call. -/
def Life.start : Life := ⟨false, [], false, 0, by simp⟩

/-- One call. -/
def Life.next (s : Life) : Call → Life
  | .fsmount => if s.up then s else ⟨true, false :: s.devs, s.shm, s.setUps + 1, by simp⟩
  | .fsumount =>
      match s.devs with
      | [] => ⟨false, [], false, s.setUps, by simp⟩
      | _ :: devs => ⟨false, devs, s.shm, s.setUps, by simp⟩
  | .uninstall => ⟨false, s.devs, s.shm, s.setUps, by simp⟩
  | .chromium =>
      match s.devs with
      | [] => ⟨false, [], true, s.setUps, by simp⟩
      | _ :: devs => ⟨s.up, true :: devs, s.shm, s.setUps, fun h => ⟨by simp, (s.up_made h).2⟩⟩

@[simp] theorem Life.next_fsumount_up (s : Life) : (s.next .fsumount).up = false := by
  cases hdevs : s.devs <;> simp [Life.next, hdevs]

@[simp] theorem Life.next_fsumount_setUps (s : Life) :
    (s.next .fsumount).setUps = s.setUps := by
  cases hdevs : s.devs <;> simp [Life.next, hdevs]

/-- A history of calls. -/
def Life.run (s : Life) (calls : List Call) : Life :=
  calls.foldl Life.next s

/-! ## Section 2: The mounts a state tells -/

/-- The tmpfs on `shm`. -/
def shmMount : Mount Fs := ⟨ubuntuShm, .tmpfs, [], false⟩

/-- A `/dev` of the chroot, with its `pts` and, perhaps, a tmpfs on its `shm`. -/
def devMounts (t : MountTable Fs) (shm : Bool) : List (Mount Fs) :=
  (if shm then [shmMount] else []) ++
    [boundAt t ["dev", "pts"] ubuntuPts, boundAt t ["dev"] ubuntuDev]

/-- All that is at or below `/data/ubuntu/dev`. -/
def Life.devTree (t : MountTable Fs) (s : Life) : List (Mount Fs) :=
  s.devs.flatMap (devMounts t) ++ (if s.shm then [shmMount] else [])

def Life.procTree (t : MountTable Fs) (s : Life) : List (Mount Fs) :=
  if s.up then [boundAt t ["proc"] ubuntuProc] else []

def Life.sysTree (t : MountTable Fs) (s : Life) : List (Mount Fs) :=
  if s.up then
    [ { boundAt t ["sys", "fs", "selinux"] ubuntuSelinux with ro := true },
      ⟨ubuntuDebug, .debugfs, [], false⟩,
      boundAt t ["sys"] ubuntuSys ]
  else []

def Life.tmpTree (s : Life) : List (Mount Fs) :=
  List.replicate s.setUps ⟨ubuntuTmp, .tmpfs, [], false⟩

/-- The binds of Android's trees that one set-up leaves. -/
def androidBinds (t : MountTable Fs) : List (Mount Fs) :=
  [ boundAt t ["sdcard"] udroidSdcard,
    boundAt t ["system"] udroidSystem,
    boundAt t ["data"] udroidData ]

def Life.udroidTree (t : MountTable Fs) (s : Life) : List (Mount Fs) :=
  (List.replicate s.setUps (androidBinds t)).flatten

/-- debugfs on `/sys/kernel/debug` comes with the first set-up. -/
def Life.debugTree (t : MountTable Fs) (s : Life) : List (Mount Fs) :=
  if s.setUps = 0 then [] else debugMount t

/-- All the mounts a state tells. -/
def Life.mounts (t : MountTable Fs) (s : Life) : List (Mount Fs) :=
  s.procTree t ++ s.sysTree t ++ s.devTree t ++ s.tmpTree ++ s.udroidTree t ++ s.debugTree t

/-- Where the scripts mount. -/
def allTargets : List Path := ubuntuShm :: targets

/-- The trees the mounts of the scripts fall into. -/
def lifeTops : List Path :=
  [ubuntuProc, ubuntuSys, ubuntuDev, ubuntuTmp, udroid, sysDebug]

theorem unrelated_lifeTops : Unrelated lifeTops := by decide

/-- The layer `ms` over `t₀` is the one the state tells. -/
structure Tells (t₀ : MountTable Fs) (s : Life) (ms : List (Mount Fs)) : Prop where
  points : ∀ m ∈ ms, m.point ∈ allTargets
  proc : part ubuntuProc ms = s.procTree t₀
  sys : part ubuntuSys ms = s.sysTree t₀
  dev : part ubuntuDev ms = s.devTree t₀
  tmp : part ubuntuTmp ms = s.tmpTree
  android : part udroid ms = s.udroidTree t₀
  debug : part sysDebug ms = s.debugTree t₀

/-! ## Section 3: Tables over a clean one -/

variable {t₀ : MountTable Fs}

theorem Tells.start : Tells t₀ .start [] := ⟨by simp, rfl, rfl, rfl, rfl, rfl, rfl⟩

theorem Tells.covers {s : Life} {ms : List (Mount Fs)} (h : Tells t₀ s ms) :
    Covers lifeTops ms := by
  have hall : ∀ p ∈ allTargets, ∃ top ∈ lifeTops, top <+: p := by decide
  exact fun m hm => hall m.point (h.points m hm)

theorem Tells.outermost {s : Life} {ms : List (Mount Fs)} (h : Tells t₀ s ms) {top : Path}
    (htop : top ∈ lifeTops) : Outermost top ms :=
  h.covers.outermost unrelated_lifeTops htop

/-- What a path of a region lies in: a mount of the region, or what it lies in without the layer. -/
theorem holder_layOn {ms : List (Mount Fs)} {top p : Path} (h : Outermost top ms)
    (hp : top <+: p) :
    (layOn t₀ ms).holder p =
      ((part top ms).find? (fun m => decide (m.point <+: p))).getD (t₀.holder p) := by
  rw [holder, layOn, List.find?_append, find?_part h hp]
  cases (part top ms).find? (fun m => decide (m.point <+: p)) <;> rfl

/-- A source that no mount of the layer is above is where it was. -/
theorem locate_layOn {ms : List (Mount Fs)} {p : Path} (h : ∀ m ∈ ms, ¬ m.point <+: p) :
    (layOn t₀ ms).locate p = t₀.locate p := by
  have hnone : ms.find? (fun m => decide (m.point <+: p)) = none := by
    rw [List.find?_eq_none]
    intro m hm hpre
    exact h m hm (of_decide_eq_true hpre)
  have hholder : (layOn t₀ ms).holder p = t₀.holder p := by
    rw [holder, layOn, List.find?_append, hnone]
    rfl
  rw [locate, locate, hholder]

theorem Tells.boundAt_eq {s : Life} {ms : List (Mount Fs)} (h : Tells t₀ s ms) {src tgt : Path}
    (hsrc : ∀ p ∈ allTargets, ¬ p <+: src) : boundAt (layOn t₀ ms) src tgt = boundAt t₀ src tgt := by
  rw [boundAt, boundAt, locate_layOn fun m hm => hsrc m.point (h.points m hm)]

theorem Tells.mountpoint_proc {s : Life} {ms : List (Mount Fs)} (hclean : Clean t₀)
    (h : Tells t₀ s ms) : (layOn t₀ ms).mountpoint ubuntuProc = s.up := by
  have hholder : (layOn t₀ ms).holder ubuntuProc = _ :=
    holder_layOn (h.outermost (show ubuntuProc ∈ lifeTops by decide)) (List.prefix_refl ubuntuProc)
  rw [h.proc, Life.procTree] at hholder
  cases hup : s.up with
  | true => simp [mountpoint, hholder, hup, boundAt]
  | false =>
    have hfalse : t₀.mountpoint ubuntuProc = false :=
      mountpoint_eq_false_of_clearAt hclean.clearUbuntu (by decide)
    simpa [mountpoint, hholder, hup] using hfalse

/-- debugfs is on top once a set-up was let through, if it was not before. -/
theorem Tells.debugMount_eq {s : Life} {ms : List (Mount Fs)} (h : Tells t₀ s ms) :
    debugMount (layOn t₀ ms) = if s.setUps = 0 then debugMount t₀ else [] := by
  have hholder : (layOn t₀ ms).holder sysDebug = _ :=
    holder_layOn (h.outermost (show sysDebug ∈ lifeTops by decide)) (List.prefix_refl sysDebug)
  rw [h.debug, Life.debugTree] at hholder
  by_cases hsetUps : s.setUps = 0
  · simp [debugMount, onTop, hholder, hsetUps]
  · cases htop : t₀.onTop .debugfs sysDebug with
    | true =>
      have hsame : (layOn t₀ ms).holder sysDebug = t₀.holder sysDebug := by
        simpa [hsetUps, debugMount, htop] using hholder
      have hup : (layOn t₀ ms).onTop .debugfs sysDebug = true := by
        simpa [onTop, hsame] using htop
      simp [debugMount, hup, hsetUps]
    | false =>
      have hnew : (layOn t₀ ms).holder sysDebug = ⟨sysDebug, .debugfs, [], false⟩ := by
        simpa [hsetUps, debugMount, htop] using hholder
      have hup : (layOn t₀ ms).onTop .debugfs sysDebug = true := by simp [onTop, hnew]
      simp [debugMount, hup, hsetUps]

/-- A set-up over a layer makes the mounts it makes over the clean table, debugfs once. -/
theorem Tells.wanted_eq {s : Life} {ms : List (Mount Fs)} (h : Tells t₀ s ms) :
    wanted (layOn t₀ ms) =
      wantedAfter t₀ ++ (if s.setUps = 0 then debugMount t₀ else []) ++ wantedBefore t₀ := by
  rw [wanted, h.debugMount_eq]
  simp only [wantedAfter, wantedBefore]
  rw [h.boundAt_eq (by decide), h.boundAt_eq (by decide), h.boundAt_eq (by decide),
    h.boundAt_eq (by decide), h.boundAt_eq (by decide), h.boundAt_eq (by decide),
    h.boundAt_eq (by decide), h.boundAt_eq (by decide)]

/-- Umounts below `/data/ubuntu` are umounts of the layer. -/
theorem umounts_layOn (hclean : Clean t₀) {ps : List Path} (hps : ∀ p ∈ ps, ubuntu <+: p)
    (ms : List (Mount Fs)) :
    (layOn t₀ ms).run .isolated (ps.map .umount) = layOn t₀ (popsLayer ps ms) := by
  induction ps generalizing ms with
  | nil => rfl
  | cons p ps ih =>
    have hpop : (layOn t₀ ms).pop p = layOn t₀ (popLayer p ms) := by
      have happend := popList_append ms (hclean.ne_of_below_ubuntu (hps p (by simp)))
      unfold pop popLayer
      simp only [layOn, happend]
      cases popList p ms <;> rfl
    calc (layOn t₀ ms).run .isolated ((p :: ps).map .umount)
        = ((layOn t₀ ms).umount .isolated p).run .isolated (ps.map .umount) := rfl
      _ = (layOn t₀ (popLayer p ms)).run .isolated (ps.map .umount) := by
          rw [umount_isolated, hpop]
      _ = layOn t₀ (popsLayer (p :: ps) ms) :=
          ih (fun q hq => hps q (List.mem_cons_of_mem _ hq)) _

/-! ## Section 4: The calls -/

/-- The mounts of a set-up, debugfs among them when it is the first. -/
def setUpMounts (t : MountTable Fs) (first : Bool) : List (Mount Fs) :=
  wantedAfter t ++ (if first then debugMount t else []) ++ wantedBefore t

/-- The mounts of a set-up, tree by tree. -/
theorem part_setUpMounts (t : MountTable Fs) (first : Bool) :
    part ubuntuProc (setUpMounts t first) = [boundAt t ["proc"] ubuntuProc] ∧
    part ubuntuSys (setUpMounts t first) =
      [ { boundAt t ["sys", "fs", "selinux"] ubuntuSelinux with ro := true },
        ⟨ubuntuDebug, .debugfs, [], false⟩,
        boundAt t ["sys"] ubuntuSys ] ∧
    part ubuntuDev (setUpMounts t first) = devMounts t false ∧
    part ubuntuTmp (setUpMounts t first) = [⟨ubuntuTmp, .tmpfs, [], false⟩] ∧
    part udroid (setUpMounts t first) = androidBinds t ∧
    part sysDebug (setUpMounts t first) = if first then debugMount t else [] := by
  cases first <;> cases htop : t.onTop .debugfs sysDebug <;>
    simp [part, setUpMounts, wantedAfter, wantedBefore, boundAt, debugMount, htop, devMounts,
      androidBinds]

theorem setUpMounts_points (t : MountTable Fs) (first : Bool) :
    ∀ m ∈ setUpMounts t first, m.point ∈ allTargets := by
  cases first <;> cases htop : t.onTop .debugfs sysDebug <;>
    simp [setUpMounts, wantedAfter, wantedBefore, boundAt, debugMount, htop, allTargets, targets]

theorem Tells.fsmount {s : Life} {ms : List (Mount Fs)} (hclean : Clean t₀) (h : Tells t₀ s ms) :
    ∃ ms', Mounts.fsmount .isolated (layOn t₀ ms) = layOn t₀ ms' ∧
      Tells t₀ (s.next .fsmount) ms' := by
  have hproc := h.mountpoint_proc hclean
  cases hup : s.up with
  | true =>
    refine ⟨ms, ?_, ?_⟩
    · simp [Mounts.fsmount, hproc, hup]
    · simpa [Life.next, hup] using h
  | false =>
    obtain ⟨hpproc, hpsys, hpdev, hptmp, hpandroid, hpdebug⟩ :=
      part_setUpMounts t₀ (decide (s.setUps = 0))
    refine ⟨setUpMounts t₀ (decide (s.setUps = 0)) ++ ms, ?_, ?_⟩
    · rw [fsmount_eq_layOn (hproc.trans hup), h.wanted_eq]
      simp [layOn, setUpMounts]
    · have hnext : s.next .fsmount = ⟨true, false :: s.devs, s.shm, s.setUps + 1, by simp⟩ := by
        simp [Life.next, hup]
      rw [hnext]
      constructor
      · intro m hm
        rcases List.mem_append.mp hm with hm | hm
        · exact setUpMounts_points t₀ _ m hm
        · exact h.points m hm
      -- tree by tree, the mounts of the set-up are over those of the state before
      · rw [part_append, hpproc, h.proc]
        simp [Life.procTree, hup]
      · rw [part_append, hpsys, h.sys]
        simp [Life.sysTree, hup]
      · rw [part_append, hpdev, h.dev]
        simp [Life.devTree]
      · rw [part_append, hptmp, h.tmp]
        simp [Life.tmpTree, List.replicate_succ]
      · rw [part_append, hpandroid, h.android]
        simp [Life.udroidTree, List.replicate_succ]
      · rw [part_append, hpdebug, h.debug]
        by_cases hsetUps : s.setUps = 0 <;> simp [Life.debugTree, hsetUps]

/-- What a teardown does, tree by tree. -/
theorem Tells.umounts {s s' : Life} {ms : List (Mount Fs)} (h : Tells t₀ s ms) (ps : List Path)
    (hsetUps : s'.setUps = s.setUps)
    (hproc : popsLayer (ps.filter (fun p => decide (ubuntuProc <+: p))) (s.procTree t₀) =
      s'.procTree t₀)
    (hsys : popsLayer (ps.filter (fun p => decide (ubuntuSys <+: p))) (s.sysTree t₀) =
      s'.sysTree t₀)
    (hdev : popsLayer (ps.filter (fun p => decide (ubuntuDev <+: p))) (s.devTree t₀) =
      s'.devTree t₀)
    (htmp : ps.filter (fun p => decide (ubuntuTmp <+: p)) = [])
    (handroid : ps.filter (fun p => decide (udroid <+: p)) = [])
    (hdebug : ps.filter (fun p => decide (sysDebug <+: p)) = []) :
    Tells t₀ s' (popsLayer ps ms) := by
  constructor
  · exact fun m hm => h.points m (mem_of_mem_popsLayer hm)
  · rw [part_popsLayer (h.outermost (by decide)), h.proc, hproc]
  · rw [part_popsLayer (h.outermost (by decide)), h.sys, hsys]
  · rw [part_popsLayer (h.outermost (by decide)), h.dev, hdev]
  · rw [part_popsLayer (h.outermost (by decide)), h.tmp, htmp, Life.tmpTree, Life.tmpTree, hsetUps]
    rfl
  · rw [part_popsLayer (h.outermost (by decide)), h.android, handroid, Life.udroidTree,
      Life.udroidTree, hsetUps]
    rfl
  · rw [part_popsLayer (h.outermost (by decide)), h.debug, hdebug, Life.debugTree,
      Life.debugTree, hsetUps]
    rfl

/-- Either teardown takes `proc` away. -/
theorem popsLayer_procTree (s : Life) :
    popsLayer [ubuntuProc] (s.procTree t₀) = [] := by
  cases hup : s.up <;> simp [Life.procTree, hup, popsLayer, popLayer, popList, boundAt]

/-- Either teardown takes `sys` and what is below it away. -/
theorem popsLayer_sysTree (s : Life) :
    popsLayer [ubuntuDebug, ubuntuSelinux, ubuntuSys] (s.sysTree t₀) = [] := by
  cases hup : s.up <;> simp [Life.sysTree, hup, popsLayer, popLayer, popList, boundAt]

/-- `fsumount` takes the newest `/dev` away, with what is below it. -/
theorem popsLayer_devTree (s : Life) :
    popsLayer [ubuntuPts, ubuntuShm, ubuntuDev] (s.devTree t₀) =
      (s.next .fsumount).devTree t₀ := by
  cases hdevs : s.devs with
  | nil =>
    cases hshm : s.shm <;>
      simp [Life.devTree, Life.next, hdevs, hshm, popsLayer, popLayer, popList, shmMount]
  | cons shm devs =>
    cases shm <;>
      simp [Life.devTree, Life.next, hdevs, devMounts, popsLayer, popLayer, popList, shmMount,
        boundAt]

/-- `uninstall.bat` finds `/dev` busy: `pts`, or a tmpfs, is below it. -/
theorem popsLayer_devTree_busy (s : Life) :
    popsLayer [ubuntuDev] (s.devTree t₀) = s.devTree t₀ := by
  cases hdevs : s.devs with
  | nil =>
    cases hshm : s.shm <;>
      simp [Life.devTree, hdevs, hshm, popsLayer, popLayer, popList, shmMount]
  | cons shm devs =>
    cases shm <;>
      simp [Life.devTree, hdevs, devMounts, popsLayer, popLayer, popList, shmMount, boundAt]

theorem Tells.fsumount {s : Life} {ms : List (Mount Fs)} (hclean : Clean t₀) (h : Tells t₀ s ms) :
    ∃ ms', Mounts.fsumount .isolated (layOn t₀ ms) = layOn t₀ ms' ∧
      Tells t₀ (s.next .fsumount) ms' := by
  refine ⟨popsLayer fsumountPaths ms, umounts_layOn hclean (by decide) ms, ?_⟩
  apply h.umounts fsumountPaths s.next_fsumount_setUps
  · have hprocTree : (s.next .fsumount).procTree t₀ = [] := by simp [Life.procTree]
    rw [hprocTree]
    exact popsLayer_procTree s
  · have hsysTree : (s.next .fsumount).sysTree t₀ = [] := by simp [Life.sysTree]
    rw [hsysTree]
    exact popsLayer_sysTree s
  · exact popsLayer_devTree s
  · decide
  · decide
  · decide

theorem Tells.uninstall {s : Life} {ms : List (Mount Fs)} (hclean : Clean t₀) (h : Tells t₀ s ms) :
    ∃ ms', Mounts.uninstall .isolated (layOn t₀ ms) = layOn t₀ ms' ∧
      Tells t₀ (s.next .uninstall) ms' := by
  refine ⟨popsLayer uninstallPaths ms, umounts_layOn hclean (by decide) ms, ?_⟩
  have hsetUps : (s.next .uninstall).setUps = s.setUps := rfl
  apply h.umounts uninstallPaths hsetUps
  · exact popsLayer_procTree s
  · exact popsLayer_sysTree s
  · exact popsLayer_devTree_busy s
  · decide
  · decide
  · decide

/-- What `/data/ubuntu/dev/shm` lies in tells whether the newest `/dev`, or the rootfs, has a
tmpfs there. -/
theorem Tells.mountpoint_shm {s : Life} {ms : List (Mount Fs)} (hclean : Clean t₀)
    (h : Tells t₀ s ms) : (layOn t₀ ms).mountpoint ubuntuShm = s.devs.headD s.shm := by
  have hholder : (layOn t₀ ms).holder ubuntuShm = _ :=
    holder_layOn (h.outermost (show ubuntuDev ∈ lifeTops by decide))
      (show ubuntuDev <+: ubuntuShm by decide)
  rw [h.dev, Life.devTree] at hholder
  cases hdevs : s.devs with
  | nil =>
    cases hshm : s.shm with
    | true => simp [mountpoint, hholder, hdevs, hshm, shmMount]
    | false =>
      have hfalse : t₀.mountpoint ubuntuShm = false :=
        mountpoint_eq_false_of_clearAt hclean.clearUbuntu (by decide)
      simpa [mountpoint, hholder, hdevs, hshm] using hfalse
  | cons shm devs =>
    cases shm <;> simp [mountpoint, hholder, hdevs, devMounts, shmMount, boundAt]

theorem Tells.chromium {s : Life} {ms : List (Mount Fs)} (hclean : Clean t₀) (h : Tells t₀ s ms) :
    ∃ ms', chromiumShm .isolated (layOn t₀ ms) = layOn t₀ ms' ∧
      Tells t₀ (s.next .chromium) ms' := by
  have hmount := h.mountpoint_shm hclean
  cases hhead : s.devs.headD s.shm with
  | true =>
    -- the tmpfs is there already
    refine ⟨ms, ?_, ?_⟩
    · simp only [chromiumShm, exec_mkdir, hmount, hhead, if_true]
    · obtain ⟨up, devs, shm, setUps, hdevs⟩ := s
      cases devs with
      | nil =>
        have hup : up = false := by
          cases up with
          | false => rfl
          | true => exact absurd rfl (hdevs rfl).1
        subst hup
        obtain rfl : shm = true := hhead
        exact h
      | cons b devs =>
        obtain rfl : b = true := hhead
        exact h
  | false =>
    refine ⟨shmMount :: ms, ?_, ?_⟩
    · simp only [chromiumShm, exec_mkdir, hmount, hhead, Bool.false_eq_true, if_false]
      rfl
    · have hcons : ∀ top ∈ lifeTops, top ≠ ubuntuDev → part top (shmMount :: ms) = part top ms := by
        intro top htop hne
        have hnot : ∀ q ∈ lifeTops, q ≠ ubuntuDev → ¬ q <+: ubuntuShm := by decide
        exact part_cons_of_not_below (hnot top htop hne) ms
      have hdev : part ubuntuDev (shmMount :: ms) = shmMount :: s.devTree t₀ := by
        rw [part_cons_of_below (show ubuntuDev <+: shmMount.point by decide), h.dev]
      have hpoints : ∀ m ∈ shmMount :: ms, m.point ∈ allTargets := by
        intro m hm
        rcases List.mem_cons.mp hm with rfl | hm
        · decide
        · exact h.points m hm
      obtain ⟨up, devs, shm, setUps, hdevs⟩ := s
      cases devs with
      | nil =>
        have hup : up = false := by
          cases up with
          | false => rfl
          | true => exact absurd rfl (hdevs rfl).1
        subst hup
        obtain rfl : shm = false := hhead
        exact ⟨hpoints, (hcons _ (by decide) (by decide)).trans h.proc,
          (hcons _ (by decide) (by decide)).trans h.sys, hdev,
          (hcons _ (by decide) (by decide)).trans h.tmp,
          (hcons _ (by decide) (by decide)).trans h.android,
          (hcons _ (by decide) (by decide)).trans h.debug⟩
      | cons b devs =>
        obtain rfl : b = false := hhead
        exact ⟨hpoints, (hcons _ (by decide) (by decide)).trans h.proc,
          (hcons _ (by decide) (by decide)).trans h.sys, hdev,
          (hcons _ (by decide) (by decide)).trans h.tmp,
          (hcons _ (by decide) (by decide)).trans h.android,
          (hcons _ (by decide) (by decide)).trans h.debug⟩

/-! ## Section 5: Histories -/

/-- Step lemma: a call leaves the layer that the next state tells. -/
theorem Tells.exec {s : Life} {ms : List (Mount Fs)} (hclean : Clean t₀) (h : Tells t₀ s ms)
    (call : Call) : ∃ ms', Call.exec (layOn t₀ ms) call = layOn t₀ ms' ∧
      Tells t₀ (s.next call) ms' := by
  cases call with
  | fsmount => exact h.fsmount hclean
  | fsumount => exact h.fsumount hclean
  | uninstall => exact h.uninstall hclean
  | chromium => exact h.chromium hclean

/-- Run lemma: so does a history. -/
theorem Tells.history {s : Life} {ms : List (Mount Fs)} (hclean : Clean t₀) (h : Tells t₀ s ms)
    (calls : List Call) : ∃ ms', Mounts.history (layOn t₀ ms) calls = layOn t₀ ms' ∧
      Tells t₀ (s.run calls) ms' := by
  induction calls generalizing s ms with
  | nil => exact ⟨ms, rfl, h⟩
  | cons call calls ih =>
    obtain ⟨ms₁, hexec, h₁⟩ := h.exec hclean call
    obtain ⟨ms₂, hrun, h₂⟩ := ih h₁
    refine ⟨ms₂, ?_, h₂⟩
    rw [← hrun, ← hexec]
    rfl

/-- The layer a history leaves over a clean table. -/
theorem exists_tells (hclean : Clean t₀) (calls : List Call) :
    ∃ ms, Mounts.history t₀ calls = layOn t₀ ms ∧ Tells t₀ (Life.start.run calls) ms :=
  Tells.start.history hclean calls

theorem devMounts_points (t : MountTable Fs) (shm : Bool) :
    ∀ m ∈ devMounts t shm, m.point ∈ [ubuntuShm, ubuntuPts, ubuntuDev] := by
  cases shm <;> simp [devMounts, shmMount, boundAt]

theorem devTree_points (t : MountTable Fs) (s : Life) :
    ∀ m ∈ s.devTree t, m.point ∈ [ubuntuShm, ubuntuPts, ubuntuDev] := by
  intro m hm
  rcases List.mem_append.mp hm with hm | hm
  · obtain ⟨shm, -, hm⟩ := List.mem_flatMap.mp hm
    exact devMounts_points t shm m hm
  · have hmem : m = shmMount := by
      split at hm <;> simp_all
    simp [hmem, shmMount]

theorem udroidTree_points (t : MountTable Fs) (s : Life) :
    ∀ m ∈ s.udroidTree t, m.point ∈ [udroidSdcard, udroidSystem, udroidData] := by
  have hbinds : ∀ m ∈ androidBinds t, m.point ∈ [udroidSdcard, udroidSystem, udroidData] := by
    simp [androidBinds, boundAt]
  intro m hm
  obtain ⟨ms, hms, hm⟩ := List.mem_flatten.mp hm
  rw [(List.mem_replicate.mp hms).2] at hm
  exact hbinds m hm

theorem debugTree_points (t : MountTable Fs) (s : Life) :
    ∀ m ∈ s.debugTree t, m.point ∈ [sysDebug] := by
  unfold Life.debugTree debugMount
  cases t.onTop .debugfs sysDebug <;> by_cases hsetUps : s.setUps = 0 <;> simp [hsetUps]

theorem procTree_points (t : MountTable Fs) (s : Life) :
    ∀ m ∈ s.procTree t, m.point ∈ [ubuntuProc] := by
  cases hup : s.up <;> simp [Life.procTree, hup, boundAt]

theorem sysTree_points (t : MountTable Fs) (s : Life) :
    ∀ m ∈ s.sysTree t, m.point ∈ [ubuntuSelinux, ubuntuDebug, ubuntuSys] := by
  cases hup : s.up <;> simp [Life.sysTree, hup, boundAt]

theorem tmpTree_points (s : Life) : ∀ m ∈ s.tmpTree, m.point ∈ [ubuntuTmp] := by
  intro m hm
  rw [(List.mem_replicate.mp hm).2]
  decide

/-- The mounts a state tells are told by it. -/
theorem tells_mounts (t₀ : MountTable Fs) (s : Life) : Tells t₀ s (s.mounts t₀) := by
  have hregion : ∀ (top' : Path) {points : List Path} {ms : List (Mount Fs)},
      top' ∈ lifeTops → (∀ p ∈ points, top' <+: p) → (∀ m ∈ ms, m.point ∈ points) →
        ∀ top ∈ lifeTops, part top ms = if top = top' then ms else [] :=
    fun top' _ _ htop' hpoints hms top htop =>
      part_of_below unrelated_lifeTops htop htop' fun m hm => hpoints m.point (hms m hm)
  have hproc := hregion ubuntuProc (by decide) (by decide) (procTree_points t₀ s)
  have hsys := hregion ubuntuSys (by decide) (by decide) (sysTree_points t₀ s)
  have hdev := hregion ubuntuDev (by decide) (by decide) (devTree_points t₀ s)
  have htmp := hregion ubuntuTmp (by decide) (by decide) (tmpTree_points s)
  have handroid := hregion udroid (by decide) (by decide) (udroidTree_points t₀ s)
  have hdebug := hregion sysDebug (by decide) (by decide) (debugTree_points t₀ s)
  have hpart : ∀ top ∈ lifeTops, part top (s.mounts t₀) =
      (if top = ubuntuProc then s.procTree t₀ else []) ++
      (if top = ubuntuSys then s.sysTree t₀ else []) ++
      (if top = ubuntuDev then s.devTree t₀ else []) ++
      (if top = ubuntuTmp then s.tmpTree else []) ++
      (if top = udroid then s.udroidTree t₀ else []) ++
      (if top = sysDebug then s.debugTree t₀ else []) := by
    intro top htop
    rw [Life.mounts, part_append, part_append, part_append, part_append, part_append,
      hproc top htop, hsys top htop, hdev top htop, htmp top htop, handroid top htop,
      hdebug top htop]
  have htarget : ∀ {points : List Path} {ms : List (Mount Fs)},
      (∀ m ∈ ms, m.point ∈ points) → (∀ p ∈ points, p ∈ allTargets) →
        ∀ m ∈ ms, m.point ∈ allTargets :=
    fun hms hpoints m hm => hpoints m.point (hms m hm)
  constructor
  · intro m hm
    simp only [Life.mounts, List.mem_append] at hm
    rcases hm with ((((hm | hm) | hm) | hm) | hm) | hm
    · exact htarget (procTree_points t₀ s) (by decide) m hm
    · exact htarget (sysTree_points t₀ s) (by decide) m hm
    · exact htarget (devTree_points t₀ s) (by decide) m hm
    · exact htarget (tmpTree_points s) (by decide) m hm
    · exact htarget (udroidTree_points t₀ s) (by decide) m hm
    · exact htarget (debugTree_points t₀ s) (by decide) m hm
  · simpa using hpart ubuntuProc (by decide)
  · simpa using hpart ubuntuSys (by decide)
  · simpa using hpart ubuntuDev (by decide)
  · simpa using hpart ubuntuTmp (by decide)
  · simpa using hpart udroid (by decide)
  · simpa using hpart sysDebug (by decide)

/-- After any history of set-ups, teardowns of either kind and shared memory mounts, the table is,
as a tree, the clean one under the mounts that the machine tells. -/
theorem history_same (hclean : Clean t₀) (calls : List Call) :
    (history t₀ calls).Same (layOn t₀ ((Life.start.run calls).mounts t₀)) := by
  obtain ⟨ms, htable, h⟩ := exists_tells hclean calls
  have htold := tells_mounts t₀ (Life.start.run calls)
  rw [htable]
  refine ⟨rfl, fun p => ?_⟩
  have hparts : ∀ top ∈ lifeTops,
      part top ms = part top ((Life.start.run calls).mounts t₀) := by
    intro top htop
    simp only [lifeTops, List.mem_cons, List.not_mem_nil, or_false] at htop
    rcases htop with rfl | rfl | rfl | rfl | rfl | rfl
    · rw [h.proc, htold.proc]
    · rw [h.sys, htold.sys]
    · rw [h.dev, htold.dev]
    · rw [h.tmp, htold.tmp]
    · rw [h.android, htold.android]
    · rw [h.debug, htold.debug]
  simp only [chain, layOn, List.filter_append,
    filter_eq_of_parts unrelated_lifeTops h.covers htold.covers hparts p]

/-- A day with two set-ups, a browser, and a teardown of each kind. -/
def dayCalls : List Call := [.fsmount, .chromium, .uninstall, .fsmount, .fsumount]

theorem history_same_bootTable :
    (history bootTable dayCalls).Same
      (layOn bootTable ((Life.start.run dayCalls).mounts bootTable)) :=
  history_same clean_bootTable dayCalls

/-- The first `/dev`, with its tmpfs, is still there in the evening. -/
example : (Life.start.run dayCalls).devs = [true] := rfl

/-! ## Section 6: When the chroot is set up -/

theorem Life.run_concat (s : Life) (calls : List Call) (call : Call) :
    s.run (calls ++ [call]) = (s.run calls).next call := by
  rw [Life.run, List.foldl_concat]
  rfl

/-- The chroot is set up when, shared memory mounts aside, the last call was `fsmount`. -/
theorem up_run_iff (calls : List Call) :
    (Life.start.run calls).up = true ↔
      (calls.filter (fun call => decide (call ≠ .chromium))).getLast? = some .fsmount := by
  induction calls using List.reverseRecOn with
  | nil => simp [Life.run, Life.start]
  | append_singleton calls call ih =>
    rw [Life.run_concat, List.filter_append]
    cases call with
    | fsmount =>
      cases hup : (Life.start.run calls).up <;> simp [Life.next, hup]
    | fsumount => simp
    | uninstall => simp [Life.next]
    | chromium =>
      -- a tmpfs more or less does not matter
      have hup : ((Life.start.run calls).next .chromium).up = (Life.start.run calls).up := by
        cases hdevs : (Life.start.run calls).devs with
        | nil =>
          cases hup : (Life.start.run calls).up with
          | false => simp [Life.next, hdevs]
          | true => exact absurd hdevs ((Life.start.run calls).up_made hup).1
        | cons shm devs => simp [Life.next, hdevs]
      rw [hup, ih]
      simp

/-- What a path of a tree lies in is the first mount of the tree on the way to it. -/
theorem Tells.holder_eq {s : Life} {ms : List (Mount Fs)} (h : Tells t₀ s ms) {top p : Path}
    (htop : top ∈ lifeTops) (hp : top <+: p) {m : Mount Fs} {tree : List (Mount Fs)}
    (htree : part top ms = tree)
    (hfind : tree.find? (fun e => decide (e.point <+: p)) = some m) :
    (layOn t₀ ms).holder p = m := by
  rw [holder_layOn (h.outermost htop) hp, htree, hfind]
  rfl

/-- In a chroot that is set up, every target shows its source. -/
theorem Tells.holder_wanted {s : Life} {ms : List (Mount Fs)} (h : Tells t₀ s ms)
    (hup : s.up = true) : ∀ m ∈ wanted t₀, (layOn t₀ ms).holder m.point = m := by
  obtain ⟨hdevs, hsetUps⟩ := s.up_made hup
  obtain ⟨shm, devs, hcons⟩ := List.exists_cons_of_ne_nil hdevs
  obtain ⟨k, hk⟩ := Nat.exists_eq_succ_of_ne_zero hsetUps
  intro m hm
  simp only [wanted, wantedAfter, wantedBefore, List.mem_append, List.mem_cons,
    List.not_mem_nil, or_false] at hm
  rcases hm with ((rfl | rfl | rfl | rfl | rfl | rfl | rfl | rfl) | hm) | (rfl | rfl)
  -- the binds of Android's trees: the newest three of the leftover ones
  · apply h.holder_eq (show udroid ∈ lifeTops by decide)
      (show udroid <+: udroidSdcard by decide) h.android
    simp [Life.udroidTree, hk, List.replicate_succ, androidBinds, boundAt]
  · apply h.holder_eq (show udroid ∈ lifeTops by decide)
      (show udroid <+: udroidSystem by decide) h.android
    simp [Life.udroidTree, hk, List.replicate_succ, androidBinds, boundAt]
  · apply h.holder_eq (show udroid ∈ lifeTops by decide)
      (show udroid <+: udroidData by decide) h.android
    simp [Life.udroidTree, hk, List.replicate_succ, androidBinds, boundAt]
  · apply h.holder_eq (show ubuntuTmp ∈ lifeTops by decide)
      (show ubuntuTmp <+: ubuntuTmp by decide) h.tmp
    simp [Life.tmpTree, hk, List.replicate_succ]
  -- the newest `/dev`, whether or not a tmpfs is on its `shm`
  · apply h.holder_eq (show ubuntuDev ∈ lifeTops by decide)
      (show ubuntuDev <+: ubuntuPts by decide) h.dev
    cases shm <;> simp [Life.devTree, hcons, devMounts, shmMount, boundAt]
  · apply h.holder_eq (show ubuntuDev ∈ lifeTops by decide)
      (show ubuntuDev <+: ubuntuDev by decide) h.dev
    cases shm <;> simp [Life.devTree, hcons, devMounts, shmMount, boundAt]
  · apply h.holder_eq (show ubuntuSys ∈ lifeTops by decide)
      (show ubuntuSys <+: ubuntuSelinux by decide) h.sys
    simp [Life.sysTree, hup, boundAt]
  · apply h.holder_eq (show ubuntuSys ∈ lifeTops by decide)
      (show ubuntuSys <+: ubuntuDebug by decide) h.sys
    simp [Life.sysTree, hup, boundAt]
  -- debugfs, which the first set-up mounted
  · have hdebug : m ∈ s.debugTree t₀ := by simpa [Life.debugTree, hsetUps] using hm
    rw [List.mem_singleton.mp (debugTree_points t₀ s m hdebug)]
    apply h.holder_eq (show sysDebug ∈ lifeTops by decide)
      (show sysDebug <+: sysDebug by decide) h.debug
    cases htop : t₀.onTop .debugfs sysDebug with
    | true => simp [debugMount, htop] at hm
    | false =>
      obtain rfl : m = ⟨sysDebug, .debugfs, [], false⟩ := by simpa [debugMount, htop] using hm
      simp [Life.debugTree, hsetUps, debugMount, htop]
  · apply h.holder_eq (show ubuntuSys ∈ lifeTops by decide)
      (show ubuntuSys <+: ubuntuSys by decide) h.sys
    simp [Life.sysTree, hup, boundAt]
  · apply h.holder_eq (show ubuntuProc ∈ lifeTops by decide)
      (show ubuntuProc <+: ubuntuProc by decide) h.proc
    simp [Life.procTree, hup, boundAt]

/-- After any history, `/data/ubuntu/proc` is mounted exactly if, shared memory mounts aside, the
last call was `fsmount`; and then every target of `fsmount` shows the source it had on the clean
table. -/
theorem set_up_iff (hclean : Clean t₀) (calls : List Call) :
    ((history t₀ calls).mountpoint ubuntuProc = true ↔
      (calls.filter (fun call => decide (call ≠ .chromium))).getLast? = some .fsmount) ∧
    ((history t₀ calls).mountpoint ubuntuProc = true →
      ∀ m ∈ wanted t₀, (history t₀ calls).holder m.point = m) := by
  obtain ⟨ms, htable, h⟩ := exists_tells hclean calls
  rw [htable, h.mountpoint_proc hclean]
  exact ⟨up_run_iff calls, h.holder_wanted⟩

theorem set_up_iff_bootTable :
    ((history bootTable dayCalls).mountpoint ubuntuProc = true ↔
      (dayCalls.filter (fun call => decide (call ≠ .chromium))).getLast? = some .fsmount) ∧
    ((history bootTable dayCalls).mountpoint ubuntuProc = true →
      ∀ m ∈ wanted bootTable, (history bootTable dayCalls).holder m.point = m) :=
  set_up_iff clean_bootTable dayCalls

/-! ## Section 7: Clearing the chroot -/

/-- The number of teardowns that still find something. -/
def Life.pending (s : Life) : Nat :=
  s.devs.length + s.shm.toNat

/-- Only tmpfs mounts on `/data/ubuntu/tmp` are left below `/data/ubuntu` when nothing is pending. -/
theorem Tells.onlyTmp_iff {s : Life} {ms : List (Mount Fs)} (hclean : Clean t₀)
    (h : Tells t₀ s ms) : OnlyTmp (layOn t₀ ms) ↔ s.pending = 0 := by
  constructor
  · intro honly
    -- a `/dev`, or a tmpfs on `shm`, would be there
    have hnone : s.devTree t₀ = [] := by
      rw [← h.dev, List.eq_nil_iff_forall_not_mem]
      intro m hm
      obtain ⟨hm, hbelow⟩ := mem_part.mp hm
      have hpoint : m.point = ubuntuTmp :=
        honly m (List.mem_append_left _ hm) (List.IsPrefix.trans (by decide) hbelow)
      rw [hpoint] at hbelow
      exact absurd hbelow (by decide)
    simp only [Life.devTree, List.append_eq_nil_iff, List.flatMap_eq_nil_iff] at hnone
    obtain ⟨hdevs, hshm⟩ := hnone
    have hlen : s.devs = [] := by
      rw [List.eq_nil_iff_forall_not_mem]
      intro shm hmem
      exact absurd (hdevs shm hmem) (by simp [devMounts])
    have hfalse : s.shm = false := by
      cases hs : s.shm with
      | false => rfl
      | true => simp [hs] at hshm
    simp [Life.pending, hlen, hfalse]
  · intro hpending
    obtain ⟨hlen, -⟩ := Nat.add_eq_zero_iff.mp hpending
    have hdevs : s.devs = [] := List.eq_nil_of_length_eq_zero hlen
    have hshm : s.shm = false := by
      cases hs : s.shm with
      | false => rfl
      | true => simp [Life.pending, hs] at hpending
    have hup : s.up = false := by
      cases hs : s.up with
      | false => rfl
      | true => exact absurd hdevs (s.up_made hs).1
    intro m hm hbelow
    rcases List.mem_append.mp hm with hm | hm
    · -- the mount would be in one of the three trees that are empty
      have hempty : ∀ top ∈ [ubuntuProc, ubuntuSys, ubuntuDev], part top ms = [] := by
        intro top htop
        simp only [List.mem_cons, List.not_mem_nil, or_false] at htop
        rcases htop with rfl | rfl | rfl
        · simp [h.proc, Life.procTree, hup]
        · simp [h.sys, Life.sysTree, hup]
        · simp [h.dev, Life.devTree, hdevs, hshm]
      have hall : ∀ p ∈ allTargets, ubuntu <+: p →
          p = ubuntuTmp ∨ ∃ top ∈ [ubuntuProc, ubuntuSys, ubuntuDev], top <+: p := by decide
      rcases hall m.point (h.points m hm) hbelow with hpoint | ⟨top, htop, hpre⟩
      · exact hpoint
      · have hmem : m ∈ part top ms := mem_part.mpr ⟨hm, hpre⟩
        rw [hempty top htop] at hmem
        simp at hmem
    · exact absurd hbelow (hclean.clearUbuntu m hm)

theorem Life.pending_fsumount (s : Life) : (s.next .fsumount).pending = s.pending - 1 := by
  cases hdevs : s.devs with
  | nil => cases hshm : s.shm <;> simp [Life.next, Life.pending, hdevs, hshm]
  | cons shm devs =>
    simp only [Life.next, Life.pending, hdevs, List.length_cons]
    omega

theorem Life.pending_fsumounts (s : Life) (n : Nat) :
    (s.run (List.replicate n .fsumount)).pending = s.pending - n := by
  induction n with
  | zero => rfl
  | succ n ih =>
    rw [List.replicate_succ', Life.run_concat, Life.pending_fsumount, ih]
    omega

/-- Only `uninstall.bat` leaves a `/dev` behind. -/
theorem devs_le_uninstalls (calls : List Call) :
    (Life.start.run calls).devs.length ≤
      calls.count .uninstall + (Life.start.run calls).up.toNat := by
  induction calls using List.reverseRecOn with
  | nil => simp [Life.run, Life.start]
  | append_singleton calls call ih =>
    rw [Life.run_concat, List.count_append]
    revert ih
    generalize Life.start.run calls = s
    intro ih
    cases call with
    | fsmount =>
      cases hup : s.up with
      | true => simpa [Life.next, hup] using ih
      | false =>
        simp only [hup, Bool.toNat_false] at ih
        simp only [Life.next, hup, Bool.false_eq_true, if_false, List.length_cons, Bool.toNat_true]
        omega
    | fsumount =>
      cases hdevs : s.devs with
      | nil => simp [Life.next, hdevs]
      | cons shm devs =>
        have hle : s.up.toNat ≤ 1 := Bool.toNat_le s.up
        simp only [hdevs, List.length_cons] at ih
        simp only [Life.next, hdevs, Bool.toNat_false]
        omega
    | uninstall =>
      have hle : s.up.toNat ≤ 1 := Bool.toNat_le s.up
      simp only [Life.next, List.count_singleton_self, Bool.toNat_false]
      omega
    | chromium =>
      cases hdevs : s.devs with
      | nil => simp [Life.next, hdevs]
      | cons shm devs =>
        simp only [hdevs, List.length_cons] at ih
        simp only [Life.next, hdevs, List.length_cons]
        omega

theorem history_append (t : MountTable Fs) (calls calls' : List Call) :
    history t (calls ++ calls') = history (history t calls) calls' :=
  List.foldl_append ..

theorem history_fsumounts (t : MountTable Fs) (n : Nat) :
    history t (List.replicate n .fsumount) = (fsumount .isolated)^[n] t := by
  induction n with
  | zero => rfl
  | succ n ih =>
    rw [List.replicate_succ', history_append, ih, Function.iterate_succ_apply']
    rfl

/-- After any history, some number of further teardowns is just what it takes until only tmpfs
mounts on `/data/ubuntu/tmp` are left below `/data/ubuntu`: at most one for each call of
`uninstall.bat`, one for the chroot that is set up, and one for the rootfs. -/
theorem cleared_iff (hclean : Clean t₀) (calls : List Call) :
    ∃ k ≤ calls.count .uninstall + 2, ∀ n,
      OnlyTmp ((fsumount .isolated)^[n] (history t₀ calls)) ↔ k ≤ n := by
  have hdevs := devs_le_uninstalls calls
  have hup : (Life.start.run calls).up.toNat ≤ 1 := Bool.toNat_le _
  have hshm : (Life.start.run calls).shm.toNat ≤ 1 := Bool.toNat_le _
  refine ⟨(Life.start.run calls).pending, by simp only [Life.pending]; omega, fun n => ?_⟩
  obtain ⟨ms, htable, h⟩ := exists_tells hclean (calls ++ List.replicate n .fsumount)
  have hrun : Life.start.run (calls ++ List.replicate n .fsumount) =
      (Life.start.run calls).run (List.replicate n .fsumount) := List.foldl_append ..
  rw [← history_fsumounts, ← history_append, htable, h.onlyTmp_iff hclean, hrun,
    Life.pending_fsumounts]
  omega

theorem cleared_iff_bootTable :
    ∃ k ≤ dayCalls.count .uninstall + 2, ∀ n,
      OnlyTmp ((fsumount .isolated)^[n] (history bootTable dayCalls)) ↔ k ≤ n :=
  cleared_iff clean_bootTable dayCalls

end Udroid.Mounts
