import Udroid.Mounts.Scripts
import Udroid.Unix.MountLayer

/-!
# Converging to a complete set-up

`fsmount` decides by one test of `/data/ubuntu/proc` whether it has anything to do.  A run
may be cut off after any of its commands, and any of its mounts may fail; `fsumount` takes
part of the mounts away.  `Settled` says, of the table left by such a history, exactly when
one more complete run of `fsmount` ends in the table of a single run on the clean table.

- `Layer`: all a history leaves is a list of mounts on the targets, layOn the clean table.
- `fsmount_converges_iff`: one more run converges exactly from a settled table.
-/

namespace Udroid.Mounts

open Udroid.Unix Udroid.Unix.MountTable

/-! ## Section 1: Interrupted and failing runs -/

/-- What befalls a run of `fsmount`: it stops after `cut` of its commands, and the mounts at
the positions `fails` fail. -/
structure Attempt where
  cut : Nat
  fails : Nat → Bool

/-- The commands of the attempt that take effect. -/
def attemptBody (a : Attempt) : List (Cmd Fs) :=
  ((fsmountBody.take a.cut).zipIdx.filter (fun ci => !(ci.1.isMount && a.fails ci.2))).map (·.1)

/-- `fsmount`, cut off or with failing mounts. -/
def fsmountAttempt (a : Attempt) (t : MountTable Fs) : MountTable Fs :=
  if t.mountpoint ubuntuProc then t else t.run .isolated (attemptBody a)

/-- The tables reached from `t₀` by attempts of `fsmount` and runs of `fsumount`. -/
inductive PartlySetUp (t₀ : MountTable Fs) : MountTable Fs → Prop where
  | start : PartlySetUp t₀ t₀
  | fsmount {t : MountTable Fs} (a : Attempt) :
      PartlySetUp t₀ t → PartlySetUp t₀ (fsmountAttempt a t)
  | fsumount {t : MountTable Fs} : PartlySetUp t₀ t → PartlySetUp t₀ (fsumount .isolated t)

theorem mem_of_mem_attemptBody {a : Attempt} {c : Cmd Fs} (hc : c ∈ attemptBody a) :
    c ∈ fsmountBody := by
  simp only [attemptBody, List.mem_map, List.mem_filter] at hc
  obtain ⟨⟨d, i⟩, ⟨hmem, -⟩, rfl⟩ := hc
  exact List.mem_of_mem_take (List.fst_mem_of_mem_zipIdx hmem)

/-- An attempt that nothing befalls is a complete run. -/
theorem fsmountAttempt_complete (t : MountTable Fs) :
    fsmountAttempt ⟨fsmountBody.length, fun _ => false⟩ t = fsmount .isolated t := by
  have hbody : attemptBody ⟨fsmountBody.length, fun _ => false⟩ = fsmountBody := by decide
  rw [fsmountAttempt, fsmount, hbody]

/-! ## Section 2: What a history leaves -/

/-- The points `fsmount` mounts on. -/
def targets : List Path :=
  [ ubuntuProc, ubuntuSys, sysDebug, ubuntuDebug, ubuntuSelinux, ubuntuDev, ubuntuPts, ubuntuTmp,
    udroidData, udroidSystem, udroidSdcard ]

/-- The debugfs mounts of a list. -/
def debugMounts (ms : List (Mount Fs)) : List (Mount Fs) :=
  ms.filter (fun m => decide (m.point = sysDebug))

/-- The list `ms` is what a history has put over `t₀`: mounts on the targets only, and on
`/sys/kernel/debug` nothing but one debugfs, where `t₀` has none on top. -/
structure Layer (t₀ : MountTable Fs) (ms : List (Mount Fs)) : Prop where
  points : ∀ m ∈ ms, m.point ∈ targets
  debug : debugMounts ms = [] ∨ debugMounts ms = debugMount t₀

/-- The table of a layer. -/
def layOn (t₀ : MountTable Fs) (ms : List (Mount Fs)) : MountTable Fs :=
  ⟨t₀.rootfs, ms ++ t₀.mounts⟩

variable {t₀ : MountTable Fs}

theorem Layer.nil : Layer t₀ [] := ⟨by simp, Or.inl rfl⟩

/-- A bind or a tmpfs on a target other than `/sys/kernel/debug` stays within the layer. -/
theorem Layer.cons {ms : List (Mount Fs)} (h : Layer t₀ ms) {m : Mount Fs}
    (hpoint : m.point ∈ targets) (hne : m.point ≠ sysDebug) : Layer t₀ (m :: ms) where
  points := by
    intro e he
    rcases List.mem_cons.mp he with rfl | he
    · exact hpoint
    · exact h.points e he
  debug := by simpa [debugMounts, hne] using h.debug

/-- A list with the same debugfs mounts, and points of the layer, is a layer. -/
theorem Layer.of_points {ms ms' : List (Mount Fs)} (h : Layer t₀ ms)
    (hpoints : ∀ m ∈ ms', ∃ e ∈ ms, e.point = m.point)
    (hdebug : debugMounts ms' = debugMounts ms) : Layer t₀ ms' where
  points := by
    intro m hm
    obtain ⟨e, he, hpoint⟩ := hpoints m hm
    exact hpoint ▸ h.points e he
  debug := hdebug ▸ h.debug

/-- Over a layer, debugfs is on top of `/sys/kernel/debug` when the layer has one, and else
when it is on top in the table below. -/
theorem Layer.onTop_layOn {ms : List (Mount Fs)} (h : Layer t₀ ms) :
    (layOn t₀ ms).onTop .debugfs sysDebug =
      (t₀.onTop .debugfs sysDebug || !(debugMounts ms).isEmpty) := by
  have hway : ms.filter (fun m => decide (m.point <+: sysDebug)) = debugMounts ms := by
    refine List.filter_congr ?_
    intro m hm
    have hpre : ∀ p ∈ targets, (p <+: sysDebug ↔ p = sysDebug) := by decide
    simp [hpre m.point (h.points m hm)]
  have hholder : (layOn t₀ ms).holder sysDebug =
      ((debugMounts ms).head?.or (t₀.chain sysDebug).head?).getD ⟨[], t₀.rootfs, [], false⟩ := by
    rw [holder_eq_head_chain, layOn, chain, List.filter_append, hway, List.head?_append, chain]
  cases htop : t₀.onTop .debugfs sysDebug with
  | true =>
    -- there is debugfs already, so the layer has none
    have hempty : debugMounts ms = [] := by
      rcases h.debug with hd | hd <;> simpa [debugMount, htop] using hd
    have hsame : (layOn t₀ ms).holder sysDebug = t₀.holder sysDebug := by
      rw [hholder, hempty, holder_eq_head_chain]
      rfl
    simpa [onTop, hsame] using htop
  | false =>
    rcases h.debug with hd | hd
    · have hsame : (layOn t₀ ms).holder sysDebug = t₀.holder sysDebug := by
        rw [hholder, hd, holder_eq_head_chain]
        rfl
      simpa [onTop, hsame, hd] using htop
    · have hsame : (layOn t₀ ms).holder sysDebug = ⟨sysDebug, .debugfs, [], false⟩ := by
        rw [hholder, hd]
        simp [debugMount, htop]
      have hup : (layOn t₀ ms).onTop .debugfs sysDebug = true := by simp [onTop, hsame]
      simp [hup, hd, debugMount, htop]

/-! ## Section 3: Every command keeps to the layer -/

/-- A remount changes flags in the layer only, since nothing below it is mounted on `p`. -/
theorem remountList_append {ro : Bool} {p : Path} (ms : List (Mount Fs)) {base : List (Mount Fs)}
    (hbase : ∀ m ∈ base, m.point ≠ p) :
    remountList ro p (ms ++ base) = remountList ro p ms ++ base := by
  induction ms with
  | nil =>
    induction base with
    | nil => rfl
    | cons m base ih =>
      have hrest := ih (fun e he => hbase e (List.mem_cons_of_mem _ he))
      simp only [List.nil_append, remountList] at hrest ⊢
      simp only [hbase m (by simp), if_false, hrest, ite_self]
  | cons m ms ih =>
    simp only [List.cons_append, remountList]
    split
    · split <;> rfl
    · rw [ih, List.cons_append]

theorem debugMounts_remountList {ro : Bool} {p : Path} (hp : p ≠ sysDebug) (ms : List (Mount Fs)) :
    debugMounts (remountList ro p ms) = debugMounts ms := by
  induction ms with
  | nil => rfl
  | cons m ms ih =>
    simp only [remountList]
    split
    · split
      · rename_i hpoint
        have hne : m.point ≠ sysDebug := hpoint ▸ hp
        simp [debugMounts, hne]
      · rfl
    · simp only [debugMounts, List.filter_cons] at ih ⊢
      rw [ih]

/-- A pop takes a mount of the layer away, since nothing below it is mounted on `p`. -/
theorem Layer.pop {ms : List (Mount Fs)} (h : Layer t₀ ms) {p : Path}
    (hbase : ∀ m ∈ t₀.mounts, m.point ≠ p) (hp : p ≠ sysDebug) :
    ∃ ms', (layOn t₀ ms).pop p = layOn t₀ ms' ∧ Layer t₀ ms' := by
  unfold MountTable.pop
  split
  -- the mount that goes is in the layer, or in the table below: by `hbase` not there
  · rename_i rest hrest
    obtain ⟨newer, m, older, hsplit, rfl, hpoint, -⟩ := popList_eq_some hrest
    have hnot : m ∉ t₀.mounts := fun hm => hbase m hm hpoint
    simp only [layOn] at hsplit
    rcases List.append_eq_append_iff.mp hsplit with ⟨x, hnewer, hbaseSplit⟩ | ⟨x, hms, hrest'⟩
    · -- the mount would be one of the table below
      exact absurd (hbaseSplit ▸ List.mem_append_right x (List.mem_cons_self ..)) hnot
    · cases x with
      | nil =>
        simp only [List.nil_append] at hrest'
        exact absurd (hrest' ▸ List.mem_cons_self ..) hnot
      | cons e x =>
        simp only [List.cons_append, List.cons.injEq] at hrest'
        obtain ⟨rfl, rfl⟩ := hrest'
        refine ⟨newer ++ x, by simp [layOn], h.of_points ?_ ?_⟩
        · intro e he
          refine ⟨e, ?_, rfl⟩
          rw [hms]
          simp only [List.mem_append, List.mem_cons] at he ⊢
          exact he.imp_right Or.inr
        · have hne : m.point ≠ sysDebug := hpoint ▸ hp
          simp [debugMounts, hms, hne]
  · exact ⟨ms, rfl, h⟩

/-- What a command of `fsmount` is: a bind on a target, debugfs or a tmpfs on its own target, a
remount below `/data/ubuntu`, or a `mkdir`. -/
def isSetUp : Cmd Fs → Bool
  | .bind _ tgt => decide (tgt ∈ targets ∧ tgt ≠ sysDebug)
  | .mountType fs tgt => decide ((fs = .debugfs ∧ tgt = sysDebug) ∨ (fs = .tmpfs ∧ tgt = ubuntuTmp))
  | .remount _ tgt => decide (ubuntu <+: tgt)
  | .mkdir _ => true
  | .umount _ => false

theorem isSetUp_of_mem : ∀ c ∈ fsmountBody, isSetUp c = true := by decide

theorem Clean.ne_of_below_ubuntu (hclean : Clean t₀) {p : Path} (hp : ubuntu <+: p) :
    ∀ m ∈ t₀.mounts, m.point ≠ p :=
  fun m hm hpoint => hclean.clearUbuntu m hm (hpoint ▸ hp)

/-- Step lemma: a command of `fsmount` works on the layer. -/
theorem Layer.exec {ms : List (Mount Fs)} (hclean : Clean t₀) (h : Layer t₀ ms) {c : Cmd Fs}
    (hc : c ∈ fsmountBody) :
    ∃ ms', (layOn t₀ ms).exec .isolated c = layOn t₀ ms' ∧ Layer t₀ ms' := by
  have hset := isSetUp_of_mem c hc
  cases c with
  | bind src tgt =>
    simp only [isSetUp, decide_eq_true_eq] at hset
    exact ⟨_, rfl, h.cons hset.1 hset.2⟩
  | mountType fs tgt =>
    simp only [isSetUp, decide_eq_true_eq] at hset
    rcases hset with ⟨rfl, rfl⟩ | ⟨rfl, rfl⟩
    -- debugfs: on top already, so that the command fails, or the first of the layer
    · simp only [MountTable.exec, mountType_debugfs, h.onTop_layOn]
      split
      · exact ⟨ms, rfl, h⟩
      · rename_i htop
        simp only [Bool.or_eq_true, Bool.not_eq_true', not_or] at htop
        have hempty : debugMounts ms = [] := by simpa using htop.2
        refine ⟨⟨sysDebug, .debugfs, [], false⟩ :: ms, rfl, ?_, Or.inr ?_⟩
        · intro e he
          rcases List.mem_cons.mp he with rfl | he
          · decide
          · exact h.points e he
        · have hrest : ms.filter (fun m => decide (m.point = sysDebug)) = [] := hempty
          simp [debugMounts, hrest, debugMount, htop.1]
    -- the tmpfs goes on top of whatever is there
    · exact ⟨⟨ubuntuTmp, .tmpfs, [], false⟩ :: ms, by simp [MountTable.exec, mountType,
        FsType.exclusive, push, layOn], h.cons (by decide) (by decide)⟩
  | remount ro tgt =>
    simp only [isSetUp, decide_eq_true_eq] at hset
    have hne : tgt ≠ sysDebug := by
      intro heq
      subst heq
      exact absurd hset (by decide)
    refine ⟨remountList ro tgt ms, ?_, h.of_points ?_ (debugMounts_remountList hne ms)⟩
    · simp only [MountTable.exec, remount, layOn,
        remountList_append ms (hclean.ne_of_below_ubuntu hset)]
    · exact fun m hm => point_mem_of_mem_remountList hm
  | mkdir dir => exact ⟨ms, rfl, h⟩
  | umount tgt => simp [isSetUp] at hset

/-- Run lemma: so does a script of such commands. -/
theorem Layer.run (hclean : Clean t₀) {script : List (Cmd Fs)}
    (hscript : ∀ c ∈ script, c ∈ fsmountBody) {ms : List (Mount Fs)} (h : Layer t₀ ms) :
    ∃ ms', (layOn t₀ ms).run .isolated script = layOn t₀ ms' ∧ Layer t₀ ms' := by
  induction script generalizing ms with
  | nil => exact ⟨ms, rfl, h⟩
  | cons c cs ih =>
    obtain ⟨ms₁, hexec, h₁⟩ := h.exec hclean (hscript c (by simp))
    obtain ⟨ms₂, hrun, h₂⟩ := ih (fun d hd => hscript d (List.mem_cons_of_mem _ hd)) h₁
    refine ⟨ms₂, ?_, h₂⟩
    rw [← hrun, ← hexec]
    rfl

theorem Layer.umounts (hclean : Clean t₀) {ps : List Path} (hps : ∀ p ∈ ps, ubuntu <+: p)
    {ms : List (Mount Fs)} (h : Layer t₀ ms) :
    ∃ ms', (layOn t₀ ms).run .isolated (ps.map .umount) = layOn t₀ ms' ∧ Layer t₀ ms' := by
  induction ps generalizing ms with
  | nil => exact ⟨ms, rfl, h⟩
  | cons p ps ih =>
    have hp : ubuntu <+: p := hps p (by simp)
    have hne : p ≠ sysDebug := by
      intro heq
      subst heq
      exact absurd hp (by decide)
    obtain ⟨ms₁, hpop, h₁⟩ := h.pop (hclean.ne_of_below_ubuntu hp) hne
    obtain ⟨ms₂, hrun, h₂⟩ := ih (fun q hq => hps q (List.mem_cons_of_mem _ hq)) h₁
    refine ⟨ms₂, ?_, h₂⟩
    rw [← hrun, ← hpop, ← umount_isolated]
    rfl

/-- Every history leaves a layer over the clean table. -/
theorem PartlySetUp.layer (hclean : Clean t₀) {t : MountTable Fs} (h : PartlySetUp t₀ t) :
    ∃ ms, t = layOn t₀ ms ∧ Layer t₀ ms := by
  induction h with
  | start => exact ⟨[], rfl, Layer.nil⟩
  | fsmount a _ ih =>
    obtain ⟨ms, rfl, hlayer⟩ := ih
    unfold fsmountAttempt
    split
    · exact ⟨ms, rfl, hlayer⟩
    · exact hlayer.run hclean (fun c hc => mem_of_mem_attemptBody hc)
  | fsumount _ ih =>
    obtain ⟨ms, rfl, hlayer⟩ := ih
    exact hlayer.umounts hclean (by decide)

/-! ## Section 4: The mounts of a complete run -/

/-- The points of the wanted mounts, newest first. -/
theorem wanted_map_point (t : MountTable Fs) :
    (wanted t).map (·.point) =
      [ udroidSdcard, udroidSystem, udroidData, ubuntuTmp, ubuntuPts, ubuntuDev, ubuntuSelinux,
        ubuntuDebug ] ++
      (if t.onTop .debugfs sysDebug then [] else [sysDebug]) ++ [ubuntuSys, ubuntuProc] := by
  cases htop : t.onTop .debugfs sysDebug <;>
    simp [wanted, wantedAfter, wantedBefore, boundAt, debugMount, htop]

/-- No wanted mount hides an earlier one. -/
theorem uncovered_wanted (t : MountTable Fs) : Uncovered (wanted t) := by
  have hpoints : ((wanted t).map (·.point)).Pairwise (fun newer older => ¬ newer <+: older) := by
    rw [wanted_map_point]
    cases t.onTop .debugfs sysDebug <;> decide
  exact List.pairwise_map.mp hpoints

/-- A target is the point of a wanted mount, unless it is `/sys/kernel/debug` with debugfs on top
already. -/
theorem exists_wanted {t : MountTable Fs} {p : Path} (hp : p ∈ targets)
    (hdebug : p = sysDebug → t.onTop .debugfs sysDebug = false) : ∃ m ∈ wanted t, m.point = p := by
  have hmem : p ∈ (wanted t).map (·.point) := by
    rw [wanted_map_point]
    by_cases hpd : p = sysDebug
    · subst hpd
      rw [hdebug rfl]
      decide
    · have hrest : ∀ q ∈ targets, q ≠ sysDebug →
          q ∈ [udroidSdcard, udroidSystem, udroidData, ubuntuTmp, ubuntuPts, ubuntuDev,
            ubuntuSelinux, ubuntuDebug] ∨ q ∈ [ubuntuSys, ubuntuProc] := by decide
      simp only [List.mem_append]
      exact (hrest p hp hpd).imp_left Or.inl
  obtain ⟨m, hm, rfl⟩ := List.mem_map.mp hmem
  exact ⟨m, hm, rfl⟩

theorem mem_targets_of_wanted {t : MountTable Fs} {m : Mount Fs} (hm : m ∈ wanted t) :
    m.point ∈ targets := by
  have hmem : m.point ∈ (wanted t).map (·.point) := List.mem_map_of_mem hm
  rw [wanted_map_point] at hmem
  revert hmem
  generalize m.point = p
  cases t.onTop .debugfs sysDebug
  · have hall : ∀ p ∈ [udroidSdcard, udroidSystem, udroidData, ubuntuTmp, ubuntuPts, ubuntuDev,
        ubuntuSelinux, ubuntuDebug] ++ [sysDebug] ++ [ubuntuSys, ubuntuProc], p ∈ targets := by decide
    exact hall p
  · have hall : ∀ p ∈ [udroidSdcard, udroidSystem, udroidData, ubuntuTmp, ubuntuPts, ubuntuDev,
        ubuntuSelinux, ubuntuDebug] ++ [] ++ [ubuntuSys, ubuntuProc], p ∈ targets := by decide
    exact hall p

/-- Where its test lets it through, `fsmount` puts the wanted mounts over the table. -/
theorem fsmount_eq_layOn {t : MountTable Fs} (hproc : t.mountpoint ubuntuProc = false) :
    fsmount .isolated t = layOn t (wanted t) := by
  simp only [fsmount, hproc, Bool.false_eq_true, if_false, fsmountBody_isolated, layOn]

theorem depth_layOn (ms : List (Mount Fs)) (p : Path) :
    (layOn t₀ ms).depth p = ms.countP (fun m => decide (m.point = p)) + t₀.depth p := by
  simp [depth, layOn, List.countP_append]

/-! ## Section 5: Settled tables -/

/-- The condition on a table for one more complete run to converge.  When `/data/ubuntu/proc` is
mounted the run will not do anything, so each wanted mount has to be on top of its target
already, and be the only one that was added there; else nothing may have been added to any
target but `/sys/kernel/debug`. -/
def Settled (t₀ t : MountTable Fs) : Prop :=
  if t.mountpoint ubuntuProc then
    ∀ m ∈ wanted t₀, t.holder m.point = m ∧ t.depth m.point = t₀.depth m.point + 1
  else
    ∀ m ∈ wanted t₀, m.point ≠ sysDebug → t.depth m.point = t₀.depth m.point

instance (t₀ t : MountTable Fs) : Decidable (Settled t₀ t) := by
  unfold Settled
  infer_instance

theorem holder_wanted {m : Mount Fs} (hm : m ∈ wanted t₀) :
    (layOn t₀ (wanted t₀)).holder m.point = m := by
  rw [holder, layOn, (uncovered_wanted t₀).find? hm]
  rfl

/-- The points of a layer are points of wanted mounts. -/
theorem Layer.exists_wanted {ms : List (Mount Fs)} (h : Layer t₀ ms) {e : Mount Fs} (he : e ∈ ms) :
    ∃ m ∈ wanted t₀, m.point = e.point := by
  refine Mounts.exists_wanted (h.points e he) ?_
  intro hpoint
  have hmem : e ∈ debugMounts ms := by simp [debugMounts, he, hpoint]
  cases htop : t₀.onTop .debugfs sysDebug with
  | false => rfl
  | true =>
    rcases h.debug with hd | hd <;> simp [hd, debugMount, htop] at hmem

/-- A layer that is the wanted mounts, as a tree, is one with each of them on top of its target
and alone there. -/
theorem Layer.same_wanted_iff {ms : List (Mount Fs)} (h : Layer t₀ ms) :
    (layOn t₀ ms).Same (layOn t₀ (wanted t₀)) ↔
      ∀ m ∈ wanted t₀, (layOn t₀ ms).holder m.point = m ∧
        (layOn t₀ ms).depth m.point = t₀.depth m.point + 1 := by
  constructor
  · intro hsame m hm
    refine ⟨(hsame.holder_eq m.point).trans (holder_wanted hm), ?_⟩
    rw [hsame.depth_eq, depth_layOn, (uncovered_wanted t₀).countP hm, Nat.add_comm]
  · intro hall
    have hcount : ∀ m ∈ wanted t₀, ms.countP (fun e => decide (e.point = m.point)) = 1 := by
      intro m hm
      have hdepth := (hall m hm).2
      rw [depth_layOn] at hdepth
      omega
    -- the newest mount on the way to a target is the one that is wanted there
    have hhead : ∀ m ∈ wanted t₀,
        (ms.filter (fun e => decide (e.point <+: m.point))).head? = some m := by
      intro m hm
      obtain ⟨e, he, hpoint⟩ := List.countP_pos_iff.mp (by rw [hcount m hm]; exact Nat.one_pos)
      have hmem : e ∈ ms.filter (fun e => decide (e.point <+: m.point)) := by
        simp [he, of_decide_eq_true hpoint]
      have hholder := (hall m hm).1
      rw [holder_eq_head_chain, chain, layOn, List.filter_append] at hholder
      cases hway : ms.filter (fun e => decide (e.point <+: m.point)) with
      | nil => simp [hway] at hmem
      | cons x rest => simpa [hway] using hholder
    -- so the two layers have the same mounts on the way to every path
    have hways : ∀ p, ms.filter (fun e => decide (e.point <+: p)) =
        (wanted t₀).filter (fun e => decide (e.point <+: p)) := by
      have hroot : [] ∉ (wanted t₀).map (·.point) := by
        intro hnil
        obtain ⟨m, hm, hpoint⟩ := List.mem_map.mp hnil
        have htarget := mem_targets_of_wanted hm
        rw [hpoint] at htarget
        exact absurd htarget (by decide)
      refine filter_eq_of_heads hroot ?_ ?_ ?_
      · intro e he
        obtain ⟨m, hm, hpoint⟩ := h.exists_wanted he
        exact hpoint ▸ List.mem_map_of_mem hm
      · exact fun e he => List.mem_map_of_mem he
      · intro k hk
        obtain ⟨m, hm, rfl⟩ := List.mem_map.mp hk
        refine ⟨m, rfl, hcount m hm, (uncovered_wanted t₀).countP hm, hhead m hm, ?_⟩
        have hfind := (uncovered_wanted t₀).find? hm []
        rwa [List.append_nil, ← List.head?_filter] at hfind
    refine ⟨rfl, fun p => ?_⟩
    simp only [chain, layOn, List.filter_append, hways p]

/-- A second set-up over nothing but debugfs gives what the first would have given. -/
theorem same_fsmount_of_debug (htop : t₀.onTop .debugfs sysDebug = false) :
    (layOn (layOn t₀ (debugMount t₀)) (wanted (layOn t₀ (debugMount t₀)))).Same
      (layOn t₀ (wanted t₀)) := by
  have hdebug : debugMount t₀ = [⟨sysDebug, .debugfs, [], false⟩] := by simp [debugMount, htop]
  -- with debugfs on top the second set-up leaves that mount out and makes all the others
  have hpush : layOn t₀ (debugMount t₀) = t₀.push ⟨sysDebug, .debugfs, [], false⟩ := by
    rw [hdebug]
    rfl
  have hup : (t₀.push ⟨sysDebug, .debugfs, [], false⟩).onTop .debugfs sysDebug = true := by
    simp [onTop]
  have hwanted : wanted (layOn t₀ (debugMount t₀)) = wantedAfter t₀ ++ wantedBefore t₀ := by
    rw [hpush]
    simp (disch := decide) only [wanted, wantedAfter, wantedBefore, boundAt, debugMount, hup,
      if_true, locate_push_of_not_below, List.append_nil]
  refine ⟨rfl, fun p => ?_⟩
  rw [hwanted, wanted, hdebug]
  -- the two layers differ by the place of debugfs, below or above the mounts made before it,
  -- none of which is on the way to `/sys/kernel/debug` or behind it
  have hpoints : ∀ q ∈ (wantedBefore t₀).map (·.point), ¬ q <+: sysDebug ∧ ¬ sysDebug <+: q := by
    have hmap : (wantedBefore t₀).map (·.point) = [ubuntuSys, ubuntuProc] := rfl
    rw [hmap]
    decide
  have hapart : ∀ e ∈ wantedBefore t₀, ¬ e.point <+: sysDebug ∧ ¬ sysDebug <+: e.point :=
    fun e he => hpoints e.point (List.mem_map_of_mem he)
  have hmove := filter_move (m := (⟨sysDebug, .debugfs, [], false⟩ : Mount Fs)) hapart p
  simp only [chain, layOn, List.filter_append, List.append_assoc]
  rw [← List.append_assoc (List.filter _ [_]), hmove, List.append_assoc]

/-- A layer that adds nothing to any target but `/sys/kernel/debug` is empty, or debugfs. -/
theorem Layer.eq_nil_or_debug {ms : List (Mount Fs)} (h : Layer t₀ ms)
    (hall : ∀ m ∈ wanted t₀, m.point ≠ sysDebug →
      (layOn t₀ ms).depth m.point = t₀.depth m.point) :
    ms = [] ∨ t₀.onTop .debugfs sysDebug = false ∧ ms = debugMount t₀ := by
  -- any other mount of the layer would raise the depth of its target
  have hdebug : ∀ e ∈ ms, e.point = sysDebug := by
    intro e he
    by_contra hne
    obtain ⟨m, hm, hpoint⟩ := h.exists_wanted he
    have hdepth := hall m hm (hpoint ▸ hne)
    rw [depth_layOn] at hdepth
    have hzero : ms.countP (fun x => decide (x.point = m.point)) = 0 := by omega
    rw [List.countP_eq_zero] at hzero
    exact hzero e he (by simp [hpoint])
  have hms : debugMounts ms = ms := by
    rw [debugMounts, List.filter_eq_self]
    intro e he
    simp [hdebug e he]
  have hlayer := h.debug
  rw [hms] at hlayer
  cases htop : t₀.onTop .debugfs sysDebug with
  | true => exact Or.inl (by simpa [debugMount, htop] using hlayer)
  | false => exact hlayer.imp id fun hd => ⟨rfl, hd⟩

/-! ## Section 6: Convergence -/

/-- From any table a history of interrupted or failing set-ups and of teardowns leaves, one more
complete run of `fsmount` gives the table of a single run on the clean table exactly when the
table is settled. -/
theorem fsmount_converges_iff {t : MountTable Fs} (hclean : Clean t₀) (hreach : PartlySetUp t₀ t) :
    (fsmount .isolated t).Same (fsmount .isolated t₀) ↔ Settled t₀ t := by
  obtain ⟨ms, rfl, hlayer⟩ := hreach.layer hclean
  have hproc₀ : t₀.mountpoint ubuntuProc = false :=
    mountpoint_eq_false_of_clearAt hclean.clearUbuntu (by decide)
  rw [fsmount_eq_layOn hproc₀]
  cases hproc : (layOn t₀ ms).mountpoint ubuntuProc with
  | true =>
    -- the run does nothing
    have hrun : fsmount .isolated (layOn t₀ ms) = layOn t₀ ms := by simp [fsmount, hproc]
    simp only [hrun, hlayer.same_wanted_iff, Settled, hproc, if_true]
  | false =>
    -- the run adds a layer of its own
    rw [fsmount_eq_layOn hproc]
    simp only [Settled, hproc, Bool.false_eq_true, if_false]
    constructor
    -- the new layer puts one mount on every target, so nothing was there before it
    · intro hsame m hm hne
      have hdepth := hsame.depth_eq m.point
      obtain ⟨m', hm', hpoint⟩ := exists_wanted (t := layOn t₀ ms) (mem_targets_of_wanted hm)
        (fun h => absurd h hne)
      have hcount : (wanted (layOn t₀ ms)).countP (fun e => decide (e.point = m.point)) = 1 := by
        rw [← hpoint]
        exact (uncovered_wanted _).countP hm'
      rw [depth_layOn, depth_layOn (wanted t₀), hcount, (uncovered_wanted t₀).countP hm] at hdepth
      omega
    · intro hall
      rcases hlayer.eq_nil_or_debug hall with rfl | ⟨htop, rfl⟩
      · exact Same.refl _
      · exact same_fsmount_of_debug htop

/-- A phone that has just booted, after a set-up cut off behind its first bind. -/
def cutTable : MountTable Fs :=
  fsmountAttempt ⟨1, fun _ => false⟩ bootTable

/-- The same phone, after a complete set-up and a teardown. -/
def tornTable : MountTable Fs :=
  fsumount .isolated (fsmountAttempt ⟨fsmountBody.length, fun _ => false⟩ bootTable)

theorem fsmount_converges_iff_cutTable :
    (fsmount .isolated cutTable).Same (fsmount .isolated bootTable) ↔ Settled bootTable cutTable :=
  fsmount_converges_iff clean_bootTable (.fsmount _ .start)

/-- After the cut the next run does nothing, so `/data/ubuntu/sys` stays unmounted; after the
teardown the next run stacks a second tmpfs on `/data/ubuntu/tmp`. -/
theorem fsmount_does_not_converge :
    Clean bootTable ∧
      (PartlySetUp bootTable cutTable ∧
        ¬ (fsmount .isolated cutTable).Same (fsmount .isolated bootTable)) ∧
      (PartlySetUp bootTable tornTable ∧
        ¬ (fsmount .isolated tornTable).Same (fsmount .isolated bootTable)) := by
  refine ⟨clean_bootTable, ⟨.fsmount _ .start, ?_⟩, ⟨.fsumount (.fsmount _ .start), ?_⟩⟩
  · intro hsame
    exact absurd (hsame.depth_eq ubuntuSys) (by decide)
  · intro hsame
    exact absurd (hsame.depth_eq ubuntuTmp) (by decide)

end Udroid.Mounts
