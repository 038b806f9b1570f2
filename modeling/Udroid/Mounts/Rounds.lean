import Udroid.Mounts.Scripts

/-!
# Rounds of set-up and teardown

`fsumount` is kept by hand beside `fsmount`.  It unmounts `/data/ubuntu/sdcard` and
`/data/ubuntu/system`, where nothing is mounted any more, and it does not know
`/data/ubuntu/tmp`, `/dev/block/udroid/*` and the debugfs of `/sys/kernel/debug`.

- `rounds_same_iff`: whatever the propagation, only zero rounds give the table back.
- `rounds_isolated`: without propagation, each round leaves four more mounts.
-/

namespace Udroid.Mounts

open Udroid.Unix Udroid.Unix.MountTable

/-- One round: `fsmount`, then `fsumount`. -/
def round (prop : Propagation Fs) (t : MountTable Fs) : MountTable Fs :=
  fsumount prop (fsmount prop t)

/-- `n` rounds. -/
def rounds (prop : Propagation Fs) (n : Nat) (t : MountTable Fs) : MountTable Fs :=
  (round prop)^[n] t

/-! ## Section 1: The stack on `/data/ubuntu/tmp` -/

theorem fsmountBody_no_umount : ∀ c ∈ fsmountBody, ∀ p, c ≠ .umount p := by
  simp [fsmountBody]

theorem depth_le_fsmount (prop : Propagation Fs) (t : MountTable Fs) (q : Path) :
    t.depth q ≤ (fsmount prop t).depth q := by
  unfold fsmount
  split
  · exact Nat.le_refl _
  · exact depth_le_run prop q fsmountBody_no_umount t

/-- No line of `fsumount`, and no repeat of one, ends in `tmp`. -/
theorem depth_tmp_fsumount (prop : Propagation Fs) (t : MountTable Fs) :
    (fsumount prop t).depth ubuntuTmp = t.depth ubuntuTmp :=
  depth_run_umounts prop (by decide) t

theorem depth_tmp_le_round (prop : Propagation Fs) (t : MountTable Fs) :
    t.depth ubuntuTmp ≤ (round prop t).depth ubuntuTmp := by
  rw [round, depth_tmp_fsumount]
  exact depth_le_fsmount prop t ubuntuTmp

/-- Where its test lets it through, `fsmount` stacks a tmpfs on `/data/ubuntu/tmp`. -/
theorem depth_tmp_lt_round {prop : Propagation Fs} {t : MountTable Fs}
    (hproc : t.mountpoint ubuntuProc = false) :
    t.depth ubuntuTmp < (round prop t).depth ubuntuTmp := by
  rw [round, depth_tmp_fsumount, fsmount, hproc]
  simp only [Bool.false_eq_true, if_false]
  -- the lines before the tmpfs line, the line itself, and the lines after it
  obtain ⟨before, after, hsplit⟩ : ∃ before after,
      fsmountBody = before ++ .mountType .tmpfs ubuntuTmp :: after :=
    List.append_of_mem (by simp [fsmountBody])
  have hno : ∀ c ∈ before ++ .mountType .tmpfs ubuntuTmp :: after, ∀ p, c ≠ .umount p :=
    hsplit ▸ fsmountBody_no_umount
  have hbefore : t.depth ubuntuTmp ≤ (t.run prop before).depth ubuntuTmp :=
    depth_le_run prop _ (fun c hc => hno c (List.mem_append_left _ hc)) t
  have hline : ∀ u : MountTable Fs, u.depth ubuntuTmp <
      (u.exec prop (.mountType .tmpfs ubuntuTmp)).depth ubuntuTmp := by
    intro u
    have hattach := depth_lt_attach prop u (⟨ubuntuTmp, Fs.tmpfs, [], false⟩ : Mount Fs)
    simpa [exec, mountType, FsType.exclusive] using hattach
  have hafter : ∀ u : MountTable Fs, u.depth ubuntuTmp ≤ (u.run prop after).depth ubuntuTmp :=
    fun u => depth_le_run prop _ (fun c hc => hno c (by simp [hc])) u
  rw [hsplit, run, List.foldl_append, List.foldl_cons]
  exact Nat.lt_of_le_of_lt hbefore (Nat.lt_of_lt_of_le (hline _) (hafter _))

theorem depth_tmp_le_rounds (prop : Propagation Fs) (n : Nat) (t : MountTable Fs) :
    t.depth ubuntuTmp ≤ (rounds prop n t).depth ubuntuTmp := by
  induction n generalizing t with
  | zero => exact Nat.le_refl _
  | succ n ih => exact Nat.le_trans (depth_tmp_le_round prop t) (ih (round prop t))

/-! ## Section 2: Rounds do not give the table back -/

/-- From a clean table, under any propagation, the table after `n` rounds is the starting
one exactly when `n` is zero. -/
theorem rounds_same_iff (prop : Propagation Fs) (t : MountTable Fs) (hclean : Clean t) (n : Nat) :
    (rounds prop n t).Same t ↔ n = 0 := by
  constructor
  · intro hsame
    cases n with
    | zero => rfl
    | succ n =>
      -- the first round is let through, and no later one lowers the stack on `tmp`
      have hproc : t.mountpoint ubuntuProc = false :=
        mountpoint_eq_false_of_clearAt hclean.clearUbuntu (by decide)
      have hfirst : t.depth ubuntuTmp < (round prop t).depth ubuntuTmp :=
        depth_tmp_lt_round hproc
      have hlater : (round prop t).depth ubuntuTmp ≤ (rounds prop (n + 1) t).depth ubuntuTmp :=
        depth_tmp_le_rounds prop n (round prop t)
      have hback : (rounds prop (n + 1) t).depth ubuntuTmp = t.depth ubuntuTmp :=
        hsame.depth_eq ubuntuTmp
      omega
  · rintro rfl
    exact Same.refl t

theorem rounds_same_iff_bootTable :
    (rounds .isolated 3 bootTable).Same bootTable ↔ 3 = 0 :=
  rounds_same_iff .isolated bootTable clean_bootTable 3

/-- One round on a phone that has just booted leaves a tmpfs behind, with and without
propagation below the bind copies of `/dev`, `/sys` and `/data`. -/
theorem rounds_not_same :
    Clean bootTable ∧ ¬ (rounds .isolated 1 bootTable).Same bootTable ∧
      ¬ (rounds (.below [["dev"], ["sys"], ["data"]]) 1 bootTable).Same bootTable := by
  refine ⟨clean_bootTable, ?_, ?_⟩
  · intro hsame
    exact absurd (hsame.depth_eq ubuntuTmp) (by decide)
  · intro hsame
    exact absurd (hsame.depth_eq ubuntuTmp) (by decide)

/-! ## Section 3: What a round leaves -/

/-- The mounts one round leaves, newest first. -/
def leftover (t : MountTable Fs) : List (Mount Fs) :=
  [ boundAt t ["sdcard"] udroidSdcard,
    boundAt t ["system"] udroidSystem,
    boundAt t ["data"] udroidData,
    ⟨ubuntuTmp, .tmpfs, [], false⟩ ]

/-- Below `/data/ubuntu` only `tmp` is mounted: what earlier rounds leave there. -/
def OnlyTmp (t : MountTable Fs) : Prop :=
  ∀ m ∈ t.mounts, ubuntu <+: m.point → m.point = ubuntuTmp

theorem OnlyTmp.mountpoint_eq_false {t : MountTable Fs} (h : OnlyTmp t) {p : Path}
    (hp : ubuntu <+: p) (hne : p ≠ ubuntuTmp) : t.mountpoint p = false := by
  have hnil : p ≠ [] := by
    rintro rfl
    simp at hp
  exact mountpoint_eq_false_of_forall hnil
    (fun m hm hpoint => hne (hpoint ▸ h m hm (hpoint ▸ hp)))

/-- The newest mount of a table is pushed on the rest of it. -/
theorem cons_eq_push (rootfs : Fs) (m : Mount Fs) (ms : List (Mount Fs)) :
    (⟨rootfs, m :: ms⟩ : MountTable Fs) = (⟨rootfs, ms⟩ : MountTable Fs).push m := rfl

/-- Without propagation, a round adds the leftover mounts, and debugfs the first time. -/
theorem round_isolated {t : MountTable Fs} (htmp : OnlyTmp t) :
    round .isolated t = ⟨t.rootfs, leftover t ++ debugMount t ++ t.mounts⟩ := by
  -- an umount that comes through to the table below finds no mount of its own there
  have hquiet : ∀ p, ubuntu <+: p → p ≠ ubuntuTmp → t.pop p = t :=
    fun p hp hne => pop_of_mountpoint_eq_false (htmp.mountpoint_eq_false hp hne)
  have hset : fsmount .isolated t = ⟨t.rootfs, wanted t ++ t.mounts⟩ := by
    simp only [fsmount, htmp.mountpoint_eq_false (p := ubuntuProc) (by decide) (by decide),
      Bool.false_eq_true, if_false, fsmountBody_isolated]
  rw [round, hset]
  simp only [fsumount, fsumountPaths, List.map_cons, List.map_nil, run, List.foldl_cons,
    List.foldl_nil, exec, umount_isolated]
  -- the umounts go past the mounts of the set-up one by one, newest first
  cases htop : t.onTop .debugfs sysDebug with
  | true =>
    simp (disch := decide) only [wanted, wantedAfter, wantedBefore, leftover, boundAt, debugMount,
      htop, if_true, List.cons_append, List.nil_append, cons_eq_push, pop_push_self,
      pop_push_of_unrelated, pop_push_of_strict, hquiet]
  | false =>
    simp (disch := decide) only [wanted, wantedAfter, wantedBefore, leftover, boundAt, debugMount,
      htop, if_false, Bool.false_eq_true, List.cons_append, List.nil_append, cons_eq_push, pop_push_self,
      pop_push_of_unrelated, pop_push_of_strict, hquiet]

theorem OnlyTmp.round {t : MountTable Fs} (htmp : OnlyTmp t) : OnlyTmp (round .isolated t) := by
  rw [round_isolated htmp]
  intro m hm hbelow
  simp only [List.mem_append] at hm
  rcases hm with (hm | hm) | hm
  -- of the leftover mounts only the tmpfs is below `/data/ubuntu`
  · revert hbelow
    simp only [leftover, boundAt, List.mem_cons, List.not_mem_nil, or_false] at hm
    rcases hm with rfl | rfl | rfl | rfl <;> simp
  · unfold debugMount at hm
    split at hm
    · simp at hm
    · simp only [List.mem_singleton] at hm
      subst hm
      simp at hbelow
  · exact htmp m hm hbelow

/-- A round changes nothing that a later round reads: the sources are where they were, and
debugfs is there to stay. -/
theorem leftover_round {t : MountTable Fs} (htmp : OnlyTmp t) :
    leftover (round .isolated t) = leftover t ∧ debugMount (round .isolated t) = [] := by
  rw [round_isolated htmp]
  have hdebug : ∀ u : MountTable Fs,
      (u.push ⟨sysDebug, .debugfs, [], false⟩).onTop .debugfs sysDebug = true := by
    intro u
    simp [onTop]
  cases htop : t.onTop .debugfs sysDebug with
  | true =>
    simp (disch := decide) only [leftover, boundAt, debugMount, htop, if_true, List.cons_append,
      List.nil_append, cons_eq_push, locate_push_of_not_below, onTop_push_of_not_below, and_self]
  | false =>
    simp (disch := decide) only [leftover, boundAt, debugMount, htop, if_false, if_true,
      Bool.false_eq_true, List.cons_append, List.nil_append, cons_eq_push, hdebug,
      locate_push_of_not_below, onTop_push_of_not_below, and_self]

/-- Without propagation, `n + 1` rounds leave the leftover mounts `n + 1` times over, and
debugfs once. -/
theorem rounds_isolated {t : MountTable Fs} (htmp : OnlyTmp t) (n : Nat) :
    rounds .isolated (n + 1) t =
      ⟨t.rootfs, (List.replicate (n + 1) (leftover t)).flatten ++ debugMount t ++ t.mounts⟩ := by
  induction n generalizing t with
  | zero => simpa [rounds] using round_isolated htmp
  | succ n ih =>
    obtain ⟨hleft, hdebug⟩ := leftover_round htmp
    calc rounds .isolated (n + 2) t
        = rounds .isolated (n + 1) (round .isolated t) := rfl
      _ = ⟨t.rootfs, (List.replicate (n + 1) (leftover t)).flatten ++
            (leftover t ++ debugMount t ++ t.mounts)⟩ := by
          rw [ih htmp.round, hleft, hdebug, round_isolated htmp, List.append_nil]
      _ = ⟨t.rootfs, (List.replicate (n + 2) (leftover t)).flatten ++ debugMount t ++
            t.mounts⟩ := by
          rw [List.replicate_succ' (n := n + 1), List.flatten_append, List.flatten_singleton]
          simp only [List.append_assoc]

end Udroid.Mounts
