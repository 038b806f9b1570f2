import Udroid.Mounts.Scripts

/-!
# The two teardown scripts

`fsumount` and `uninstall.bat` unmount the same paths, but `uninstall.bat` has no line for
`/data/ubuntu/dev/pts` and none for `/data/ubuntu/dev/shm`.  While one of the two is
mounted, its umount of `/data/ubuntu/dev` fails silently as well.

The tables are those of any history of set-ups, teardowns and shared memory mounts.
-/

namespace Udroid.Mounts

open Udroid.Unix Udroid.Unix.MountTable

/-- The tables reached from `t₀` by `fsmount`, `fsumount` and the tmpfs that
`shell/chromium` mounts on `/dev/shm` inside the chroot. -/
inductive Reached (t₀ : MountTable Fs) : MountTable Fs → Prop where
  | start : Reached t₀ t₀
  | fsmount {t : MountTable Fs} : Reached t₀ t → Reached t₀ (fsmount .isolated t)
  | fsumount {t : MountTable Fs} : Reached t₀ t → Reached t₀ (fsumount .isolated t)
  | chromium {t : MountTable Fs} : Reached t₀ t → Reached t₀ (chromiumShm .isolated t)

/-! ## Section 1: Nothing is ever mounted below `pts` or `shm` -/

/-- A path below which no script mounts anything stays clear. -/
theorem Reached.clearBelow {t₀ t : MountTable Fs} {p : Path} (hstart : t₀.ClearBelow p)
    (hset : ∀ c ∈ fsmountBody, ∀ q ∈ c.target?, p <+: q → q = p)
    (hshm : p <+: ubuntuShm → ubuntuShm = p) (h : Reached t₀ t) : t.ClearBelow p := by
  induction h with
  | start => exact hstart
  | fsmount _ ih =>
    unfold Mounts.fsmount
    split
    · exact ih
    · exact ih.run hset
  | fsumount _ ih => exact ih.run (by simp [Cmd.target?])
  | @chromium t _ ih =>
    have hline : ∀ c ∈ [Cmd.mountType Fs.tmpfs ubuntuShm], ∀ q ∈ c.target?, p <+: q → q = p := by
      simpa [Cmd.target?] using hshm
    -- `shell/chromium` mounts where its own test finds no mount
    by_cases hmount : t.mountpoint ubuntuShm = true
    · simpa only [chromiumShm, exec_mkdir, hmount, if_true] using ih
    · simp only [chromiumShm, exec_mkdir, hmount, Bool.false_eq_true, if_false]
      exact ih.run hline

theorem clearBelow_of_clearAt {t : MountTable Fs} (h : t.ClearAt ubuntu) {p : Path}
    (hp : ubuntu <+: p) : t.ClearBelow p :=
  fun m hm hbelow => absurd (hp.trans hbelow) (h m hm)

theorem Reached.clearBelow_pts {t₀ t : MountTable Fs} (hclear : t₀.ClearAt ubuntu)
    (h : Reached t₀ t) : t.ClearBelow ubuntuPts :=
  h.clearBelow (clearBelow_of_clearAt hclear (by decide)) (by decide) (by decide)

theorem Reached.clearBelow_shm {t₀ t : MountTable Fs} (hclear : t₀.ClearAt ubuntu)
    (h : Reached t₀ t) : t.ClearBelow ubuntuShm :=
  h.clearBelow (clearBelow_of_clearAt hclear (by decide)) (by decide) (by decide)

/-! ## Section 2: The two scripts side by side -/

/-- What the first five lines of either script leave. -/
def commonUmounts (t : MountTable Fs) : MountTable Fs :=
  ((((t.pop ubuntuSdcard).pop ubuntuSystem).pop ubuntuDebug).pop ubuntuSelinux).pop ubuntuSys

theorem fsumount_eq (t : MountTable Fs) : fsumount .isolated t =
    ((((commonUmounts t).pop ubuntuPts).pop ubuntuShm).pop ubuntuDev).pop ubuntuProc := by
  simp only [fsumount, fsumountPaths, commonUmounts, run, List.map_cons, List.map_nil,
    List.foldl_cons, List.foldl_nil, exec, umount_isolated]

theorem uninstall_eq (t : MountTable Fs) : uninstall .isolated t =
    ((commonUmounts t).pop ubuntuDev).pop ubuntuProc := by
  simp only [uninstall, uninstallPaths, commonUmounts, run, List.map_cons, List.map_nil,
    List.foldl_cons, List.foldl_nil, exec, umount_isolated]

theorem mountpoint_commonUmounts {t : MountTable Fs} {p : Path} (hsys : ¬ ubuntuSys <+: p)
    (hsdcard : ¬ ubuntuSdcard <+: p) (hsystem : ¬ ubuntuSystem <+: p) :
    (commonUmounts t).mountpoint p = t.mountpoint p := by
  have hdebug : ¬ ubuntuDebug <+: p := fun h => hsys (List.IsPrefix.trans (by decide) h)
  have hselinux : ¬ ubuntuSelinux <+: p := fun h => hsys (List.IsPrefix.trans (by decide) h)
  rw [commonUmounts, mountpoint_pop_of_not_below hsys, mountpoint_pop_of_not_below hselinux,
    mountpoint_pop_of_not_below hdebug, mountpoint_pop_of_not_below hsystem,
    mountpoint_pop_of_not_below hsdcard]

theorem clearBelow_commonUmounts {t : MountTable Fs} {p : Path} (h : t.ClearBelow p) :
    (commonUmounts t).ClearBelow p := by
  intro m hm
  exact h m (mem_of_mem_pop (mem_of_mem_pop (mem_of_mem_pop (mem_of_mem_pop
    (mem_of_mem_pop hm)))))

/-! ## Section 3: When they agree -/

/-- From any table the scripts reach, the two teardowns leave the same mounts at and below
`/data/ubuntu` exactly when neither `dev/pts` nor `dev/shm` is mounted. -/
theorem uninstall_agrees_iff {t₀ t : MountTable Fs} (hclear : t₀.ClearAt ubuntu)
    (hreach : Reached t₀ t) :
    SameBelow ubuntu (uninstall .isolated t) (fsumount .isolated t) ↔
      t.mountpoint ubuntuPts = false ∧ t.mountpoint ubuntuShm = false := by
  set u := commonUmounts t with hu
  have hpts : u.mountpoint ubuntuPts = t.mountpoint ubuntuPts :=
    mountpoint_commonUmounts (by decide) (by decide) (by decide)
  have hshm : u.mountpoint ubuntuShm = t.mountpoint ubuntuShm :=
    mountpoint_commonUmounts (by decide) (by decide) (by decide)
  have hclearPts : u.ClearBelow ubuntuPts := clearBelow_commonUmounts (hreach.clearBelow_pts hclear)
  have hclearShm : u.ClearBelow ubuntuShm := clearBelow_commonUmounts (hreach.clearBelow_shm hclear)
  rw [uninstall_eq, fsumount_eq, ← hu, ← hpts, ← hshm]
  constructor
  · intro hsame
    -- the stacks on `pts` and on `shm` tell the two results apart
    have hdepthPts := hsame.depth_eq (p := ubuntuPts) (by decide)
    have hdepthShm := hsame.depth_eq (p := ubuntuShm) (by decide)
    rw [depth_pop_of_ne (by decide), depth_pop_of_ne (by decide), depth_pop_of_ne (by decide),
      depth_pop_of_ne (by decide), depth_pop_of_ne (by decide)] at hdepthPts
    rw [depth_pop_of_ne (by decide), depth_pop_of_ne (by decide), depth_pop_of_ne (by decide),
      depth_pop_of_ne (by decide)] at hdepthShm
    constructor
    -- a mount on `pts` would be taken away by `fsumount` alone
    · by_contra hmount
      have hpop := depth_pop_self (by decide) hclearPts (by simpa using hmount)
      omega
    -- and so would one on `shm`, which the umount of `pts` leaves alone
    · by_contra hmount
      have hclearPop : (u.pop ubuntuPts).ClearBelow ubuntuShm :=
        fun m hm => hclearShm m (mem_of_mem_pop hm)
      have hmountPop : (u.pop ubuntuPts).mountpoint ubuntuShm = true := by
        rw [mountpoint_pop_of_not_below (by decide)]
        simpa using hmount
      have hpop := depth_pop_self (by decide) hclearPop hmountPop
      rw [depth_pop_of_ne (p := ubuntuPts) (by decide)] at hpop
      omega
  · rintro ⟨hptsFalse, hshmFalse⟩
    -- the two umounts that `uninstall.bat` lacks do nothing
    rw [pop_of_mountpoint_eq_false hptsFalse, pop_of_mountpoint_eq_false hshmFalse]
    exact fun _ => rfl

theorem uninstall_agrees_iff_bootTable :
    SameBelow ubuntu (uninstall .isolated (fsmount .isolated bootTable))
        (fsumount .isolated (fsmount .isolated bootTable)) ↔
      (fsmount .isolated bootTable).mountpoint ubuntuPts = false ∧
        (fsmount .isolated bootTable).mountpoint ubuntuShm = false :=
  uninstall_agrees_iff clean_bootTable.clearUbuntu (.fsmount .start)

/-- After one set-up, `uninstall.bat` leaves `/data/ubuntu/dev` and its `pts` mounted. -/
theorem uninstall_disagrees :
    bootTable.ClearAt ubuntu ∧ Reached bootTable (fsmount .isolated bootTable) ∧
      ¬ SameBelow ubuntu (uninstall .isolated (fsmount .isolated bootTable))
        (fsumount .isolated (fsmount .isolated bootTable)) := by
  refine ⟨clean_bootTable.clearUbuntu, .fsmount .start, ?_⟩
  intro hsame
  exact absurd (hsame.depth_eq (p := ubuntuDev) (by decide)) (by decide)

end Udroid.Mounts
