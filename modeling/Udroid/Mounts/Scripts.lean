import Udroid.Unix.MountScript

/-!
# The mount scripts

`sdcard/fsmount` sets the chroot up, `sdcard/fsumount` and
`script/windows/uninstall.bat` tear it down, and `shell/chromium` mounts one more file
system from inside.  Each script is the list of its commands, line by line, over the mount
tables of `Udroid.Unix.MountTable`.

Commented-out lines of the scripts (the `noexec` remount and the `oem` binds) are not
commands and do not appear.
-/

namespace Udroid.Mounts

open Udroid.Unix Udroid.Unix.MountTable

/-! ## Section 1: File systems and paths -/

/-- The file systems of the device: those that are there before any script runs, and the
two kinds the scripts mount with `-t`. -/
inductive Fs where
  | device (n : Nat)
  | debugfs
  | tmpfs
  deriving DecidableEq, Repr

/-- There is one debugfs; every `mount -t tmpfs` makes a new tmpfs. -/
instance : FsType Fs where
  exclusive
    | .debugfs => true
    | _ => false

/-- `/data/ubuntu`, the root of the chroot. -/
abbrev ubuntu : Path := ["data", "ubuntu"]

abbrev ubuntuProc : Path := ["data", "ubuntu", "proc"]
abbrev ubuntuSys : Path := ["data", "ubuntu", "sys"]
abbrev ubuntuDebug : Path := ["data", "ubuntu", "sys", "kernel", "debug"]
abbrev ubuntuSelinux : Path := ["data", "ubuntu", "sys", "fs", "selinux"]
abbrev ubuntuDev : Path := ["data", "ubuntu", "dev"]
abbrev ubuntuPts : Path := ["data", "ubuntu", "dev", "pts"]
abbrev ubuntuShm : Path := ["data", "ubuntu", "dev", "shm"]
abbrev ubuntuTmp : Path := ["data", "ubuntu", "tmp"]
abbrev ubuntuSdcard : Path := ["data", "ubuntu", "sdcard"]
abbrev ubuntuSystem : Path := ["data", "ubuntu", "system"]

/-- `/sys/kernel/debug`, where Android may have debugfs already. -/
abbrev sysDebug : Path := ["sys", "kernel", "debug"]

/-- `/dev/block/udroid`, below which the Android trees are bound. -/
abbrev udroid : Path := ["dev", "block", "udroid"]

abbrev udroidData : Path := ["dev", "block", "udroid", "data"]
abbrev udroidSystem : Path := ["dev", "block", "udroid", "system"]
abbrev udroidSdcard : Path := ["dev", "block", "udroid", "sdcard"]

/-! ## Section 2: The scripts -/

/-- What `fsmount` does once its test has said that `/data/ubuntu/proc` is no mount point. -/
def fsmountBody : List (Cmd Fs) :=
  [ -- ubuntu
    .bind ["proc"] ubuntuProc,
    .bind ["sys"] ubuntuSys,
    .mountType .debugfs sysDebug,
    .bind sysDebug ubuntuDebug,
    .bind ["sys", "fs", "selinux"] ubuntuSelinux,
    .remount true ubuntuSelinux,
    .bind ["dev"] ubuntuDev,
    .bind ["dev", "pts"] ubuntuPts,
    .mountType .tmpfs ubuntuTmp,
    -- android
    .mkdir udroidData,
    .mkdir udroidSystem,
    .mkdir udroidSdcard,
    .bind ["data"] udroidData,
    .bind ["system"] udroidSystem,
    .remount false ["data", "ubuntu", "dev", "block", "udroid", "system"],
    .bind ["sdcard"] udroidSdcard ]

/-- `sdcard/fsmount`. -/
def fsmount (prop : Propagation Fs) (t : MountTable Fs) : MountTable Fs :=
  if t.mountpoint ubuntuProc then t else t.run prop fsmountBody

/-- The paths `fsumount` unmounts, in its order. -/
def fsumountPaths : List Path :=
  [ ubuntuSdcard,
    ubuntuSystem,
    ubuntuDebug,
    ubuntuSelinux,
    ubuntuSys,
    ubuntuPts,
    ubuntuShm,
    ubuntuDev,
    ubuntuProc ]

/-- `sdcard/fsumount`: every line is a `umount -f`. -/
def fsumount (prop : Propagation Fs) (t : MountTable Fs) : MountTable Fs :=
  t.run prop (fsumountPaths.map .umount)

/-- The paths `uninstall.bat` unmounts, in its order. -/
def uninstallPaths : List Path :=
  [ ubuntuSdcard,
    ubuntuSystem,
    ubuntuDebug,
    ubuntuSelinux,
    ubuntuSys,
    ubuntuDev,
    ubuntuProc ]

/-- `script/windows/uninstall.bat`: its `adb shell busybox umount` lines. -/
def uninstall (prop : Propagation Fs) (t : MountTable Fs) : MountTable Fs :=
  t.run prop (uninstallPaths.map .umount)

/-- What `shell/chromium` does to `/dev/shm`, which is `/data/ubuntu/dev/shm` outside the
chroot. -/
def chromiumShm (prop : Propagation Fs) (t : MountTable Fs) : MountTable Fs :=
  let t := t.exec prop (.mkdir ubuntuShm)
  if t.mountpoint ubuntuShm then t else t.exec prop (.mountType .tmpfs ubuntuShm)

/-! ## Section 3: Where the scripts start -/

/-- A clean table: no mount at or below `/data/ubuntu`, none below `/dev/block/udroid`. -/
structure Clean (t : MountTable Fs) : Prop where
  clearUbuntu : t.ClearAt ubuntu
  clearUdroid : t.ClearBelow udroid

theorem mountpoint_eq_false_of_clearAt {t : MountTable Fs} (h : t.ClearAt ubuntu) {p : Path}
    (hp : ubuntu <+: p) : t.mountpoint p = false := by
  have hne : p ≠ [] := by
    rintro rfl
    simp at hp
  exact mountpoint_eq_false_of_forall hne (fun m hm hpoint => h m hm (hpoint ▸ hp))

/-- The mounts of a phone that has just booted, debugfs not among them. -/
def bootTable : MountTable Fs :=
  ⟨.device 0,
    [ ⟨["data"], .device 5, [], false⟩,
      ⟨["sys", "fs", "selinux"], .device 4, [], false⟩,
      ⟨["sys"], .device 3, [], false⟩,
      ⟨["dev", "pts"], .device 2, [], false⟩,
      ⟨["dev"], .device 1, [], false⟩,
      ⟨["proc"], .device 6, [], false⟩ ]⟩

theorem clean_bootTable : Clean bootTable where
  clearUbuntu := by unfold ClearAt; decide
  clearUdroid := by unfold ClearBelow; decide

/-! ## Section 4: The mounts of one complete run -/

/-- The bind of `src`, as it is when the table is `t`, at `tgt`. -/
def boundAt (t : MountTable Fs) (src tgt : Path) : Mount Fs :=
  ⟨tgt, (t.locate src).1, (t.locate src).2, false⟩

/-- debugfs, unless it is on `/sys/kernel/debug` already. -/
def debugMount (t : MountTable Fs) : List (Mount Fs) :=
  if t.onTop .debugfs sysDebug then [] else [⟨sysDebug, .debugfs, [], false⟩]

/-- The mounts `fsmount` makes after debugfs, newest first. -/
def wantedAfter (t : MountTable Fs) : List (Mount Fs) :=
  [ boundAt t ["sdcard"] udroidSdcard,
    boundAt t ["system"] udroidSystem,
    boundAt t ["data"] udroidData,
    ⟨ubuntuTmp, .tmpfs, [], false⟩,
    boundAt t ["dev", "pts"] ubuntuPts,
    boundAt t ["dev"] ubuntuDev,
    { boundAt t ["sys", "fs", "selinux"] ubuntuSelinux with ro := true },
    ⟨ubuntuDebug, .debugfs, [], false⟩ ]

/-- The mounts `fsmount` makes before debugfs, newest first. -/
def wantedBefore (t : MountTable Fs) : List (Mount Fs) :=
  [ boundAt t ["sys"] ubuntuSys,
    boundAt t ["proc"] ubuntuProc ]

/-- The mounts of a complete set-up over `t`, newest first: each target with its source. -/
def wanted (t : MountTable Fs) : List (Mount Fs) :=
  wantedAfter t ++ debugMount t ++ wantedBefore t

/-- The debugfs line of the set-up mounts debugfs where it is not on top yet. -/
theorem mountType_debugfs (t : MountTable Fs) :
    t.mountType .isolated .debugfs sysDebug =
      if t.onTop .debugfs sysDebug then t else t.push ⟨sysDebug, .debugfs, [], false⟩ := by
  simp [mountType, FsType.exclusive]

/-- A run of `fsmount` whose test lets it through adds exactly the wanted mounts. -/
theorem fsmountBody_isolated (t : MountTable Fs) :
    t.run .isolated fsmountBody = ⟨t.rootfs, wanted t ++ t.mounts⟩ := by
  have htmpfs : ∀ u : MountTable Fs, u.mountType .isolated .tmpfs ubuntuTmp =
      u.push ⟨ubuntuTmp, .tmpfs, [], false⟩ := by
    intro u
    simp [mountType, FsType.exclusive]
  simp (disch := decide) only [run, fsmountBody, List.foldl_cons, List.foldl_nil, exec,
    MountTable.bind, attach_isolated, mountType_debugfs, htmpfs, onTop_push_of_not_below]
  -- what the bind of `/sys/kernel/debug` shows: the debugfs of Android, or the one just mounted
  by_cases htop : t.onTop .debugfs sysDebug = true
  · have hdebug : t.locate sysDebug = (Fs.debugfs, []) := by
      simp only [onTop, decide_eq_true_eq] at htop
      simp [locate, htop]
    simp (disch := decide) only [htop, if_true, locate_push_of_not_below, hdebug,
      remount_push_self, remount_push_of_not_below, remount_push_of_strict]
    simp [push, wanted, wantedAfter, wantedBefore, boundAt, debugMount, htop]
  · have hdebug : ∀ u : MountTable Fs,
        (u.push ⟨sysDebug, .debugfs, [], false⟩).locate sysDebug = (Fs.debugfs, []) := by
      intro u
      simp [locate]
    simp (disch := decide) only [htop, Bool.false_eq_true, if_false, locate_push_of_not_below,
      hdebug, remount_push_self, remount_push_of_not_below, remount_push_of_strict]
    simp [push, wanted, wantedAfter, wantedBefore, boundAt, debugMount, htop]

end Udroid.Mounts
