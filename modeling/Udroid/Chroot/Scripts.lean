import Mathlib.Logic.Relation
import Udroid.Links.Scripts
import Udroid.Mounts.Scripts
import Udroid.Unix.Device

/-!
# Android's trees in the chroot

`sdcard/fsmount` binds `/data`, `/system` and `/sdcard` below `/dev/block/udroid`, which is
seen below `/data/ubuntu/dev` as well; `udroid-setup-pathlink` links the names of the
chroot's root there; `ubuntu.chroot` makes `/data/ubuntu` the root.  The scripts are those
of `Udroid.Mounts` and `Udroid.Links`, here on a device with its file trees.

- `Phone`: a device as the scripts find it.
- `Agree`: a path leads to one file on Android and in the chroot, or to none on both sides.
- `Spot.next`: a lookup on Android, cut where it comes to one of the top-level names.
- `Phone.Admissible`: what a lookup must not do below a top-level name.
-/

namespace Udroid.Chroot

open Udroid.Unix Udroid.Unix.MountTable Udroid.Mounts Udroid.Links

variable {α : Type}

/-! ## Section 1: Names -/

/-- The trees of Android that `fsmount` binds. -/
inductive Tree where
  | data
  | system
  | sdcard
  deriving DecidableEq

def Tree.name : Tree → Name
  | .data => "data"
  | .system => "system"
  | .sdcard => "sdcard"

/-- The names that `udroid-setup-pathlink` links. -/
inductive TopName where
  | tree (b : Tree)
  | vendor
  deriving DecidableEq

def TopName.name : TopName → Name
  | .tree b => b.name
  | .vendor => "vendor"

/-- The top-level name with this text. -/
def TopName.ofName (n : Name) : Option TopName :=
  [TopName.tree .data, .tree .system, .tree .sdcard, .vendor].find? (fun k => k.name = n)

/-- Where `fsmount` binds a tree. -/
def Tree.bound (b : Tree) : Path := udroid ++ [b.name]

/-- Where the chroot sees it: the same place below the bind copy of `/dev`. -/
def Tree.copy (b : Tree) : Path := ubuntu ++ b.bound

/-! ## Section 2: The scripts on a device -/

/-- `sdcard/fsmount`, where a mount below `/dev` is also seen below the bind copies of it. -/
def fsmount (limit : Nat) (d : Device Fs α) : Device Fs α :=
  if d.table.mountpoint ubuntuProc then d else d.run (.below [["dev"]]) limit fsmountBody

/-- Lines of `ln -sf`, in a chroot at `root`. -/
def runLinesIn (root : Path) (limit : Nat) (lines : List Line) (d : Device Fs α) :
    Device Fs α :=
  lines.foldl (fun d l => d.lnSf root limit l.target [] l.name) d

/-- `udroid-setup-pathlink`, in the chroot at `/data/ubuntu`. -/
def udroidSetupPathlink (limit : Nat) (d : Device Fs α) : Device Fs α :=
  runLinesIn ubuntu limit pathLinks d

/-- The lookup of a path on Android ends at `e`. -/
def AndroidFinds (d : Device Fs α) (p : List Name) (e : Path) : Prop :=
  Finds d.view [] [] p e

/-- The lookup of a path in the chroot of `ubuntu.chroot` ends at `e`. -/
def ChrootFinds (d : Device Fs α) (p : List Name) (e : Path) : Prop :=
  Finds d.view ubuntu ubuntu p e

/-- The path leads to the same file on Android and in the chroot, or to none on both sides.
A file is a place in a file system. -/
def Agree (d : Device Fs α) (p : List Name) : Prop :=
  ∀ file, (∃ e, AndroidFinds d p e ∧ d.table.locate e = file) ↔
    ∃ e, ChrootFinds d p e ∧ d.table.locate e = file

/-! ## Section 3: Devices -/

/-- Neither in the chroot, nor where debugfs goes, nor where the trees are bound. -/
def Apart (p : Path) : Prop :=
  ¬ ubuntu <+: p ∧ ¬ sysDebug <+: p ∧ ¬ ["block", "udroid"] <:+: p

instance (p : Path) : Decidable (Apart p) :=
  inferInstanceAs (Decidable (_ ∧ _ ∧ _))

/-- What stands at a path that the mounts of `fsmount` do not reach. -/
def apartView (d : Device Fs α) (p : Path) : Option (Node α) :=
  if Apart p then d.view p else none

/-- `/vendor` is a link to `/system/vendor`. -/
def VendorLinked (d : Device Fs α) : Prop :=
  d.view ["vendor"] = some (.link ⟨true, ["system", "vendor"]⟩)

/-- `/vendor` is a directory, and what `/system` has at `vendor` is a link to it. -/
def VendorReal (d : Device Fs α) (system : Path) : Prop :=
  d.view ["vendor"] = some .dir ∧
    (d.files (d.table.locate system).1).look ((d.table.locate system).2 ++ ["vendor"]) =
      some (.link ⟨true, ["vendor"]⟩)

/-- An Android device as the scripts find it.  The three names lead to directories, and not
through what `fsmount` covers; `/dev` and all of `/dev/block/udroid` that is there are
directories of one file system, which is none of those of the trees; the rootfs has none of
the names that are linked. -/
structure Phone (α : Type) where
  device : Device Fs α
  /-- the number of steps after which a lookup of a script is given up -/
  limit : Nat
  /-- where the names of the trees lead -/
  home : Tree → Path
  limit_ge : 3 ≤ limit
  clean : Clean device.table
  root_dir : device.view [] = some .dir
  data_dir : device.view ["data"] = some .dir
  dev_dir : device.view ["dev"] = some .dir
  udroid_free : ∀ (b : Tree) (q : Path), q <+: ["block", "udroid", b.name] →
    device.view (["dev"] ++ q) = none ∨ device.view (["dev"] ++ q) = some .dir
  udroid_holder : device.table.holder udroid = device.table.holder ["dev"]
  ubuntu_dir : device.view ubuntu = some .dir
  ubuntuDev_dir : device.view ubuntuDev = some .dir
  ubuntu_free : ∀ k : TopName, device.view (ubuntu ++ [k.name]) = none
  home_found : ∀ b, leadsTo (apartView device) [] limit [b.name] = some (home b)
  home_fs : ∀ b, (device.table.locate (home b)).1 ≠ (device.table.locate ["dev"]).1
  vendor : VendorLinked device ∨ VendorReal device (home .system)

/-- The device after `fsmount` and `udroid-setup-pathlink`. -/
def Phone.after (ph : Phone α) : Device Fs α :=
  udroidSetupPathlink ph.limit (fsmount ph.limit ph.device)

/-- The state that the scripts are to bring about: each tree is seen in the chroot at the end
of the link for its name, as what it is on Android. -/
structure Chrooted (d : Device Fs α) (home : Tree → Path) : Prop where
  root_dir : d.view [] = some .dir
  home_found : ∀ b : Tree, Finds d.view [] [] [b.name] (home b)
  tree_link : ∀ b : Tree, d.view (ubuntu ++ [b.name]) = some (.link ⟨true, b.bound⟩)
  vendor_link : d.view (ubuntu ++ ["vendor"]) = some (.link ⟨true, ["system", "vendor"]⟩)
  way_dir : ∀ (b : Tree) (q : Path), q <+: b.bound → d.view (ubuntu ++ q) = some .dir
  copy_locate : ∀ (b : Tree) (q : Path), d.table.locate (b.copy ++ q) =
    ((d.table.locate (home b)).1, (d.table.locate (home b)).2 ++ q)

/-! ## Section 4: Lookups on Android, cut at the top-level names -/

/-- Where a lookup on Android stands: at one of the four names, or below it. -/
inductive Spot where
  | top (k : TopName) (rest : List Name)
  | below (k : TopName) (cur : Path) (todo : List Name)

/-- A path from the root that starts with one of the four names. -/
def Spot.enter : List Name → Option Spot
  | [] => none
  | n :: rest => (TopName.ofName n).map (fun k => .top k rest)

/-- A name that is neither `.` nor `..`. -/
def Plain (n : Name) : Prop := n ≠ "." ∧ n ≠ ".."

instance (n : Name) : Decidable (Plain n) :=
  inferInstanceAs (Decidable (_ ∧ _))

/-- Is the name that of an absolute link? -/
def isAbsolute (look : Path → Option (Node α)) (cur : Path) (n : Name) : Bool :=
  decide (Plain n) &&
    match look (cur ++ [n]) with
    | some (.link t) => t.absolute
    | _ => false

/-- One name of the path: an absolute link leads back to the top. -/
def Spot.hop (look : Path → Option (Node α)) (k : TopName) (cur : Path) (n : Name)
    (todo : List Name) : Option Spot :=
  match step look [] cur n with
  | none => none
  | some (next, names) =>
      if isAbsolute look cur n then enter (names ++ todo)
      else some (.below k next (names ++ todo))

/-- The next spot of a lookup. -/
def Spot.next (look : Path → Option (Node α)) (home : Tree → Path) : Spot → Option Spot
  | .top (.tree b) rest => some (.below (.tree b) (home b) rest)
  | .top .vendor rest => hop look .vendor [] "vendor" rest
  | .below _ _ [] => none
  | .below k cur (n :: todo) => hop look k cur n todo

/-- The spots that a lookup comes to. -/
def Visits (look : Path → Option (Node α)) (home : Tree → Path) : Spot → Spot → Prop :=
  Relation.ReflTransGen (fun s s' => s.next look home = some s')

/-- The directory at which a top-level name starts. -/
def base (home : Tree → Path) : TopName → Path
  | .tree b => home b
  | .vendor => ["vendor"]

/-- What the lookup of the name `n` from `cur` must not do in the tree of `k`. -/
structure Tame (d : Device Fs α) (home : Tree → Path) (k : TopName) (cur : Path) (n : Name) :
    Prop where
  /-- an absolute link goes to one of the four names -/
  links : Plain n → ∀ t, d.view (cur ++ [n]) = some (.link t) → t.absolute = true →
    ∃ (k' : TopName) (rest : List Name), t.comps = k'.name :: rest
  /-- `..` does not leave the tree -/
  climbs : n = ".." → cur ≠ base home k
  /-- the chroot's own directory is not entered -/
  outside : Plain n → ¬ ubuntu <+: cur ++ [n]
  /-- no mount inside a bound tree is entered -/
  unmounted : Plain n → k ≠ .vendor →
    d.table.holder (cur ++ [n]) = d.table.holder (base home k)

/-- The lookup of `/k/rest` on Android is tame below the top-level names that it comes to. -/
def Phone.Admissible (ph : Phone α) (k : TopName) (rest : List Name) : Prop :=
  ∀ k' cur n todo, Visits ph.after.view ph.home (.top k rest) (.below k' cur (n :: todo)) →
    Tame ph.after ph.home k' cur n

/-- The lookup of `/k/rest` on Android comes to `/vendor`. -/
def Phone.ThroughVendor (ph : Phone α) (k : TopName) (rest : List Name) : Prop :=
  ∃ rest', Visits ph.after.view ph.home (.top k rest) (.top .vendor rest')

end Udroid.Chroot
