import Udroid.Links.Fonts
import Udroid.Links.Skeleton

/-!
# When the link scripts are tidy

- `linkScripts_tidy_iff`: the three scripts together.
-/

namespace Udroid.Links

open Udroid.Unix

/-- Each script, run any number of times, does what its first run does and writes only what
it lists, exactly where it is calm. -/
theorem linkScripts_tidy_iff {α : Type} (limit : Nat) (s : FileTree α) :
    (Tidy (udroidSetupPathlink limit) (fun _ => pathlinkListed) s ↔ PathlinkCalm limit s) ∧
      (Tidy (udroidSetupFonts limit) (fontsListed limit) s ↔ FontsCalm limit s) ∧
      (Tidy (ubuntuSkeleton limit) (fun _ => skeletonListed) s ↔ SkeletonCalm s) :=
  ⟨pathlink_tidy_iff_calm, fonts_tidy_iff_calm, skeleton_tidy_iff_calm⟩

/-- The root of the chroot after the first run of `udroid-setup-pathlink`. -/
def linkedRootfs : FileTree Unit :=
  .ofTable
    [(["dev"], .dir), (["dev", "block"], .dir), (["dev", "block", "udroid"], .dir),
     (["dev", "block", "udroid", "data"], .dir), (["dev", "block", "udroid", "system"], .dir),
     (["dev", "block", "udroid", "sdcard"], .dir),
     (["dev", "block", "udroid", "system", "vendor"], .dir),
     (["dev", "block", "udroid", "system", "fonts"], .dir),
     (["data"], .link ⟨true, ["dev", "block", "udroid", "data"]⟩),
     (["system"], .link ⟨true, ["dev", "block", "udroid", "system"]⟩),
     (["sdcard"], .link ⟨true, ["dev", "block", "udroid", "sdcard"]⟩),
     (["vendor"], .link ⟨true, ["system", "vendor"]⟩),
     (["usr"], .dir), (["usr", "share"], .dir), (["usr", "share", "fonts"], .dir),
     (["usr", "share", "fonts", "truetype"], .dir)]
    (by decide)

/-- Android's root with a directory `/tmp`. -/
def androidRoot : FileTree Unit :=
  .ofTable
    [(["tmp"], .dir), (["data"], .dir), (["data", "ubuntu"], .dir),
     (["data", "ubuntu", "bin"], .dir), (["data", "ubuntu", "etc"], .dir),
     (["data", "ubuntu", "lib"], .dir), (["data", "ubuntu", "root"], .dir),
     (["data", "ubuntu", "run"], .dir), (["data", "ubuntu", "sbin"], .dir),
     (["data", "ubuntu", "srv"], .dir), (["data", "ubuntu", "tmp"], .dir),
     (["data", "ubuntu", "usr"], .dir), (["data", "ubuntu", "var"], .dir)]
    (by decide)

/-- A further run of `udroid-setup-pathlink` writes into `/dev/block/udroid/system`, a second
run of `udroid-setup-fonts` into `/system/fonts`, and `ubuntu.skeleton` into `/tmp`, though
all targets are directories. -/
theorem linkScripts_not_tidy :
    ((∀ l ∈ pathLinks, linkedRootfs.leadsTo 40 l.target.comps ≠ none) ∧
        ¬ Tidy (udroidSetupPathlink 40) (fun _ => pathlinkListed) linkedRootfs) ∧
      (linkedRootfs.leadsTo 40 systemFonts.comps ≠ none ∧
        ¬ Tidy (udroidSetupFonts 40) (fontsListed 40) linkedRootfs) ∧
      (∀ l ∈ skeletonLinks, androidRoot.leadsTo 40 l.target.comps ≠ none) ∧
        ¬ Tidy (ubuntuSkeleton 40) (fun _ => skeletonListed) androidRoot := by
  refine ⟨⟨by decide +kernel, ?_⟩, ⟨by decide +kernel, ?_⟩, by decide +kernel, ?_⟩
  -- the line for `/system` follows the link that the first run left
  · intro h
    have hlisted : ¬ pathlinkListed ["dev", "block", "udroid", "system", "system"] := by
      rintro ⟨l, -, heq⟩
      simp at heq
    have hframed := h.framed 0 _ hlisted
    revert hframed
    decide +kernel
  · intro h
    have hlook := congrArg (fun s => FileTree.look s ["dev", "block", "udroid", "system", "fonts", "fonts"])
      (h.once 2 (by decide))
    revert hlook
    decide +kernel
  · intro h
    have hlisted : ¬ skeletonListed ["tmp", "tmp"] := by
      rintro (⟨l, -, heq⟩ | ⟨n, hn, hpre⟩)
      · simp at heq
      · obtain ⟨rfl, -⟩ := List.cons_prefix_cons.mp hpre
        exact absurd hn (by decide)
    have hframed := h.framed 0 _ hlisted
    revert hframed
    decide +kernel

end Udroid.Links
