import Udroid.Chroot.Scripts

/-!
# Two lookups of one path

The lookups of a path on Android and in the chroot go along the same spots: in the trees
that `fsmount` binds both read the same entries, and what takes one step at the top on
Android takes several in the chroot.

- `step_copy`: one name in a tree, on Android and in the chroot.
- `android_stages`, `chroot_stages`: both lookups go along the spots.
- `not_chrootFinds_vendor`: where `/system/vendor` is a link to `/vendor`, the chroot's
  `/vendor` leads nowhere.
-/

namespace Udroid.Chroot

open Udroid.Unix Udroid.Unix.MountTable Udroid.Mounts Udroid.Links

variable {α : Type} {d : Device Fs α} {home : Tree → Path}

/-! ## Section 1: Spots -/

theorem ofName_eq_some {n : Name} {k : TopName} : TopName.ofName n = some k ↔ k.name = n := by
  constructor
  · intro h
    simpa using List.find?_some h
  · rintro rfl
    rcases k with b | -
    · cases b <;> rfl
    · rfl

theorem enter_eq_some {names : List Name} {s : Spot} :
    Spot.enter names = some s ↔ ∃ k rest, names = TopName.name k :: rest ∧ s = .top k rest := by
  cases names with
  | nil => simp [Spot.enter]
  | cons n rest =>
    simp only [Spot.enter, Option.map_eq_some_iff, ofName_eq_some, List.cons.injEq]
    constructor
    · rintro ⟨k, rfl, rfl⟩
      exact ⟨k, rest, ⟨rfl, rfl⟩, rfl⟩
    · rintro ⟨k, rest', ⟨rfl, rfl⟩, rfl⟩
      exact ⟨k, rfl, rfl⟩

/-- Where Android's lookup is at a spot, and the names it has left. -/
def androidState : Spot → Path × List Name
  | .top k rest => ([], k.name :: rest)
  | .below _ cur todo => (cur, todo)

/-- Where the chroot's lookup is at a spot, and the names it has left.  It has no place for
`/vendor` as a directory. -/
def chrootState (home : Tree → Path) : Spot → Path × List Name
  | .top k rest => (ubuntu, k.name :: rest)
  | .below (.tree b) cur todo => (b.copy ++ cur.drop (home b).length, todo)
  | .below .vendor cur todo => (cur, todo)

/-- The lookup from the spot does nothing that an admissible one must not do. -/
def Spot.TameFrom (d : Device Fs α) (home : Tree → Path) (s : Spot) : Prop :=
  ∀ k cur n todo, Visits d.view home s (.below k cur (n :: todo)) → Tame d home k cur n

theorem Spot.TameFrom.next {s s' : Spot} (h : s.TameFrom d home)
    (hnext : s.next d.view home = some s') : s'.TameFrom d home :=
  fun k cur n todo hvisits => h k cur n todo (.head hnext hvisits)

theorem isAbsolute_iff {look : Path → Option (Node α)} {cur : Path} {n : Name} :
    isAbsolute look cur n = true ↔
      Plain n ∧ ∃ t, look (cur ++ [n]) = some (.link t) ∧ t.absolute = true := by
  simp only [isAbsolute, Bool.and_eq_true, decide_eq_true_eq]
  refine and_congr_right fun _ => ?_
  split
  · rename_i t ht
    simp [ht]
  · rename_i hnot
    simp only [Bool.false_eq_true, false_iff]
    intro hlink
    obtain ⟨t, ht, -⟩ := hlink
    exact hnot t ht

theorem isAbsolute_of_not_plain {look : Path → Option (Node α)} {cur : Path} {n : Name}
    (h : ¬ Plain n) : isAbsolute look cur n = false := by
  simp [isAbsolute, h]

theorem isAbsolute_of_no_link {look : Path → Option (Node α)} {cur : Path} {n : Name}
    (h : ∀ t, look (cur ++ [n]) = some (.link t) → t.absolute = false) :
    isAbsolute look cur n = false := by
  by_contra htrue
  obtain ⟨-, t, ht, hroot⟩ := isAbsolute_iff.mp (by simpa using htrue)
  rw [h t ht] at hroot
  cases hroot

/-- An entry that is there and no link. -/
theorem isAbsolute_of_entry {look : Path → Option (Node α)} {cur : Path} {n : Name}
    {node : Node α} (hentry : look (cur ++ [n]) = some node) (hnode : ∀ t, node ≠ .link t) :
    isAbsolute look cur n = false := by
  apply isAbsolute_of_no_link
  intro t ht
  rw [hentry, Option.some_inj] at ht
  exact absurd ht (hnode t)

/-- An absolute link leads back to the root, with the names of its text. -/
theorem step_of_isAbsolute {look : Path → Option (Node α)} {root cur : Path} {n : Name}
    {next : Path} {names : List Name} (habs : isAbsolute look cur n = true)
    (h : step look root cur n = some (next, names)) :
    next = root ∧ ∃ t, look (cur ++ [n]) = some (.link t) ∧ t.absolute = true ∧ names = t.comps := by
  obtain ⟨⟨hdot, hdots⟩, t, ht, hroot⟩ := isAbsolute_iff.mp habs
  unfold step at h
  split at h
  · simp only [ht, hroot, if_true, Option.some_inj, Prod.mk.injEq] at h
    exact ⟨h.1.symm, t, ht, hroot, h.2.symm⟩
  · cases h

/-! ## Section 2: The lookup on Android -/

/-- One name of a lookup on Android, as a step from spot to spot. -/
theorem android_hop {k : TopName} {cur : Path} {n : Name} {todo : List Name} {s : Spot}
    (h : Spot.hop d.view k cur n todo = some s) :
    ∃ next names, step d.view [] cur n = some (next, names) ∧
      androidState s = (next, names ++ todo) := by
  unfold Spot.hop at h
  split at h
  · cases h
  · rename_i next names hstep
    refine ⟨next, names, hstep, ?_⟩
    split at h
    · -- an absolute link: back to the top
      rename_i habs
      obtain ⟨rfl, -⟩ := step_of_isAbsolute habs hstep
      obtain ⟨k', rest, hnames, rfl⟩ := enter_eq_some.mp h
      rw [hnames]
      rfl
    · cases h
      rfl

/-- A name of an entry that is no link. -/
theorem hop_of_no_link {look : Path → Option (Node α)} {k : TopName} {cur : Path} {n : Name}
    {todo : List Name} {node : Node α} (hcur : look cur = some .dir) (hplain : Plain n)
    (hentry : look (cur ++ [n]) = some node) (hnode : ∀ t, node ≠ .link t) :
    Spot.hop look k cur n todo = some (.below k (cur ++ [n]) todo) := by
  have habs : isAbsolute look cur n = false := isAbsolute_of_entry hentry hnode
  have hstep : step look [] cur n = some (cur ++ [n], []) := by
    rw [step_name hcur hplain.1 hplain.2, hentry]
    cases node with
    | link t => exact absurd rfl (hnode t)
    | dir => rfl
    | file content => rfl
  rw [Spot.hop, hstep]
  simp [habs]

/-- A tame lookup stops only where the step fails. -/
theorem step_eq_none_of_hop {k : TopName} {cur : Path} {n : Name} {todo : List Name}
    (hlinks : Plain n → ∀ t, d.view (cur ++ [n]) = some (.link t) → t.absolute = true →
      ∃ (k' : TopName) (rest : List Name), t.comps = k'.name :: rest)
    (h : Spot.hop d.view k cur n todo = none) : step d.view [] cur n = none := by
  unfold Spot.hop at h
  split at h
  · assumption
  · rename_i next names hstep
    split at h
    · rename_i habs
      obtain ⟨hplain, -⟩ := isAbsolute_iff.mp habs
      obtain ⟨-, t, ht, hroot, rfl⟩ := step_of_isAbsolute habs hstep
      obtain ⟨k', rest, hcomps⟩ := hlinks hplain t ht hroot
      have henter : Spot.enter (t.comps ++ todo) = some (.top k' (rest ++ todo)) :=
        enter_eq_some.mpr ⟨k', rest ++ todo, by rw [hcomps]; rfl, rfl⟩
      rw [henter] at h
      cases h
    · cases h

/-- Android's lookup goes along the spots. -/
theorem android_stages (hc : Chrooted d home)
    (hvendor : VendorLinked d ∨ d.view ["vendor"] = some .dir) :
    Stages d.view [] (Spot.next d.view home) androidState (Spot.TameFrom d home) where
  kept := fun _ _ hs hnext => hs.next hnext
  down := by
    intro s s' hs hnext fuel e hwalk
    match s, hnext with
    | .top (.tree b) rest, hnext =>
      -- the name may lead to its tree through links
      cases hnext
      exact walk_lt_of_finds (hc.home_found b) hwalk
    | .top .vendor rest, hnext =>
      obtain ⟨next, names, hstep, hstate⟩ := android_hop hnext
      rw [hstate]
      exact walk_lt_of_step hstep hwalk
    | .below k cur (n :: todo), hnext =>
      obtain ⟨next, names, hstep, hstate⟩ := android_hop hnext
      rw [hstate]
      exact walk_lt_of_step hstep hwalk
  up := by
    intro s s' hs hnext e hfinds
    match s, hnext with
    | .top (.tree b) rest, hnext =>
      cases hnext
      exact finds_append (hc.home_found b) hfinds
    | .top .vendor rest, hnext =>
      obtain ⟨next, names, hstep, hstate⟩ := android_hop hnext
      rw [hstate] at hfinds
      exact finds_of_step hstep hfinds
    | .below k cur (n :: todo), hnext =>
      obtain ⟨next, names, hstep, hstate⟩ := android_hop hnext
      rw [hstate] at hfinds
      exact finds_of_step hstep hfinds
  stop := by
    intro s hs hnext e hfinds
    match s, hnext with
    | .top .vendor rest, hnext =>
      -- `/vendor` is a directory, or a link to one of the four names
      have hlinks : Plain "vendor" → ∀ t, d.view ([] ++ ["vendor"]) = some (.link t) →
          t.absolute = true → ∃ (k' : TopName) (rest : List Name), t.comps = k'.name :: rest := by
        intro _ t ht _
        rw [List.nil_append] at ht
        rcases hvendor with hlinked | hdir
        · rw [hlinked] at ht
          cases ht
          exact ⟨.tree .system, ["vendor"], rfl⟩
        · rw [hdir] at ht
          cases ht
      exact absurd hfinds (not_finds_of_step (step_eq_none_of_hop hlinks hnext))
    | .below k cur [], hnext => rfl
    | .below k cur (n :: todo), hnext =>
      have htame := hs k cur n todo .refl
      exact absurd hfinds (not_finds_of_step (step_eq_none_of_hop htame.links hnext))

/-! ## Section 3: One name in a tree -/

/-- The chroot sees the entries of a tree that no mount hides on Android. -/
theorem view_copy (hc : Chrooted d home) {b : Tree} {q : Path}
    (hhold : d.table.holder (home b ++ q) = d.table.holder (home b)) :
    d.view (b.copy ++ q) = d.view (home b ++ q) := by
  rw [Device.view, Device.view, hc.copy_locate, locate_append_of_holder hhold]

/-- What a tame name does that is no absolute link: the lookup stays in the tree and in its
mount. -/
theorem step_inside {b : Tree} {q : Path} {n : Name} {next : Path} {names : List Name}
    (htame : Tame d home (.tree b) (home b ++ q) n)
    (hhold : d.table.holder (home b ++ q) = d.table.holder (home b))
    (habs : isAbsolute d.view (home b ++ q) n = false)
    (hstep : step d.view [] (home b ++ q) n = some (next, names)) :
    ∃ q', next = home b ++ q' ∧ d.table.holder (home b ++ q') = d.table.holder (home b) := by
  unfold step at hstep
  split at hstep
  · by_cases hdot : n = "."
    · simp only [hdot, if_true, Option.some_inj, Prod.mk.injEq] at hstep
      exact ⟨q, hstep.1.symm, hhold⟩
    · by_cases hdots : n = ".."
      · -- `..` goes up, but not out of the tree
        have hne : home b ++ q ≠ home b := htame.climbs hdots
        have hq : q ≠ [] := fun h => hne (by rw [h, List.append_nil])
        have hdrop : (home b ++ q).dropLast = home b ++ q.dropLast :=
          List.dropLast_append_of_ne_nil hq
        have hroot : home b ++ q ≠ [] := by simp [hq]
        rw [if_neg hdot, if_pos hdots, if_neg hroot, Option.some_inj, Prod.mk.injEq, hdrop] at hstep
        refine ⟨q.dropLast, hstep.1.symm, ?_⟩
        apply holder_eq_of_between hhold (List.prefix_append _ _)
        exact (List.prefix_append_right_inj _).mpr (List.dropLast_prefix q)
      · have hplain : Plain n := ⟨hdot, hdots⟩
        rw [if_neg hdot, if_neg hdots] at hstep
        split at hstep
        · cases hstep
        · -- a link, and a relative one: its text is looked up from the same directory
          rename_i t ht
          have hrel : t.absolute = false := by
            by_contra htrue
            have hyes := isAbsolute_iff.mpr ⟨hplain, t, ht, by simpa using htrue⟩
            rw [habs] at hyes
            cases hyes
          simp only [hrel, Bool.false_eq_true, if_false, Option.some_inj, Prod.mk.injEq] at hstep
          exact ⟨q, hstep.1.symm, hhold⟩
        · simp only [Option.some_inj, Prod.mk.injEq] at hstep
          refine ⟨q ++ [n], by rw [← hstep.1, List.append_assoc], ?_⟩
          rw [← List.append_assoc]
          exact htame.unmounted hplain (by simp)
  · cases hstep

/-- `..` below the top of a tree: both sides go up. -/
theorem step_copy_up {b : Tree} {q : Path} (hq : q ≠ [])
    (hcur : d.view (b.copy ++ q) = some .dir) (hdir : d.view (home b ++ q) = some .dir) :
    step d.view ubuntu (b.copy ++ q) ".." = some (b.copy ++ q.dropLast, []) ∧
      step d.view [] (home b ++ q) ".." = some (home b ++ q.dropLast, []) := by
  have hroot : home b ++ q ≠ [] := by simp [hq]
  have hroot' : b.copy ++ q ≠ ubuntu := by
    intro heq
    have hlen := congrArg List.length heq
    simp [Tree.copy, Tree.bound] at hlen
  unfold step
  rw [if_pos (isDir_iff.mpr hcur), if_pos (isDir_iff.mpr hdir)]
  simp only [if_neg hroot, if_neg hroot', List.dropLast_append_of_ne_nil hq]
  exact ⟨rfl, rfl⟩

/-- A plain name: both sides read the same entry. -/
theorem step_copy_plain {b : Tree} {q : Path} {n : Name} (hplain : Plain n)
    (hcur : d.view (b.copy ++ q) = some .dir) (hdir : d.view (home b ++ q) = some .dir)
    (hentry : d.view (b.copy ++ q ++ [n]) = d.view (home b ++ q ++ [n])) :
    step d.view ubuntu (b.copy ++ q) n =
      (step d.view [] (home b ++ q) n).map fun result =>
        (if isAbsolute d.view (home b ++ q) n then ubuntu
          else b.copy ++ result.1.drop (home b).length, result.2) := by
  rw [step_name hcur hplain.1 hplain.2, step_name hdir hplain.1 hplain.2, hentry]
  cases hnode : d.view (home b ++ q ++ [n]) with
  | none => rfl
  | some node =>
    cases node with
    | link t =>
      by_cases hroot : t.absolute = true
      · -- back to the root, each side to its own
        have habs : isAbsolute d.view (home b ++ q) n = true :=
          isAbsolute_iff.mpr ⟨hplain, t, hnode, hroot⟩
        simp [habs, hroot]
      · have habs : isAbsolute d.view (home b ++ q) n = false := by
          apply isAbsolute_of_no_link
          intro t' ht'
          rw [hnode] at ht'
          cases ht'
          simpa using hroot
        simp [habs, hroot]
    | dir =>
      have habs : isAbsolute d.view (home b ++ q) n = false := isAbsolute_of_entry hnode (by simp)
      simp [habs]
    | file content =>
      have habs : isAbsolute d.view (home b ++ q) n = false := isAbsolute_of_entry hnode (by simp)
      simp [habs]

/-- One tame name in a tree: the chroot's lookup does in the copy what Android's does in the
tree, except that it has a root of its own to go back to. -/
theorem step_copy (hc : Chrooted d home) {b : Tree} {q : Path} {n : Name}
    (htame : Tame d home (.tree b) (home b ++ q) n)
    (hhold : d.table.holder (home b ++ q) = d.table.holder (home b)) :
    step d.view ubuntu (b.copy ++ q) n =
      (step d.view [] (home b ++ q) n).map fun result =>
        (if isAbsolute d.view (home b ++ q) n then ubuntu
          else b.copy ++ result.1.drop (home b).length, result.2) := by
  have hsame := view_copy hc hhold
  by_cases hdir : d.view (home b ++ q) = some .dir
  · have hcur : d.view (b.copy ++ q) = some .dir := hsame.trans hdir
    by_cases hplain : Plain n
    · apply step_copy_plain hplain hcur hdir
      have hentry := htame.unmounted hplain (by simp)
      rw [List.append_assoc] at hentry ⊢
      rw [List.append_assoc]
      exact view_copy hc hentry
    · have habs : isAbsolute d.view (home b ++ q) n = false := isAbsolute_of_not_plain hplain
      by_cases hdots : n = ".."
      · have hne : home b ++ q ≠ home b := htame.climbs hdots
        have hq : q ≠ [] := fun h => hne (by rw [h, List.append_nil])
        subst hdots
        obtain ⟨hchroot, handroid⟩ := step_copy_up hq hcur hdir
        rw [hchroot, handroid]
        simp [habs]
      · -- `.` stays where it is
        have hdot : n = "." := by
          by_contra hdot
          exact hplain ⟨hdot, hdots⟩
        unfold step
        rw [if_pos (isDir_iff.mpr hcur), if_pos (isDir_iff.mpr hdir), if_pos hdot, if_pos hdot]
        simp [habs]
  · -- no name can be looked up in what is no directory
    have hisdir : isDir d.view (home b ++ q) = false := by
      simpa using fun h => hdir (isDir_iff.mp h)
    have hisdir' : isDir d.view (b.copy ++ q) = false := by
      simpa using fun h => hdir (hsame ▸ isDir_iff.mp h)
    rw [step_eq_none_of_not_dir hisdir, step_eq_none_of_not_dir hisdir']
    rfl

/-! ## Section 4: The lookup in the chroot -/

/-- A name of a tree leads to its copy. -/
theorem chroot_tree_found (hc : Chrooted d home) (b : Tree) :
    Finds d.view ubuntu ubuntu [b.name] b.copy := by
  have hroot : d.view ubuntu = some .dir := by simpa using hc.way_dir b [] List.nil_prefix
  have hplain : Plain b.name := by cases b <;> decide
  have hstep : step d.view ubuntu ubuntu b.name = some (ubuntu, b.bound) := by
    rw [step_name hroot hplain.1 hplain.2, hc.tree_link]
    rfl
  have hnames : ∀ n ∈ b.bound, n ≠ "." ∧ n ≠ ".." := by cases b <;> decide
  apply finds_of_step hstep
  rw [List.append_nil]
  exact ⟨_, walk_of_dirs (Nat.le_refl _) hnames (fun q hq => hc.way_dir b q hq)⟩

/-- The name `vendor` of the chroot's root is that of a link. -/
theorem chroot_vendor_step (hc : Chrooted d home) :
    step d.view ubuntu ubuntu "vendor" = some (ubuntu, ["system", "vendor"]) := by
  have hroot : d.view ubuntu = some .dir := by simpa using hc.way_dir .data [] List.nil_prefix
  rw [step_name hroot (by decide) (by decide), hc.vendor_link]
  rfl

/-- The spot is at the top, or in a tree that the chroot sees there. -/
def Mirrored (d : Device Fs α) (home : Tree → Path) : Spot → Prop
  | .top _ _ => True
  | .below (.tree b) cur _ =>
      home b <+: cur ∧ d.table.holder cur = d.table.holder (home b)
  | .below .vendor _ _ => False

/-- One name of a lookup in the chroot, as a step from spot to spot. -/
theorem chroot_hop (hc : Chrooted d home) {b : Tree} {q : Path} {n : Name} {todo : List Name}
    {s : Spot} (htame : Tame d home (.tree b) (home b ++ q) n)
    (hhold : d.table.holder (home b ++ q) = d.table.holder (home b))
    (h : Spot.hop d.view (.tree b) (home b ++ q) n todo = some s) :
    Mirrored d home s ∧ ∃ next names, step d.view ubuntu (b.copy ++ q) n = some (next, names) ∧
      chrootState home s = (next, names ++ todo) := by
  -- the chroot's step is Android's step, moved to the copy of the tree
  have hcopy := step_copy hc htame hhold
  unfold Spot.hop at h
  split at h
  · cases h
  · rename_i next names hstep
    rw [hstep, Option.map_some] at hcopy
    split at h
    · rename_i habs
      obtain ⟨k', rest, hnames, rfl⟩ := enter_eq_some.mp h
      refine ⟨trivial, _, _, hcopy, ?_⟩
      rw [if_pos habs]
      show (ubuntu, k'.name :: rest) = (ubuntu, names ++ todo)
      rw [hnames]
    · rename_i habs
      cases h
      obtain ⟨q', rfl, hhold'⟩ := step_inside htame hhold (by simpa using habs) hstep
      refine ⟨⟨List.prefix_append _ _, hhold'⟩, _, _, hcopy, ?_⟩
      rw [if_neg habs]
      rfl

/-- A spot from which the lookup stays where the chroot follows it. -/
structure Followed (d : Device Fs α) (home : Tree → Path) (s : Spot) : Prop where
  tame : s.TameFrom d home
  vendor : VendorLinked d ∨ ∀ rest, ¬ Visits d.view home s (.top .vendor rest)
  mirrored : Mirrored d home s

/-- Where the top-level `/vendor` is a link to `/system/vendor`, a lookup that comes to it goes
on there. -/
theorem next_vendor (hlinked : VendorLinked d) (hroot : d.view [] = some .dir)
    (rest : List Name) :
    Spot.next d.view home (.top .vendor rest) = some (.top (.tree .system) ("vendor" :: rest)) := by
  have hstep : step d.view [] [] "vendor" = some ([], ["system", "vendor"]) := by
    rw [step_name hroot (by decide) (by decide), List.nil_append, hlinked]
    rfl
  have habs : isAbsolute d.view [] "vendor" = true :=
    isAbsolute_iff.mpr ⟨by decide, _, hlinked, rfl⟩
  show Spot.hop d.view .vendor [] "vendor" rest = _
  rw [Spot.hop, hstep]
  simp only [habs, if_true]
  exact enter_eq_some.mpr ⟨.tree .system, "vendor" :: rest, rfl, rfl⟩

/-- One step from spot to spot is one or more steps of the chroot's lookup. -/
theorem chroot_step (hc : Chrooted d home) {s s' : Spot} (htame : s.TameFrom d home)
    (hvendor : VendorLinked d ∨ ∀ rest, s ≠ .top .vendor rest) (hmirrored : Mirrored d home s)
    (hnext : s.next d.view home = some s') :
    Mirrored d home s' ∧
      (∀ fuel e, walk d.view ubuntu fuel (chrootState home s).1 (chrootState home s).2 = some e →
        ∃ fuel' < fuel,
          walk d.view ubuntu fuel' (chrootState home s').1 (chrootState home s').2 = some e) ∧
      ∀ e, Finds d.view ubuntu (chrootState home s').1 (chrootState home s').2 e →
        Finds d.view ubuntu (chrootState home s).1 (chrootState home s).2 e := by
  -- one case for each kind of spot that has a next one
  match s, hmirrored, hnext with
  | .top (.tree b) rest, _, hnext =>
    -- the name is a link there, which leads to the copy of the tree in several steps
    cases hnext
    have hstate : chrootState home (.below (.tree b) (home b) rest) = (b.copy, rest) := by
      simp [chrootState]
    rw [hstate]
    refine ⟨⟨List.prefix_refl _, rfl⟩, ?_, ?_⟩
    · intro fuel e hwalk
      exact walk_lt_of_finds (chroot_tree_found hc b) hwalk
    · intro e hfinds
      exact finds_append (chroot_tree_found hc b) hfinds
  | .top .vendor rest, _, hnext =>
    -- the chroot's `/vendor` is the link that Android's is
    have hlinked : VendorLinked d := hvendor.resolve_right fun hnot => hnot rest rfl
    rw [next_vendor hlinked hc.root_dir, Option.some_inj] at hnext
    subst hnext
    refine ⟨trivial, ?_, ?_⟩
    · intro fuel e hwalk
      exact walk_lt_of_step (chroot_vendor_step hc) hwalk
    · intro e hfinds
      exact finds_of_step (chroot_vendor_step hc) hfinds
  | .below (.tree b) cur (n :: todo), hmirrored, hnext =>
    -- inside a tree one name is one name on both sides
    obtain ⟨⟨q, rfl⟩, hhold⟩ := hmirrored
    have hname := htame (.tree b) (home b ++ q) n todo .refl
    obtain ⟨hmirrored', next, names, hstep, hstate⟩ := chroot_hop hc hname hhold hnext
    have hbefore : chrootState home (.below (.tree b) (home b ++ q) (n :: todo)) =
        (b.copy ++ q, n :: todo) := by
      simp [chrootState]
    rw [hbefore, hstate]
    refine ⟨hmirrored', ?_, ?_⟩
    · intro fuel e hwalk
      exact walk_lt_of_step hstep hwalk
    · intro e hfinds
      exact finds_of_step hstep hfinds

theorem Followed.step (hc : Chrooted d home) {s s' : Spot} (hs : Followed d home s)
    (hnext : s.next d.view home = some s') :
    Followed d home s' ∧
      (∀ fuel e, walk d.view ubuntu fuel (chrootState home s).1 (chrootState home s).2 = some e →
        ∃ fuel' < fuel,
          walk d.view ubuntu fuel' (chrootState home s').1 (chrootState home s').2 = some e) ∧
      ∀ e, Finds d.view ubuntu (chrootState home s').1 (chrootState home s').2 e →
        Finds d.view ubuntu (chrootState home s).1 (chrootState home s).2 e := by
  have hvendor : VendorLinked d ∨ ∀ rest, s ≠ .top .vendor rest := by
    rcases hs.vendor with hlinked | hnot
    · exact Or.inl hlinked
    · refine Or.inr fun rest heq => hnot rest ?_
      rw [heq]
      exact .refl
  obtain ⟨hmirrored, hdown, hup⟩ := chroot_step hc hs.tame hvendor hs.mirrored hnext
  refine ⟨⟨hs.tame.next hnext, ?_, hmirrored⟩, hdown, hup⟩
  exact hs.vendor.imp id fun hnot rest hvisits => hnot rest (.head hnext hvisits)

/-- The chroot's lookup goes along the spots of Android's. -/
theorem chroot_stages (hc : Chrooted d home) :
    Stages d.view ubuntu (Spot.next d.view home) (chrootState home) (Followed d home) where
  kept := fun _ _ hs hnext => (hs.step hc hnext).1
  down := fun _ _ hs hnext => (hs.step hc hnext).2.1
  up := fun _ _ hs hnext => (hs.step hc hnext).2.2
  stop := by
    intro s hs hnext e hfinds
    match s, hs, hnext with
    | .top .vendor rest, hs, hnext =>
      -- a link that is followed is no stop
      have hlinked : VendorLinked d := hs.vendor.resolve_right fun hnot => hnot rest .refl
      rw [next_vendor hlinked hc.root_dir] at hnext
      cases hnext
    | .below (.tree b) cur [], hs, hnext => rfl
    | .below (.tree b) cur (n :: todo), hs, hnext =>
      obtain ⟨⟨q, rfl⟩, hhold⟩ := hs.mirrored
      have htame := hs.tame (.tree b) (home b ++ q) n todo .refl
      -- Android's step fails, so the chroot's step does
      have hnone : step d.view [] (home b ++ q) n = none := step_eq_none_of_hop htame.links hnext
      have hcopy := step_copy hc htame hhold
      rw [hnone, Option.map_none] at hcopy
      have hbefore : chrootState home (.below (.tree b) (home b ++ q) (n :: todo)) =
          (b.copy ++ q, n :: todo) := by
        simp [chrootState]
      rw [hbefore] at hfinds
      exact absurd hfinds (not_finds_of_step hcopy)
    | .below .vendor cur todo, hs, hnext => exact absurd hs.mirrored id

/-! ## Section 5: Both lookups -/

/-- A lookup that comes to an end does so in a tree, at a place that both sides see. -/
theorem locate_chrootState (hc : Chrooted d home) {s : Spot} (hs : Mirrored d home s) {e e' : Path}
    (handroid : androidState s = (e, [])) (hchroot : chrootState home s = (e', [])) :
    d.table.locate e' = d.table.locate e := by
  match s, hs with
  | .top k rest, hs => simp [androidState] at handroid
  | .below (.tree b) cur todo, hs =>
    obtain ⟨⟨q, rfl⟩, hhold⟩ := hs
    simp only [androidState, Prod.mk.injEq] at handroid
    simp only [chrootState, List.drop_left, Prod.mk.injEq] at hchroot
    rw [← handroid.1, ← hchroot.1, hc.copy_locate, locate_append_of_holder hhold]

/-- Where both lookups go along the spots, they agree. -/
theorem agree_of_followed (hc : Chrooted d home)
    (hvendor : VendorLinked d ∨ d.view ["vendor"] = some .dir) {k : TopName} {rest : List Name}
    (hs : Followed d home (.top k rest)) : Agree d (k.name :: rest) := by
  intro file
  have handroid : ∀ e, AndroidFinds d (k.name :: rest) e ↔
      ∃ s', Visits d.view home (.top k rest) s' ∧ androidState s' = (e, []) :=
    fun e => (android_stages hc hvendor).finds_iff hs.tame
  have hchroot : ∀ e, ChrootFinds d (k.name :: rest) e ↔
      ∃ s', Visits d.view home (.top k rest) s' ∧ chrootState home s' = (e, []) :=
    fun e => (chroot_stages hc).finds_iff hs
  constructor
  · intro h
    obtain ⟨e, hfinds, rfl⟩ := h
    -- the spot where Android's lookup ends is one of the chroot's lookup
    obtain ⟨s', hvisits, hend⟩ := (handroid e).mp hfinds
    have hmirrored := ((chroot_stages hc).good_of_run hs hvisits).mirrored
    match s', hmirrored with
    | .top k' rest', _ => simp [androidState] at hend
    | .below (.tree b) cur todo, hmirrored =>
      have hend' : chrootState home (.below (.tree b) cur todo) =
          (b.copy ++ cur.drop (home b).length, []) := by
        simp only [androidState, Prod.mk.injEq] at hend
        rw [hend.2]
        rfl
      exact ⟨_, (hchroot _).mpr ⟨_, hvisits, hend'⟩, locate_chrootState hc hmirrored hend hend'⟩
  · intro h
    obtain ⟨e, hfinds, rfl⟩ := h
    obtain ⟨s', hvisits, hend⟩ := (hchroot e).mp hfinds
    have hmirrored := ((chroot_stages hc).good_of_run hs hvisits).mirrored
    match s', hmirrored with
    | .top k' rest', _ => simp [chrootState] at hend
    | .below (.tree b) cur todo, hmirrored =>
      have hend' : androidState (.below (.tree b) cur todo) = (cur, []) := by
        simp only [chrootState, Prod.mk.injEq] at hend
        rw [hend.2]
        rfl
      exact ⟨_, (handroid _).mpr ⟨_, hvisits, hend'⟩, (locate_chrootState hc hmirrored hend' hend).symm⟩

/-! ## Section 6: `/vendor` as a directory -/

/-- Where `/system/vendor` is a link to `/vendor`, the chroot's `/vendor` leads nowhere: the two
links lead to each other. -/
theorem not_chrootFinds_vendor (hc : Chrooted d home) (hreal : VendorReal d (home .system))
    (rest : List Name) (e : Path) : ¬ ChrootFinds d ("vendor" :: rest) e := by
  -- in the copy of `/system` stands the device's link, which leads back to the chroot's `/vendor`
  have hcopy : d.view Tree.system.copy = some .dir :=
    hc.way_dir .system Tree.system.bound (List.prefix_refl _)
  have hlink : d.view (Tree.system.copy ++ ["vendor"]) = some (.link ⟨true, ["vendor"]⟩) := by
    rw [Device.view, hc.copy_locate]
    exact hreal.2
  have hstep : step d.view ubuntu Tree.system.copy "vendor" = some (ubuntu, ["vendor"]) := by
    rw [step_name hcopy (by decide) (by decide), hlink]
    rfl
  intro hfinds
  obtain ⟨fuel, hwalk⟩ := hfinds
  -- a lookup that came to an end would come back to the same place with fewer steps left
  induction fuel using Nat.strongRecOn with
  | ind fuel ih =>
    obtain ⟨fuel₁, hlt₁, hwalk₁⟩ := walk_lt_of_step (chroot_vendor_step hc) hwalk
    obtain ⟨fuel₂, hlt₂, hwalk₂⟩ := walk_lt_of_finds (chroot_tree_found hc .system) hwalk₁
    obtain ⟨fuel₃, hlt₃, hwalk₃⟩ := walk_lt_of_step hstep hwalk₂
    exact ih fuel₃ (by omega) hwalk₃

/-- A lookup that comes to `/vendor` fails in the chroot then. -/
theorem not_chrootFinds_of_visits (hc : Chrooted d home) (hreal : VendorReal d (home .system))
    {s : Spot} {rest : List Name} (hvisits : Visits d.view home s (.top .vendor rest))
    (htame : s.TameFrom d home) (hmirrored : Mirrored d home s) (e : Path) :
    ¬ Finds d.view ubuntu (chrootState home s).1 (chrootState home s).2 e := by
  induction hvisits using Relation.ReflTransGen.head_induction_on with
  | refl => exact not_chrootFinds_vendor hc hreal rest e
  | @head s s' hnext _ ih =>
    -- either this is where it comes to `/vendor`, or the chroot follows for one more step
    by_cases htop : ∃ rest', s = .top .vendor rest'
    · obtain ⟨rest', rfl⟩ := htop
      exact not_chrootFinds_vendor hc hreal rest' e
    · have hnot : ∀ rest', s ≠ .top .vendor rest' := fun rest' heq => htop ⟨rest', heq⟩
      obtain ⟨hmirrored', hdown, -⟩ := chroot_step hc htame (Or.inr hnot) hmirrored hnext
      intro hfinds
      obtain ⟨fuel, hwalk⟩ := hfinds
      obtain ⟨fuel', -, hwalk'⟩ := hdown fuel e hwalk
      exact ih (htame.next hnext) hmirrored' ⟨fuel', hwalk'⟩

end Udroid.Chroot
