import Mathlib.Data.List.Infix
import Udroid.Chroot.Scripts

/-!
# What the scripts leave

The state of a device after `fsmount` and `udroid-setup-pathlink`, as far as lookups need
it: where the top-level names lead on Android, and what the chroot has in their place.

- `Steady`: what every command of `fsmount` preserves.
- `Mounted`: a tree is seen below the bind copy of `/dev`, and nothing is mounted in it.
- `Phone.chrooted`: the state after both scripts.
-/

namespace Udroid.Chroot

open Udroid.Unix Udroid.Unix.MountTable Udroid.Mounts Udroid.Links

variable {α : Type} {ph : Phone α} {d : Device Fs α} {p : Path}

/-- A mount below `/dev` is also seen below the bind copies of it. -/
abbrev belowDev : Propagation Fs := .below [["dev"]]

/-! ## Section 1: Where `fsmount` mounts -/

/-- A command whose targets are out of the way misses a path, repeats included. -/
theorem misses_belowDev {c : Cmd Fs} (humount : ∀ tgt, c ≠ .umount tgt)
    (h : ∀ tgt ∈ c.target?, ¬ tgt <+: p ∧ (["dev"] <+: tgt → ¬ tgt.drop 1 <:+: p)) :
    Device.Misses belowDev p c := by
  refine ⟨humount, ?_⟩
  intro tgt htgt t r hr hpre
  rcases List.mem_cons.mp hr with rfl | hr
  · exact (h r htgt).1 hpre
  · -- a repeat ends in the names that the target has below `/dev`
    obtain ⟨⟨hdev, -⟩, e, -, rfl⟩ := mem_repeats_below.mp hr
    apply (h tgt htgt).2 hdev
    exact (List.suffix_append e _).isInfix.trans hpre.isInfix

theorem fsmountBody_not_umount : ∀ c ∈ fsmountBody, ∀ tgt, c ≠ Cmd.umount tgt := by
  simp [fsmountBody]

/-- The mounts of `fsmount` are in the chroot, on `/sys/kernel/debug`, or in `block/udroid`. -/
theorem fsmountBody_targets : ∀ c ∈ fsmountBody, ∀ tgt ∈ c.target?,
    (ubuntu <+: tgt ∨ sysDebug <+: tgt ∨ ["block", "udroid"] <:+: tgt) ∧
      (["dev"] <+: tgt → ["block", "udroid"] <:+: tgt.drop 1) := by
  decide

/-- `fsmount` is not noticed on a path apart from its mounts. -/
theorem Apart.misses (h : Apart p) : ∀ c ∈ fsmountBody, Device.Misses belowDev p c := by
  intro c hc
  apply misses_belowDev (fsmountBody_not_umount c hc)
  intro tgt htgt
  obtain ⟨hplace, hdrop⟩ := fsmountBody_targets c hc tgt htgt
  constructor
  · intro hpre
    rcases hplace with hubuntu | hdebug | hudroid
    · exact h.1 (hubuntu.trans hpre)
    · exact h.2.1 (hdebug.trans hpre)
    · exact h.2.2 (hudroid.trans hpre.isInfix)
  · intro hdev hinfix
    exact h.2.2 ((hdrop hdev).trans hinfix)

/-- A command of `fsmount` binds a tree, or mounts neither below `/dev` nor in a bound tree. -/
theorem fsmountBody_cases : ∀ c ∈ fsmountBody,
    (∃ b ∈ [Tree.data, .system, .sdcard], c = .bind [b.name] b.bound) ∨
      ∀ tgt ∈ c.target?, ¬ ["dev"] <+: tgt ∧ ¬ ubuntu ++ udroid <+: tgt := by
  decide

/-! ## Section 2: What all commands of `fsmount` preserve -/

theorem Phone.home_apart (ph : Phone α) (b : Tree) : Apart (ph.home b) := by
  have hdir := (leadsTo_eq_some.mp (ph.home_found b)).2
  by_contra hnot
  rw [apartView, if_neg hnot] at hdir
  cases hdir

theorem apartView_of_apart (h : Apart p) : apartView d p = d.view p := if_pos h

/-- The state of a device in the course of `fsmount`: apart from the mounts nothing moves,
nothing that was there is gone, and in the trees below the bind copy of `/dev` there is no
other bind copy of `/dev`. -/
structure Steady (ph : Phone α) (d : Device Fs α) : Prop where
  seen : ∀ p, Apart p → d.table.seen p = ph.device.table.seen p
  keeps : Device.Keeps ph.device d
  quiet : ∀ m ∈ d.table.mounts, ubuntu ++ udroid <+: m.point →
    m.fs ≠ (ph.device.table.locate ["dev"]).1

theorem steady_device (ph : Phone α) : Steady ph ph.device where
  seen := fun _ _ => rfl
  keeps := Device.Keeps.refl _
  quiet := by
    intro m hm hpre
    exact absurd ((List.prefix_append _ _).trans hpre) (ph.clean.clearUbuntu m hm)

theorem Steady.view_eq (h : Steady ph d) (hp : Apart p) (hthere : ph.device.view p ≠ none) :
    d.view p = ph.device.view p :=
  h.keeps.view_eq (h.seen p hp) hthere

theorem Steady.locate_eq (h : Steady ph d) (hp : Apart p) :
    d.table.locate p = ph.device.table.locate p :=
  locate_eq_of_seen (h.seen p hp)

/-- The three names lead where they led. -/
theorem Steady.leads (h : Steady ph d) (b : Tree) :
    leadsTo d.view [] ph.limit [b.name] = some (ph.home b) := by
  -- the lookup reads only what is apart from the mounts, and all of that is still there
  have hle : ∀ p, apartView ph.device p ≠ none → d.view p = apartView ph.device p := by
    intro p hp
    by_cases hapart : Apart p
    · rw [apartView_of_apart hapart] at hp ⊢
      exact h.view_eq hapart hp
    · rw [apartView, if_neg hapart] at hp
      exact absurd rfl hp
  obtain ⟨hwalk, hdir⟩ := leadsTo_eq_some.mp (ph.home_found b)
  apply leadsTo_eq_some.mpr
  refine ⟨walk_of_le hle hwalk, ?_⟩
  rw [hle _ (by simp [hdir]), hdir]

theorem Steady.exec (h : Steady ph d) {c : Cmd Fs} (hc : c ∈ fsmountBody) :
    Steady ph (d.exec belowDev ph.limit c) where
  seen := by
    intro p hp
    exact (Device.seen_exec (hp.misses c hc)).trans (h.seen p hp)
  keeps := h.keeps.trans (Device.keeps_exec c)
  quiet := by
    intro m hm hpre
    rcases fsmountBody_cases c hc with ⟨b, -, rfl⟩ | hother
    · -- a bound tree is on another file system than `/dev`
      simp only [Device.exec, h.leads b] at hm
      split at hm
      · rcases mem_attach hm with hm | ⟨r, -, rfl⟩
        · exact h.quiet m hm hpre
        · show (d.table.locate (ph.home b)).1 ≠ _
          rw [h.locate_eq (ph.home_apart b)]
          exact ph.home_fs b
      · exact h.quiet m hm hpre
    · -- the other targets are not in `block/udroid`, and are not repeated
      rcases Device.mem_exec (fsmountBody_not_umount c hc) hm with
        ⟨e, he, hpoint, hfs⟩ | ⟨tgt, htgt, hmem⟩
      · rw [← hfs]
        exact h.quiet e he (hpoint ▸ hpre)
      · obtain ⟨hdev, hudroid⟩ := hother tgt htgt
        have hnil : belowDev.repeats d.table tgt = [] :=
          repeats_below_eq_nil fun hpre => absurd hpre hdev
        rw [hnil, List.mem_singleton] at hmem
        exact absurd (hmem ▸ hpre) hudroid

theorem Steady.run (h : Steady ph d) {script : List (Cmd Fs)}
    (hscript : ∀ c ∈ script, c ∈ fsmountBody) :
    Steady ph (d.run belowDev ph.limit script) := by
  induction script generalizing d with
  | nil => exact h
  | cons c cs ih =>
    exact ih (h.exec (hscript c (by simp))) fun e he => hscript e (by simp [he])

/-! ## Section 3: The bind copy of `/dev` -/

/-- The commands up to the bind of `/dev`. -/
def beforeDev : List (Cmd Fs) := fsmountBody.take 6

/-- The commands between the bind of `/dev` and the `mkdir` lines. -/
def afterDev : List (Cmd Fs) := (fsmountBody.drop 7).take 2

theorem run_append (limit : Nat) (a b : List (Cmd Fs)) (d : Device Fs α) :
    d.run belowDev limit (a ++ b) = (d.run belowDev limit a).run belowDev limit b :=
  List.foldl_append

/-- The place of `/data/ubuntu/dev` in the course of `fsmount`: what is below it there, down
to where the trees are bound, is what is below `/dev`. -/
def DevCopied (ph : Phone α) (d : Device Fs α) : Prop :=
  ∀ q, q <+: ["block", "udroid"] →
    d.table.seen (ubuntuDev ++ q) = (ubuntuDev, ph.device.table.locate ["dev"])

theorem DevCopied.locate_eq (h : DevCopied ph d) {q : Path} (hq : q <+: ["block", "udroid"]) :
    d.table.locate (ubuntuDev ++ q) =
      ((ph.device.table.locate ["dev"]).1, (ph.device.table.locate ["dev"]).2 ++ q) :=
  locate_of_seen (h q hq)

/-- The commands before the bind of `/dev` do not mount on `/data/ubuntu/dev`. -/
theorem beforeDev_misses_ubuntuDev :
    ∀ c ∈ beforeDev, Device.Misses belowDev ubuntuDev c := by
  have htargets : ∀ c ∈ beforeDev, ∀ tgt ∈ c.target?, ¬ tgt <+: ubuntuDev ∧ ¬ ["dev"] <+: tgt := by
    decide
  intro c hc
  apply misses_belowDev (fsmountBody_not_umount c (List.mem_of_mem_take hc))
  intro tgt htgt
  obtain ⟨hpre, hdev⟩ := htargets c hc tgt htgt
  exact ⟨hpre, fun h => absurd h hdev⟩

theorem exec_bindDev (h : Steady ph d) (hseen : d.table.seen ubuntuDev = ph.device.table.seen ubuntuDev) :
    DevCopied ph (d.exec belowDev ph.limit (.bind ["dev"] ubuntuDev)) := by
  have hroot : d.view [] = some .dir := by
    rw [h.view_eq (by decide) (by simp [ph.root_dir]), ph.root_dir]
  have hdev : d.view ["dev"] = some .dir := by
    rw [h.view_eq (by decide) (by simp [ph.dev_dir]), ph.dev_dir]
  have hubuntuDev : d.view ubuntuDev = some .dir := by
    rw [h.keeps.view_eq hseen (by simp [ph.ubuntuDev_dir]), ph.ubuntuDev_dir]
  have hlead : leadsTo d.view [] ph.limit ["dev"] = some ["dev"] :=
    leadsTo_of_dir hroot (by decide) (by decide) hdev
  intro q _
  have hnil : belowDev.repeats d.table ubuntuDev = [] := repeats_below_eq_nil (by decide)
  -- `/data/ubuntu/dev` is not below `/dev`, so this bind is made once
  rw [Device.exec_bind hlead hubuntuDev]
  show (d.table.attach belowDev _).seen (ubuntuDev ++ q) = _
  rw [seen_attach_of_mem (List.mem_cons_self) (List.prefix_append _ _)]
  · rw [← h.locate_eq (p := ["dev"]) (by decide)]
  · intro r hr _
    rw [hnil, List.mem_singleton] at hr
    exact hr

/-- The commands after it do not hide the copy: a repeat below it is made further down. -/
theorem DevCopied.exec (h : DevCopied ph d) {c : Cmd Fs} (hc : c ∈ fsmountBody.drop 7) :
    DevCopied ph (d.exec belowDev ph.limit c) := by
  have htargets : ∀ c ∈ fsmountBody.drop 7, ∀ q ∈ [[], ["block"], ["block", "udroid"]],
      ∀ tgt ∈ c.target?, ¬ tgt <+: ubuntuDev ++ q ∧ ¬ tgt.drop 1 <:+: ubuntuDev ++ q := by
    decide
  intro q hq
  have hmem : q ∈ [[], ["block"], ["block", "udroid"]] := by
    simpa [List.inits] using (List.mem_inits _ _).mpr hq
  rw [Device.seen_exec, h q hq]
  apply misses_belowDev (fsmountBody_not_umount c (List.mem_of_mem_drop hc))
  intro tgt htgt
  obtain ⟨hpre, hinfix⟩ := htargets c hc q hmem tgt htgt
  exact ⟨hpre, fun _ => hinfix⟩

theorem DevCopied.run (h : DevCopied ph d) {script : List (Cmd Fs)}
    (hscript : ∀ c ∈ script, c ∈ fsmountBody.drop 7) :
    DevCopied ph (d.run belowDev ph.limit script) := by
  induction script generalizing d with
  | nil => exact h
  | cons c cs ih =>
    exact ih (h.exec (hscript c (by simp))) fun e he => hscript e (by simp [he])

/-! ## Section 4: The directories for the trees -/

/-- The state in which the `mkdir` lines run: `/dev` is there, and what there is of the
directories to be made are directories on its file system. -/
structure DevReady (ph : Phone α) (d : Device Fs α) : Prop where
  root_dir : d.view [] = some .dir
  dev_dir : d.view ["dev"] = some .dir
  free : ∀ (b : Tree) (q : Path), q <+: ["block", "udroid", b.name] →
    d.view (["dev"] ++ q) = none ∨ d.view (["dev"] ++ q) = some .dir
  located : ∀ (b : Tree) (q : Path), q <+: ["block", "udroid", b.name] →
    d.table.locate (["dev"] ++ q) =
      ((ph.device.table.locate ["dev"]).1, (ph.device.table.locate ["dev"]).2 ++ q)

theorem DevReady.view_eq (h : DevReady ph d) {b : Tree} {q : Path}
    (hq : q <+: ["block", "udroid", b.name]) :
    d.view (["dev"] ++ q) = (d.files (ph.device.table.locate ["dev"]).1).look
      ((ph.device.table.locate ["dev"]).2 ++ q) := by
  rw [Device.view, h.located b q hq]

theorem Phone.holder_bound (ph : Phone α) (b : Tree) :
    ph.device.table.holder (udroid ++ [b.name]) = ph.device.table.holder ["dev"] := by
  have hclear : ph.device.table.ClearAt (udroid ++ [b.name]) := by
    intro m hm hpre
    have hpoint := ph.clean.clearUdroid m hm ((List.prefix_append _ _).trans hpre)
    -- a mount below `/dev/block/udroid` could only be on it, but then it is not as far down
    rw [hpoint] at hpre
    have hle := hpre.length_le
    simp at hle
  have hholder := holder_append_of_clearAt hclear []
  rw [List.append_nil] at hholder
  exact hholder.trans ph.udroid_holder

theorem Phone.locate_dev (ph : Phone α) {b : Tree} {q : Path}
    (hq : q <+: ["block", "udroid", b.name]) :
    ph.device.table.locate (["dev"] ++ q) =
      ((ph.device.table.locate ["dev"]).1, (ph.device.table.locate ["dev"]).2 ++ q) := by
  apply locate_append_of_holder
  apply holder_eq_of_between (ph.holder_bound b) (List.prefix_append _ _)
  exact (List.prefix_append_right_inj ["dev"]).mpr hq

/-- Nothing on the way to the bound trees moves before the `mkdir` lines. -/
theorem devReady_beforeMkdir (ph : Phone α) :
    DevReady ph (ph.device.run belowDev ph.limit (fsmountBody.take 9)) := by
  have hsteady : Steady ph (ph.device.run belowDev ph.limit (fsmountBody.take 9)) :=
    (steady_device ph).run fun c hc => List.mem_of_mem_take hc
  have hfiles : (ph.device.run belowDev ph.limit (fsmountBody.take 9)).files = ph.device.files := by
    apply Device.files_run
    simp [fsmountBody]
  have htargets : ∀ c ∈ fsmountBody.take 9, ∀ tgt ∈ c.target?, ¬ ["dev"] <+: tgt ∧ tgt ≠ [] := by
    decide
  -- the first nine commands mount neither on `/dev` nor below it
  have hseen : ∀ q, (ph.device.run belowDev ph.limit (fsmountBody.take 9)).table.seen (["dev"] ++ q) =
      ph.device.table.seen (["dev"] ++ q) := by
    intro q
    apply Device.seen_run
    intro c hc
    apply misses_belowDev (fsmountBody_not_umount c (List.mem_of_mem_take hc))
    intro tgt htgt
    obtain ⟨hdev, hne⟩ := htargets c hc tgt htgt
    refine ⟨?_, fun h => absurd h hdev⟩
    intro hpre
    obtain ⟨n, rest, rfl⟩ := List.exists_cons_of_ne_nil hne
    obtain ⟨rfl, -⟩ := List.cons_prefix_cons.mp hpre
    exact hdev (by simp)
  constructor
  · rw [hsteady.view_eq (by decide) (by simp [ph.root_dir]), ph.root_dir]
  · rw [hsteady.view_eq (by decide) (by simp [ph.dev_dir]), ph.dev_dir]
  · intro b q hq
    rw [Device.view_eq_of_seen (hseen q) hfiles]
    exact ph.udroid_free b q hq
  · intro b q hq
    rw [locate_eq_of_seen (hseen q)]
    exact ph.locate_dev hq

/-- One `mkdir` line: the directory and all above it are there, and only the file system of
`/dev` is written. -/
theorem DevReady.mkdir (h : DevReady ph d) (b : Tree) :
    DevReady ph (d.exec belowDev ph.limit (.mkdir b.bound)) ∧
      (∀ q, q <+: b.bound → (d.exec belowDev ph.limit (.mkdir b.bound)).view q = some .dir) ∧
      ∀ fs, fs ≠ (ph.device.table.locate ["dev"]).1 →
        (d.exec belowDev ph.limit (.mkdir b.bound)).files fs = d.files fs := by
  have hlead : leadsTo d.view [] ph.limit [] = some [] := leadsTo_nil h.root_dir
  -- `/dev` is there, so the directories are made below it
  have hexec : d.exec belowDev ph.limit (.mkdir b.bound) =
      d.mkdirP ph.limit ["dev"] ["block", "udroid", b.name] := by
    show (d.mkdirOne ph.limit [] "dev").mkdirP ph.limit ["dev"] ["block", "udroid", b.name] = _
    rw [Device.mkdirOne_of_there hlead (by simp [h.dev_dir])]
  have hdev : d.table.locate ["dev"] = ph.device.table.locate ["dev"] := by
    simpa using h.located b [] (by simp)
  have hparent : ∀ q, q <+: ["dev"] → d.view q = some .dir := by
    intro q hq
    have hmem : q ∈ [[], ["dev"]] := by simpa [List.inits] using (List.mem_inits _ _).mpr hq
    rcases List.mem_pair.mp hmem with rfl | rfl
    · exact h.root_dir
    · exact h.dev_dir
  have hplain : ∀ n ∈ ["dev"] ++ ["block", "udroid", b.name], n ≠ "." ∧ n ≠ ".." := by
    cases b <;> decide
  have hlen : (["dev"] ++ ["block", "udroid", b.name]).length ≤ ph.limit + 1 :=
    Nat.succ_le_succ ph.limit_ge
  have hlocated : ∀ q, q <+: ["block", "udroid", b.name] → d.table.locate (["dev"] ++ q) =
      ((d.table.locate ["dev"]).1, (d.table.locate ["dev"]).2 ++ q) := by
    intro q hq
    rw [h.located b q hq, hdev]
  obtain ⟨hview, hfiles⟩ := Device.mkdirP_of_canonical hlen hplain hparent (h.free b) hlocated
  rw [hdev] at hfiles
  rw [hexec]
  refine ⟨?_, hview, hfiles⟩
  constructor
  · exact hview [] List.nil_prefix
  · exact hview ["dev"] (by simp)
  · intro b' q hq
    rcases Device.view_mkdirP d ["dev"] ["block", "udroid", b.name] (["dev"] ++ q) with hsame | hdir
    · rw [hsame]
      exact h.free b' q hq
    · exact Or.inr hdir
  · intro b' q hq
    rw [Device.table_mkdirP]
    exact h.located b' q hq

/-- The `mkdir` lines for a list of trees. -/
theorem DevReady.run (h : DevReady ph d) (bs : List Tree) :
    DevReady ph (d.run belowDev ph.limit (bs.map fun b => .mkdir b.bound)) ∧
      (∀ b ∈ bs, ∀ q, q <+: b.bound →
        (d.run belowDev ph.limit (bs.map fun b => .mkdir b.bound)).view q = some .dir) ∧
      ∀ fs, fs ≠ (ph.device.table.locate ["dev"]).1 →
        (d.run belowDev ph.limit (bs.map fun b => .mkdir b.bound)).files fs = d.files fs := by
  induction bs generalizing d with
  | nil => exact ⟨h, by simp, fun _ _ => rfl⟩
  | cons b bs ih =>
    obtain ⟨hready, hmade, hfiles⟩ := h.mkdir b
    obtain ⟨hdone, hview, hrest⟩ := ih hready
    have hsplit : d.run belowDev ph.limit ((b :: bs).map fun b => .mkdir b.bound) =
        (d.exec belowDev ph.limit (.mkdir b.bound)).run belowDev ph.limit
          (bs.map fun b => .mkdir b.bound) := rfl
    rw [hsplit]
    refine ⟨hdone, ?_, ?_⟩
    · intro b' hb' q hq
      rcases List.mem_cons.mp hb' with rfl | hb'
      · -- what the first line has made stays
        have hdir := hmade q hq
        rw [(Device.keeps_run _).view_eq ?_ (by simp [hdir]), hdir]
        apply Device.seen_run
        intro c hc
        obtain ⟨e, -, rfl⟩ := List.mem_map.mp hc
        exact ⟨by simp, by simp [Cmd.target?]⟩
      · exact hview b' hb' q hq
    · intro fs hfs
      rw [hrest fs hfs, hfiles fs hfs]

/-! ## Section 5: The bound trees -/

/-- The tree is what the chroot sees at its place, and nothing is mounted in it there. -/
def Mounted (ph : Phone α) (d : Device Fs α) (b : Tree) : Prop :=
  ∀ q, d.table.seen (b.copy ++ q) = (b.copy, ph.device.table.locate (ph.home b))

/-- Above `/data/ubuntu/dev/block/udroid/b'` only `/data/ubuntu/dev` has a place for a repeat
at or above a path in there. -/
theorem copy_of_repeat {b b' : Tree} {c q : Path} (hc : c <+: b'.copy) (hne : c ≠ b'.copy)
    (h : c ++ ["block", "udroid", b.name] <+: b'.copy ++ q) : b = b' ∧ c = ubuntuDev := by
  have hmem := (List.mem_inits _ _).mpr hc
  -- the seven paths above the copy, tried for each pair of trees
  cases b <;> cases b' <;>
    simp [Tree.copy, Tree.bound, Tree.name, List.inits] at hmem hne h ⊢ <;>
    rcases hmem with rfl | rfl | rfl | rfl | rfl | rfl | rfl <;> simp at hne h ⊢

/-- The bind of a tree is only seen in its own copy. -/
theorem Steady.repeat_below (h : Steady ph d) {b b' : Tree} {r q : Path}
    (hr : r ∈ b.bound :: belowDev.repeats d.table b.bound) (hpre : r <+: b'.copy ++ q) :
    b = b' ∧ r = b.copy := by
  rcases List.mem_cons.mp hr with rfl | hr
  · obtain ⟨hhead, -⟩ := List.cons_prefix_cons.mp hpre
    exact absurd hhead (by decide)
  · obtain ⟨-, c, hc, rfl⟩ := mem_repeats_below.mp hr
    obtain ⟨m, hm, rfl, hcopy, -⟩ := mem_bindCopies.mp hc
    -- no bind copy of `/dev` is as far down as the copy of a tree
    have hnot : ¬ b'.copy <+: m.point := by
      intro hbelow
      have hudroid : ubuntu ++ udroid <+: b'.copy := by
        rw [Tree.copy, Tree.bound, ← List.append_assoc]
        exact List.prefix_append _ _
      apply h.quiet m hm (hudroid.trans hbelow)
      rw [← h.locate_eq (p := ["dev"]) (by decide), ← hcopy]
    have habove : m.point <+: b'.copy := by
      rcases List.prefix_or_prefix_of_prefix ((List.prefix_append _ _).trans hpre)
        (List.prefix_append b'.copy q) with habove | hbelow
      · exact habove
      · exact absurd hbelow hnot
    have hne : m.point ≠ b'.copy := fun heq => hnot (heq ▸ List.prefix_refl _)
    obtain ⟨rfl, hpoint⟩ := copy_of_repeat habove hne hpre
    exact ⟨rfl, by rw [hpoint]; rfl⟩

/-- The bind of a tree shows it in the chroot. -/
theorem Steady.mounted (h : Steady ph d) (hcopied : DevCopied ph d) {b : Tree}
    (htgt : d.view b.bound = some .dir) :
    Mounted ph (d.exec belowDev ph.limit (.bind [b.name] b.bound)) b := by
  intro q
  have hseen : d.table.seen ubuntuDev = (ubuntuDev, ph.device.table.locate ["dev"]) := by
    simpa using hcopied [] List.nil_prefix
  simp only [MountTable.seen, Prod.mk.injEq] at hseen
  obtain ⟨hpoint, hplace⟩ := hseen
  -- the mount on `/data/ubuntu/dev` is a bind copy of `/dev`, so the bind is repeated there
  have hmem : d.table.holder ubuntuDev ∈ d.table.mounts := by
    apply holder_mem_of_point_ne_nil
    rw [hpoint]
    decide
  have hcopy : ubuntuDev ∈ d.table.bindCopies ["dev"] := by
    apply mem_bindCopies.mpr
    refine ⟨_, hmem, hpoint, ?_, by rw [hpoint]; decide⟩
    rw [h.locate_eq (p := ["dev"]) (by decide)]
    exact hplace
  have hrepeat : b.copy ∈ b.bound :: belowDev.repeats d.table b.bound := by
    apply List.mem_cons_of_mem
    apply mem_repeats_below.mpr
    refine ⟨⟨List.prefix_append ["dev"] ["block", "udroid", b.name], ?_⟩, ubuntuDev, hcopy, rfl⟩
    simp [Tree.bound]
  rw [Device.exec_bind (h.leads b) htgt]
  show (d.table.attach belowDev _).seen (b.copy ++ q) = _
  rw [seen_attach_of_mem hrepeat (List.prefix_append _ _)]
  · rw [← h.locate_eq (ph.home_apart b)]
  · intro r hr hpre
    exact (h.repeat_below hr hpre).2

/-- The other binds do not hide it. -/
theorem Mounted.exec_bind {b b' : Tree} (hmounted : Mounted ph d b') (h : Steady ph d)
    (hne : b ≠ b') : Mounted ph (d.exec belowDev ph.limit (.bind [b.name] b.bound)) b' := by
  intro q
  rw [← hmounted q]
  have hmiss : ∀ r ∈ b.bound :: belowDev.repeats d.table b.bound, ¬ r <+: b'.copy ++ q :=
    fun r hr hpre => hne (h.repeat_below hr hpre).1
  simp only [Device.exec, h.leads b]
  split
  · exact seen_attach_of_not_below hmiss
  · rfl

theorem Mounted.exec_remount {b : Tree} (hmounted : Mounted ph d b) (ro : Bool) (tgt : Path) :
    Mounted ph (d.exec belowDev ph.limit (.remount ro tgt)) b := by
  intro q
  rw [← hmounted q]
  exact seen_remount _ _ _ _

/-- The bind of a tree is not seen where another one is going to be bound. -/
theorem view_bound_exec {b b' : Tree} (hne : b ≠ b') :
    (d.exec belowDev ph.limit (.bind [b.name] b.bound)).view b'.bound = d.view b'.bound := by
  apply Device.view_eq_of_seen
  · apply Device.seen_exec
    apply misses_belowDev (by simp)
    revert hne
    cases b <;> cases b' <;> decide
  · exact Device.files_exec (by simp)

/-- The state after `fsmount`. -/
structure Bound (ph : Phone α) (d : Device Fs α) : Prop where
  steady : Steady ph d
  copied : DevCopied ph d
  mounted : ∀ b, Mounted ph d b
  dirs : ∀ q, q <+: ["block", "udroid"] → d.view (ubuntuDev ++ q) = some .dir
  files : ∀ fs, fs ≠ (ph.device.table.locate ["dev"]).1 → d.files fs = ph.device.files fs

/-- The commands after the `mkdir` lines. -/
def treeBinds : List (Cmd Fs) := fsmountBody.drop 12

/-- The device once `fsmount` has made its directories. -/
def Phone.made (ph : Phone α) : Device Fs α :=
  (ph.device.run belowDev ph.limit (fsmountBody.take 9)).run belowDev ph.limit
    ([Tree.data, .system, .sdcard].map fun b => .mkdir b.bound)

theorem fsmount_eq (ph : Phone α) :
    fsmount ph.limit ph.device = ph.made.run belowDev ph.limit treeBinds := by
  have hmount : ph.device.table.mountpoint ubuntuProc = false :=
    mountpoint_eq_false_of_clearAt ph.clean.clearUbuntu (List.prefix_append _ _)
  have hsplit : fsmountBody = fsmountBody.take 9 ++
      (([Tree.data, .system, .sdcard].map fun b => .mkdir b.bound) ++ treeBinds) := rfl
  rw [Phone.made, ← run_append, ← run_append, ← hsplit]
  simp [fsmount, hmount]

theorem steady_made (ph : Phone α) : Steady ph ph.made := by
  have hbefore : Steady ph (ph.device.run belowDev ph.limit (fsmountBody.take 9)) :=
    (steady_device ph).run fun c hc => List.mem_of_mem_take hc
  exact hbefore.run (by decide)

theorem devCopied_made (ph : Phone α) : DevCopied ph ph.made := by
  have hfirst : Steady ph (ph.device.run belowDev ph.limit beforeDev) :=
    (steady_device ph).run fun c hc => List.mem_of_mem_take hc
  have hdev := exec_bindDev hfirst (Device.seen_run beforeDev_misses_ubuntuDev)
  have hafter : ∀ c ∈ afterDev, c ∈ fsmountBody.drop 7 := fun c hc => List.mem_of_mem_take hc
  exact (hdev.run hafter).run (by decide)

theorem devReady_made (ph : Phone α) : DevReady ph ph.made :=
  ((devReady_beforeMkdir ph).run _).1

theorem dirs_made (ph : Phone α) {b : Tree} {q : Path} (hq : q <+: b.bound) :
    ph.made.view q = some .dir := by
  apply ((devReady_beforeMkdir ph).run [.data, .system, .sdcard]).2.1 b
  · cases b <;> simp
  · exact hq

theorem files_made (ph : Phone α) {fs : Fs} (hfs : fs ≠ (ph.device.table.locate ["dev"]).1) :
    ph.made.files fs = ph.device.files fs := by
  have hbefore : (ph.device.run belowDev ph.limit (fsmountBody.take 9)).files = ph.device.files := by
    apply Device.files_run
    simp [fsmountBody]
  have hmade := ((devReady_beforeMkdir ph).run [.data, .system, .sdcard]).2.2 fs hfs
  rw [Phone.made, hmade, hbefore]

/-- `fsmount` does not mount on the names of the chroot's root that are to be linked, nor on
that root. -/
theorem fsmountBody_misses_ubuntu : ∀ q ∈ [[], ["data"], ["system"], ["sdcard"], ["vendor"]],
    ∀ c ∈ fsmountBody, Device.Misses belowDev (ubuntu ++ q) c := by
  have htargets : ∀ q ∈ [[], ["data"], ["system"], ["sdcard"], ["vendor"]],
      ∀ c ∈ fsmountBody, ∀ tgt ∈ c.target?,
        ¬ tgt <+: ubuntu ++ q ∧ (["dev"] <+: tgt → ¬ tgt.drop 1 <:+: ubuntu ++ q) := by
    decide
  intro q hq c hc
  exact misses_belowDev (fsmountBody_not_umount c hc) (htargets q hq c hc)

/-- The binds of the trees, once the directories for them are there. -/
theorem mounted_treeBinds (h : Steady ph d) (hcopied : DevCopied ph d)
    (hdirs : ∀ b : Tree, d.view b.bound = some .dir) (b : Tree) :
    Mounted ph (d.run belowDev ph.limit treeBinds) b := by
  have hmem : ∀ b : Tree, Cmd.bind [b.name] b.bound ∈ fsmountBody.drop 7 := by
    intro b
    cases b <;> decide
  have hsteady : ∀ {d : Device Fs α} (b : Tree), Steady ph d →
      Steady ph (d.exec belowDev ph.limit (.bind [b.name] b.bound)) :=
    fun b h => h.exec (List.mem_of_mem_drop (hmem b))
  -- the states after each of the first three commands
  let d1 := d.exec belowDev ph.limit (.bind [Tree.data.name] Tree.data.bound)
  let d2 := d1.exec belowDev ph.limit (.bind [Tree.system.name] Tree.system.bound)
  let d3 := d2.exec belowDev ph.limit (.remount false (ubuntu ++ Tree.system.bound))
  have hsteady1 : Steady ph d1 := hsteady .data h
  have hsteady2 : Steady ph d2 := hsteady .system hsteady1
  have hsteady3 : Steady ph d3 := hsteady2.exec (by decide)
  have hcopied1 : DevCopied ph d1 := hcopied.exec (hmem .data)
  have hcopied3 : DevCopied ph d3 := (hcopied1.exec (hmem .system)).exec (by decide)
  have hsystem1 : d1.view Tree.system.bound = some .dir := by
    rw [view_bound_exec (by decide), hdirs]
  have hsdcard3 : d3.view Tree.sdcard.bound = some .dir := by
    have hremount : d3.view Tree.sdcard.bound = d2.view Tree.sdcard.bound :=
      Device.view_eq_of_seen (seen_remount _ _ _ _) rfl
    rw [hremount, view_bound_exec (by decide), view_bound_exec (by decide), hdirs]
  -- each tree is bound by one command, and the commands after it leave its copy alone
  show Mounted ph (d3.exec belowDev ph.limit (.bind [Tree.sdcard.name] Tree.sdcard.bound)) b
  cases b with
  | data =>
    have hfirst : Mounted ph d1 .data := h.mounted hcopied (hdirs .data)
    have hsecond : Mounted ph d2 .data := hfirst.exec_bind hsteady1 (by decide)
    exact (hsecond.exec_remount _ _).exec_bind hsteady3 (by decide)
  | system =>
    have hsecond : Mounted ph d2 .system := hsteady1.mounted hcopied1 hsystem1
    exact (hsecond.exec_remount _ _).exec_bind hsteady3 (by decide)
  | sdcard => exact hsteady3.mounted hcopied3 hsdcard3

theorem files_fsmount (ph : Phone α) : (fsmount ph.limit ph.device).files = ph.made.files := by
  rw [fsmount_eq]
  apply Device.files_run
  simp [treeBinds, fsmountBody]

/-- Where nothing of `fsmount` is in the way, the chroot's root is as it was. -/
theorem seen_fsmount_ubuntu (ph : Phone α) {q : Path}
    (hq : q ∈ [[], ["data"], ["system"], ["sdcard"], ["vendor"]]) :
    (fsmount ph.limit ph.device).table.seen (ubuntu ++ q) =
      ph.device.table.seen (ubuntu ++ q) := by
  have hmount : ph.device.table.mountpoint ubuntuProc = false :=
    mountpoint_eq_false_of_clearAt ph.clean.clearUbuntu (List.prefix_append _ _)
  simp only [fsmount, hmount, Bool.false_eq_true, if_false]
  exact Device.seen_run (fsmountBody_misses_ubuntu q hq)

theorem fsmount_bound (ph : Phone α) : Bound ph (fsmount ph.limit ph.device) := by
  have hsteady : Steady ph (fsmount ph.limit ph.device) := by
    rw [fsmount_eq]
    exact (steady_made ph).run fun c hc => List.mem_of_mem_drop hc
  have hcopied : DevCopied ph (fsmount ph.limit ph.device) := by
    rw [fsmount_eq]
    exact (devCopied_made ph).run (by decide)
  refine ⟨hsteady, hcopied, ?_, ?_, ?_⟩
  · intro b
    rw [fsmount_eq]
    apply mounted_treeBinds (steady_made ph) (devCopied_made ph)
    intro b
    exact dirs_made ph (List.prefix_refl _)
  · intro q hq
    -- the copy of `/dev` has what `/dev` has
    have hbound : q <+: ["block", "udroid", Tree.data.name] := hq.trans (List.prefix_append _ _)
    have hpre : ["dev"] ++ q <+: Tree.data.bound := List.cons_prefix_cons.mpr ⟨rfl, hbound⟩
    have hdir : ph.made.view (["dev"] ++ q) = some .dir := dirs_made ph hpre
    rw [Device.view, hcopied.locate_eq hq, files_fsmount, ← (devReady_made ph).view_eq hbound]
    exact hdir
  · intro fs hfs
    rw [files_fsmount, files_made ph hfs]

/-! ## Section 6: The links of the chroot -/

/-- The rootfs lies in the mount of `/data`. -/
theorem Phone.holder_ubuntu (ph : Phone α) (q : Path) :
    ph.device.table.holder (ubuntu ++ q) = ph.device.table.holder ["data"] := by
  have hclear : ph.device.table.ClearAt (["data"] ++ ["ubuntu"]) := ph.clean.clearUbuntu
  exact holder_append_of_clearAt hclear q

theorem Phone.locate_ubuntu (ph : Phone α) (n : Name) :
    ph.device.table.locate (ubuntu ++ [n]) =
      ((ph.device.table.locate ubuntu).1, (ph.device.table.locate ubuntu).2 ++ [n]) := by
  apply locate_append_of_holder
  exact (ph.holder_ubuntu [n]).trans (ph.holder_ubuntu []).symm

/-- The rootfs is on another file system than `/dev`. -/
theorem Phone.fs_ubuntu (ph : Phone α) :
    (ph.device.table.locate ubuntu).1 ≠ (ph.device.table.locate ["dev"]).1 := by
  -- `/data` is a directory, so it is where its name leads
  have hdata : apartView ph.device ["data"] = some .dir := by
    rw [apartView_of_apart (by decide), ph.data_dir]
  have hempty : apartView ph.device [] = some .dir := by
    rw [apartView_of_apart (by decide), ph.root_dir]
  have hlead : leadsTo (apartView ph.device) [] ph.limit ["data"] = some ["data"] :=
    leadsTo_of_dir hempty (by decide) (by decide) hdata
  have hhome : ph.home .data = ["data"] := by
    have hfound := ph.home_found .data
    exact (Option.some.inj (hlead.symm.trans hfound)).symm
  have hfs := ph.home_fs .data
  rw [hhome] at hfs
  show (ph.device.table.holder (ubuntu ++ [])).fs ≠ _
  rw [ph.holder_ubuntu []]
  exact hfs

/-- `ln -sf` of a name that the root of a chroot does not have. -/
theorem lnSf_of_absent {limit : Nat} {root : Path} {l : Line} (hroot : d.view root = some .dir)
    (habsent : d.view (root ++ [l.name]) = none) :
    d.lnSf root limit l.target [] l.name = d.add (root ++ [l.name]) (.link l.target) := by
  have hlead : leadsTo d.view root limit [l.name] = none :=
    leadsTo_of_absent l.name_ne_dot l.name_ne_dots habsent
  have hdest : lnDest d.view root limit l.target [] l.name = some (root ++ [l.name]) := by
    simp [lnDest, hlead, leadsTo_nil hroot]
  rw [Device.lnSf, hdest]

/-- Lines for names that the root of a chroot does not have: each becomes its link, and
nothing that was there is gone. -/
theorem runLinesIn_of_absent {limit : Nat} {root : Path} {lines : List Line}
    (hnodup : (lines.map Line.name).Nodup) (hroot : d.view root = some .dir)
    (habsent : ∀ l ∈ lines, d.view (root ++ [l.name]) = none)
    (hlocate : ∀ l ∈ lines, d.table.locate (root ++ [l.name]) =
      ((d.table.locate root).1, (d.table.locate root).2 ++ [l.name])) :
    (runLinesIn root limit lines d).table = d.table ∧
      Device.Keeps d (runLinesIn root limit lines d) ∧
      ∀ l ∈ lines, (runLinesIn root limit lines d).view (root ++ [l.name]) =
        some (.link l.target) := by
  induction lines generalizing d with
  | nil => exact ⟨rfl, Device.Keeps.refl d, by simp⟩
  | cons l lines ih =>
    have hnone := habsent l (by simp)
    have hplace := hlocate l (by simp)
    have hrun : runLinesIn root limit (l :: lines) d =
        runLinesIn root limit lines (d.add (root ++ [l.name]) (.link l.target)) := by
      show runLinesIn root limit lines (d.lnSf root limit l.target [] l.name) = _
      rw [lnSf_of_absent hroot hnone]
    have hkeeps : Device.Keeps d (d.add (root ++ [l.name]) (.link l.target)) :=
      Device.keeps_add hnone
    -- the first link stands, and the other names are still missing
    have hself : (d.add (root ++ [l.name]) (.link l.target)).view (root ++ [l.name]) =
        some (.link l.target) := by
      apply Device.view_add_self
      · simp [hplace]
      · rw [hplace, List.dropLast_concat]
        exact hroot
      · exact hnone
    have hothers : ∀ l' ∈ lines,
        (d.add (root ++ [l.name]) (.link l.target)).view (root ++ [l'.name]) = none := by
      intro l' hl'
      rw [← habsent l' (by simp [hl'])]
      apply Device.view_add_of_ne
      -- the names of the lines are different
      rw [hlocate l' (by simp [hl']), hplace]
      intro heq
      have hname : l'.name = l.name := by simpa using heq
      exact (List.nodup_cons.mp hnodup).1 (hname ▸ List.mem_map_of_mem hl')
    have hroot' : (d.add (root ++ [l.name]) (.link l.target)).view root = some .dir := by
      rw [hkeeps.view_eq rfl (by simp [hroot]), hroot]
    obtain ⟨htable, hrest, hlinks⟩ := ih (List.nodup_cons.mp hnodup).2 hroot' hothers
      fun l' hl' => hlocate l' (by simp [hl'])
    rw [hrun]
    refine ⟨htable, hkeeps.trans hrest, ?_⟩
    intro l' hl'
    rcases List.mem_cons.mp hl' with rfl | hl'
    · rw [hrest.view_eq (by rw [htable]) (by simp [hself]), hself]
    · exact hlinks l' hl'

/-! ## Section 7: After both scripts -/

/-- What `udroid-setup-pathlink` does on the device that `fsmount` leaves. -/
theorem Phone.after_links (ph : Phone α) :
    ph.after.table = (fsmount ph.limit ph.device).table ∧
      Device.Keeps (fsmount ph.limit ph.device) ph.after ∧
      ∀ l ∈ pathLinks, ph.after.view (ubuntu ++ [l.name]) = some (.link l.target) := by
  have hbound := fsmount_bound ph
  -- the lines are for the four top-level names
  have htop : ∀ l ∈ pathLinks, ∃ k : TopName, l.name = k.name := by
    intro l hl
    simp only [pathLinks, List.mem_cons, List.not_mem_nil, or_false] at hl
    rcases hl with rfl | rfl | rfl | rfl
    · exact ⟨.tree .data, rfl⟩
    · exact ⟨.tree .system, rfl⟩
    · exact ⟨.tree .sdcard, rfl⟩
    · exact ⟨.vendor, rfl⟩
  have hseen : ∀ k : TopName, (fsmount ph.limit ph.device).table.seen (ubuntu ++ [k.name]) =
      ph.device.table.seen (ubuntu ++ [k.name]) := by
    intro k
    apply seen_fsmount_ubuntu
    rcases k with b | -
    · cases b <;> decide
    · decide
  have hroot : (fsmount ph.limit ph.device).table.seen ubuntu = ph.device.table.seen ubuntu :=
    seen_fsmount_ubuntu ph (q := []) (by decide)
  apply runLinesIn_of_absent
  · -- the names of the lines are distinct
    decide
  · rw [hbound.steady.keeps.view_eq hroot (by simp [ph.ubuntu_dir]), ph.ubuntu_dir]
  · -- `fsmount` has made none of the names: it writes on the file system of `/dev` only
    intro l hl
    obtain ⟨k, hk⟩ := htop l hl
    rw [hk, ← ph.ubuntu_free k, Device.view, locate_eq_of_seen (hseen k), ph.locate_ubuntu,
      hbound.files _ ph.fs_ubuntu, Device.view, ph.locate_ubuntu]
  · intro l hl
    obtain ⟨k, hk⟩ := htop l hl
    rw [hk, locate_eq_of_seen (hseen k), ph.locate_ubuntu, locate_eq_of_seen hroot]

theorem Phone.seen_after (ph : Phone α) (p : Path) :
    ph.after.table.seen p = (fsmount ph.limit ph.device).table.seen p := by
  rw [ph.after_links.1]

/-- What `fsmount` leaves is not changed by the links. -/
theorem Phone.view_after (ph : Phone α) {p : Path} {node : Node α}
    (h : (fsmount ph.limit ph.device).view p = some node) : ph.after.view p = some node := by
  rw [ph.after_links.2.1.view_eq (ph.seen_after p) (by simp [h]), h]

/-- What is apart from the mounts stands where it stood. -/
theorem Phone.view_after_apart (ph : Phone α) {p : Path} {node : Node α} (hp : Apart p)
    (h : ph.device.view p = some node) : ph.after.view p = some node := by
  apply ph.view_after
  rw [(fsmount_bound ph).steady.view_eq hp (by simp [h]), h]

theorem Phone.locate_home (ph : Phone α) (b : Tree) :
    ph.after.table.locate (ph.home b) = ph.device.table.locate (ph.home b) := by
  rw [locate_eq_of_seen (ph.seen_after _)]
  exact (fsmount_bound ph).steady.locate_eq (ph.home_apart b)

theorem Phone.home_dir (ph : Phone α) (b : Tree) : ph.device.view (ph.home b) = some .dir := by
  have hdir := (leadsTo_eq_some.mp (ph.home_found b)).2
  rwa [apartView_of_apart (ph.home_apart b)] at hdir

/-- A tree is seen in the chroot as what it is on Android, without the mounts in it. -/
theorem Phone.locate_copy (ph : Phone α) (b : Tree) (q : Path) :
    ph.after.table.locate (b.copy ++ q) =
      ((ph.after.table.locate (ph.home b)).1, (ph.after.table.locate (ph.home b)).2 ++ q) := by
  rw [locate_eq_of_seen (ph.seen_after _), ph.locate_home]
  exact locate_of_seen ((fsmount_bound ph).mounted b q)

/-- The way from the chroot's root to a tree. -/
theorem Phone.way_dir (ph : Phone α) {b : Tree} {q : Path} (hq : q <+: b.bound) :
    ph.after.view (ubuntu ++ q) = some .dir := by
  rcases List.prefix_concat_iff.mp hq with rfl | hq
  · -- the tree itself
    have hcopy := ph.locate_copy b []
    rw [List.append_nil, List.append_nil] at hcopy
    have hhome : ph.after.view (ph.home b) = some .dir :=
      ph.view_after_apart (ph.home_apart b) (ph.home_dir b)
    show ph.after.view b.copy = some .dir
    rw [← hhome, Device.view, hcopy, Device.view]
  · cases q with
    | nil =>
      have hroot : (fsmount ph.limit ph.device).table.seen ubuntu = ph.device.table.seen ubuntu :=
        seen_fsmount_ubuntu ph (q := []) (by decide)
      apply ph.view_after
      rw [List.append_nil, (fsmount_bound ph).steady.keeps.view_eq hroot (by simp [ph.ubuntu_dir]),
        ph.ubuntu_dir]
    | cons n q =>
      -- the directories on the way are those of the copy of `/dev`
      obtain ⟨rfl, hrest⟩ := List.cons_prefix_cons.mp hq
      exact ph.view_after ((fsmount_bound ph).dirs q hrest)

/-- The two scripts bring the chroot about. -/
theorem Phone.chrooted (ph : Phone α) : Chrooted ph.after ph.home where
  root_dir := ph.view_after_apart (by decide) ph.root_dir
  home_found := by
    intro b
    obtain ⟨hwalk, -⟩ := leadsTo_eq_some.mp ((fsmount_bound ph).steady.leads b)
    refine ⟨_, walk_of_le ?_ hwalk⟩
    intro p hp
    exact ph.after_links.2.1.view_eq (ph.seen_after p) hp
  tree_link := by
    intro b
    cases b with
    | data => exact ph.after_links.2.2 (lineInto ["dev", "block", "udroid"] "data") (by simp [pathLinks])
    | system =>
      exact ph.after_links.2.2 (lineInto ["dev", "block", "udroid"] "system") (by simp [pathLinks])
    | sdcard =>
      exact ph.after_links.2.2 (lineInto ["dev", "block", "udroid"] "sdcard") (by simp [pathLinks])
  vendor_link := ph.after_links.2.2 (lineInto ["system"] "vendor") (by simp [pathLinks])
  way_dir := fun _ _ hq => ph.way_dir hq
  copy_locate := ph.locate_copy

/-- `/vendor` is what it was. -/
theorem Phone.vendorLinked_after (ph : Phone α) (h : VendorLinked ph.device) :
    VendorLinked ph.after :=
  ph.view_after_apart (by decide) h

theorem Phone.vendorReal_after (ph : Phone α) (h : VendorReal ph.device (ph.home .system)) :
    VendorReal ph.after (ph.home .system) := by
  refine ⟨ph.view_after_apart (by decide) h.1, ?_⟩
  have hkeeps : Device.Keeps ph.device ph.after :=
    (fsmount_bound ph).steady.keeps.trans ph.after_links.2.1
  rw [ph.locate_home, hkeeps _ _ (by simp [h.2]), h.2]

end Udroid.Chroot
