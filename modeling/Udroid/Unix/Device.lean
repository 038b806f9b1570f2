import Mathlib.Logic.Function.Basic
import Udroid.Unix.FileTree
import Udroid.Unix.MountScript

/-!
# Devices

The file systems of a device, each with its tree, and the mount table that says where each
is seen.  A lookup goes through the mounts: what stands at a path is what the tree of its
file system has there.

Unlike a mount table alone, a device knows links: what a bind shows is looked up, and
`mkdir -p` and `ln -sf` write into the file system that their path leads to.  The targets
of mounts are canonical paths.

- `Keeps`: everything that was there is still there; all commands but `rm` keep.
- `seen_exec`, `seen_run`: a mount script is not noticed on a path that it misses.
-/

namespace Udroid.Unix

/-! ## Section 1: Devices -/

/-- File systems and the mounts over them. -/
structure Device (F α : Type) where
  files : F → FileTree α
  table : MountTable F

namespace Device

variable {F α : Type}

/-- What stands at a path. -/
def view (d : Device F α) (p : Path) : Option (Node α) :=
  (d.files (d.table.locate p).1).look (d.table.locate p).2

/-- All that is there on `d` is there on `d'`. -/
def Keeps (d d' : Device F α) : Prop :=
  ∀ fs p, (d.files fs).look p ≠ none → (d'.files fs).look p = (d.files fs).look p

section Views

variable {d d' d'' : Device F α} {p : Path}

theorem view_eq_of_seen (htable : d'.table.seen p = d.table.seen p)
    (hfiles : d'.files = d.files) : d'.view p = d.view p := by
  rw [view, view, hfiles, MountTable.locate_eq_of_seen htable]

theorem Keeps.refl (d : Device F α) : Keeps d d := fun _ _ _ => rfl

theorem Keeps.trans (h : Keeps d d') (h' : Keeps d' d'') : Keeps d d'' := by
  intro fs p hp
  have hfirst := h fs p hp
  rw [← hfirst]
  apply h'
  rwa [hfirst]

theorem Keeps.view_eq (h : Keeps d d') (htable : d'.table.seen p = d.table.seen p)
    (hp : d.view p ≠ none) : d'.view p = d.view p := by
  rw [view, MountTable.locate_eq_of_seen htable]
  exact h _ _ hp

end Views

/-! ## Section 2: Commands -/

variable [DecidableEq F]

/-- Put an entry at a path, in the file system that is seen there. -/
def add (d : Device F α) (p : Path) (node : Node α) : Device F α :=
  { d with
    files := Function.update d.files (d.table.locate p).1
      ((d.files (d.table.locate p).1).add (d.table.locate p).2 node) }

/-- One `mkdir` of `mkdir -p`. -/
def mkdirOne (limit : Nat) (d : Device F α) (parent : List Name) (n : Name) : Device F α :=
  match mkdirDest d.view [] limit parent n with
  | some p => d.add p .dir
  | none => d

/-- `mkdir -p done/todo`, where `done` has been gone through. -/
def mkdirP (limit : Nat) (d : Device F α) (parent : List Name) : List Name → Device F α
  | [] => d
  | n :: todo => (d.mkdirOne limit parent n).mkdirP limit (parent ++ [n]) todo

/-- `ln -sf t parent/n`, from a chroot at `root`. -/
def lnSf (root : Path) (limit : Nat) (d : Device F α) (t : Target) (parent : List Name)
    (n : Name) : Device F α :=
  match lnDest d.view root limit t parent n with
  | some p => d.add p (.link t)
  | none => d

/-- The effect of a command of a mount script.  A mount needs a directory to stand on; a
command that fails changes nothing. -/
def exec [MountTable.FsType F] (prop : MountTable.Propagation F) (limit : Nat)
    (d : Device F α) : MountTable.Cmd F → Device F α
  | .bind src tgt =>
      match leadsTo d.view [] limit src with
      | some s =>
          if isDir d.view tgt then { d with table := d.table.bind prop s tgt } else d
      | none => d
  | .mountType fs tgt =>
      if isDir d.view tgt then { d with table := d.table.mountType prop fs tgt } else d
  | .remount ro tgt => { d with table := d.table.remount ro tgt }
  | .mkdir dir => d.mkdirP limit [] dir
  | .umount tgt => { d with table := d.table.umount prop tgt }

/-- A script: its commands one after the other, whatever becomes of each. -/
def run [MountTable.FsType F] (prop : MountTable.Propagation F) (limit : Nat)
    (script : List (MountTable.Cmd F)) (d : Device F α) : Device F α :=
  script.foldl (exec prop limit) d

variable {d : Device F α} {p q : Path} {node : Node α} {limit : Nat}

/-! ## Section 3: What is written -/

theorem look_add {fs : F} (hne : (fs, q) ≠ d.table.locate p) :
    ((d.add p node).files fs).look q = (d.files fs).look q := by
  simp only [add, Function.update_apply]
  split
  · rename_i hfs
    subst hfs
    apply FileTree.look_add_of_ne
    intro hq
    exact hne (by rw [hq])
  · rfl

theorem view_add_of_ne (hne : d.table.locate q ≠ d.table.locate p) :
    (d.add p node).view q = d.view q :=
  look_add hne

theorem files_add_of_ne {fs : F} (hne : fs ≠ (d.table.locate p).1) :
    (d.add p node).files fs = d.files fs := by
  simp [add, hne]

theorem files_add_self : (d.add p node).files (d.table.locate p).1 =
    (d.files (d.table.locate p).1).add (d.table.locate p).2 node :=
  Function.update_self _ _ _

theorem view_add_or (d : Device F α) (p q : Path) (node : Node α) :
    (d.add p node).view q = d.view q ∨ (d.add p node).view q = some node := by
  by_cases hfs : (d.table.locate q).1 = (d.table.locate p).1
  · have hview : (d.add p node).view q =
        ((d.files (d.table.locate p).1).add (d.table.locate p).2 node).look
          (d.table.locate q).2 := by
      rw [← files_add_self, ← hfs]
      rfl
    -- in the same file system the entry may be the one that is put there
    rw [hview, view, hfs]
    apply FileTree.look_add_or
  · refine Or.inl ?_
    show ((d.add p node).files (d.table.locate q).1).look (d.table.locate q).2 = d.view q
    rw [files_add_of_ne hfs, view]

/-- An entry whose directory is right above it in its file system is written. -/
theorem view_add_self (hp : (d.table.locate p).2 ≠ [])
    (hparent : (d.files (d.table.locate p).1).look (d.table.locate p).2.dropLast = some .dir)
    (hnone : d.view p = none) : (d.add p node).view p = some node := by
  have hwrite : (d.files (d.table.locate p).1).Writable (d.table.locate p).2 := by
    apply FileTree.writable_iff.mpr
    refine ⟨hp, hparent, ?_⟩
    rw [show (d.files (d.table.locate p).1).look (d.table.locate p).2 = none from hnone]
    simp
  show ((d.add p node).files (d.table.locate p).1).look (d.table.locate p).2 = some node
  rw [files_add_self, FileTree.look_add_self hwrite]

theorem keeps_add (hnone : d.view p = none) : Keeps d (d.add p node) := by
  intro fs q hq
  apply look_add
  intro heq
  have hview : (d.files fs).look q = d.view p := by rw [view, ← heq]
  exact hq (hview.trans hnone)

theorem table_mkdirOne (parent : List Name) (n : Name) :
    (d.mkdirOne limit parent n).table = d.table := by
  unfold mkdirOne
  split <;> rfl

theorem keeps_mkdirOne (parent : List Name) (n : Name) :
    Keeps d (d.mkdirOne limit parent n) := by
  unfold mkdirOne
  split
  · rename_i p hp
    obtain ⟨e, -, hnone, rfl⟩ := mkdirDest_eq_some.mp hp
    exact keeps_add hnone
  · exact Keeps.refl d

/-- One `mkdir` puts a directory somewhere, and nothing else. -/
theorem view_mkdirOne (d : Device F α) (parent : List Name) (n : Name) (q : Path) :
    (d.mkdirOne limit parent n).view q = d.view q ∨
      (d.mkdirOne limit parent n).view q = some .dir := by
  unfold mkdirOne
  split
  · apply view_add_or
  · exact Or.inl rfl

theorem table_mkdirP (parent todo : List Name) :
    (d.mkdirP limit parent todo).table = d.table := by
  induction todo generalizing d parent with
  | nil => rfl
  | cons n todo ih => rw [mkdirP, ih, table_mkdirOne]

theorem keeps_mkdirP (parent todo : List Name) : Keeps d (d.mkdirP limit parent todo) := by
  induction todo generalizing d parent with
  | nil => exact Keeps.refl d
  | cons n todo ih => exact (keeps_mkdirOne parent n).trans (ih _)

/-- What stands at a path stays through a command of a script, or a directory is put there. -/
theorem view_mkdirP (d : Device F α) (parent todo : List Name) (q : Path) :
    (d.mkdirP limit parent todo).view q = d.view q ∨
      (d.mkdirP limit parent todo).view q = some .dir := by
  induction todo generalizing d parent with
  | nil => exact Or.inl rfl
  | cons n todo ih =>
    rcases ih (d.mkdirOne limit parent n) (parent ++ [n]) with hrest | hrest
    · rw [mkdirP, hrest]
      apply view_mkdirOne
    · exact Or.inr hrest

/-- A `mkdir` of what is there does nothing. -/
theorem mkdirOne_of_there {parent : List Name} {n : Name} {e : Path}
    (hlead : leadsTo d.view [] limit parent = some e) (h : d.view (e ++ [n]) ≠ none) :
    d.mkdirOne limit parent n = d := by
  have hdest : mkdirDest d.view [] limit parent n = none := by
    rw [Option.eq_none_iff_forall_ne_some]
    intro p hp
    obtain ⟨e', he', hnone, -⟩ := mkdirDest_eq_some.mp hp
    rw [hlead, Option.some_inj] at he'
    subst he'
    exact h hnone
  rw [mkdirOne, hdest]

/-- One `mkdir` in a canonical directory. -/
theorem mkdirOne_of_canonical {parent : Path} {n : Name} (hlen : parent.length ≤ limit + 1)
    (hplain : ∀ m ∈ parent, m ≠ "." ∧ m ≠ "..")
    (hparent : ∀ q, q <+: parent → d.view q = some .dir)
    (hfree : d.view (parent ++ [n]) = none ∨ d.view (parent ++ [n]) = some .dir)
    (hlocate : d.table.locate (parent ++ [n]) =
      ((d.table.locate parent).1, (d.table.locate parent).2 ++ [n])) :
    (d.mkdirOne limit parent n).view (parent ++ [n]) = some .dir ∧
      ∀ fs, fs ≠ (d.table.locate parent).1 → (d.mkdirOne limit parent n).files fs = d.files fs := by
  have hself : d.view parent = some .dir := hparent parent (List.prefix_refl _)
  have hwalk : walk d.view [] (limit + 1) [] parent = some ([] ++ parent) :=
    walk_of_dirs hlen hplain (by simpa using hparent)
  have hlead : leadsTo d.view [] limit parent = some parent :=
    leadsTo_eq_some.mpr ⟨by simpa using hwalk, hself⟩
  -- `mkdir` either makes the name in the file system of `parent`, or finds the directory there
  rcases hfree with hnone | hdir
  · have hdest : mkdirDest d.view [] limit parent n = some (parent ++ [n]) :=
      mkdirDest_eq_some.mpr ⟨parent, hlead, hnone, rfl⟩
    rw [mkdirOne, hdest]
    constructor
    · apply view_add_self
      · simp [hlocate]
      · rw [hlocate, List.dropLast_concat]
        exact hself
      · exact hnone
    · intro fs hfs
      apply files_add_of_ne
      rwa [hlocate]
  · rw [mkdirOne_of_there hlead (by simp [hdir])]
    exact ⟨hdir, fun fs _ => rfl⟩

/-- `mkdir -p` of a canonical path that lies in one file system: all of the path is a
directory then, and no other file system is touched. -/
theorem mkdirP_of_canonical {parent todo : Path} (hlen : (parent ++ todo).length ≤ limit + 1)
    (hplain : ∀ n ∈ parent ++ todo, n ≠ "." ∧ n ≠ "..")
    (hparent : ∀ q, q <+: parent → d.view q = some .dir)
    (hfree : ∀ q, q <+: todo → d.view (parent ++ q) = none ∨ d.view (parent ++ q) = some .dir)
    (hlocate : ∀ q, q <+: todo → d.table.locate (parent ++ q) =
      ((d.table.locate parent).1, (d.table.locate parent).2 ++ q)) :
    (∀ q, q <+: parent ++ todo → (d.mkdirP limit parent todo).view q = some .dir) ∧
      ∀ fs, fs ≠ (d.table.locate parent).1 → (d.mkdirP limit parent todo).files fs = d.files fs := by
  -- on the names still to make; the device and the canonical path to it change with every step
  induction todo generalizing d parent with
  | nil =>
    refine ⟨?_, fun fs _ => rfl⟩
    rw [List.append_nil]
    exact hparent
  | cons n todo ih =>
    have hsplit : parent ++ n :: todo = parent ++ [n] ++ todo := by simp
    have hn : d.table.locate (parent ++ [n]) =
        ((d.table.locate parent).1, (d.table.locate parent).2 ++ [n]) := hlocate [n] (by simp)
    have hlenParent : parent.length ≤ limit + 1 := by
      rw [List.length_append] at hlen
      omega
    obtain ⟨hdir, hfiles⟩ := mkdirOne_of_canonical hlenParent
      (fun m hm => hplain m (by simp [hm])) hparent (hfree [n] (by simp)) hn
    have htable : (d.mkdirOne limit parent n).table = d.table := table_mkdirOne parent n
    -- the three conditions again, for the device after the first `mkdir`
    have hdone : ∀ q, q <+: parent ++ [n] → (d.mkdirOne limit parent n).view q = some .dir := by
      intro q hq
      rcases List.prefix_concat_iff.mp hq with rfl | hq
      · exact hdir
      -- what was there before stays
      · have hbefore := hparent q hq
        rw [(keeps_mkdirOne parent n).view_eq (by rw [htable]) (by simp [hbefore]), hbefore]
    have hleft : ∀ q, q <+: todo → (d.mkdirOne limit parent n).view (parent ++ [n] ++ q) = none ∨
        (d.mkdirOne limit parent n).view (parent ++ [n] ++ q) = some .dir := by
      intro q hq
      have hbefore : d.view (parent ++ [n] ++ q) = none ∨
          d.view (parent ++ [n] ++ q) = some .dir := by
        simpa using hfree (n :: q) (by simpa using hq)
      rcases view_mkdirOne d parent n (parent ++ [n] ++ q) with hview | hview
      · rwa [hview]
      · exact Or.inr hview
    have hplace : ∀ q, q <+: todo →
        (d.mkdirOne limit parent n).table.locate (parent ++ [n] ++ q) =
          (((d.mkdirOne limit parent n).table.locate (parent ++ [n])).1,
            ((d.mkdirOne limit parent n).table.locate (parent ++ [n])).2 ++ q) := by
      intro q hq
      have hbelow : d.table.locate (parent ++ [n] ++ q) =
          ((d.table.locate parent).1, (d.table.locate parent).2 ++ n :: q) := by
        simpa using hlocate (n :: q) (by simpa using hq)
      rw [htable, hbelow, hn]
      simp
    obtain ⟨hview, hrest⟩ := ih (hsplit ▸ hlen) (hsplit ▸ hplain) hdone hleft hplace
    rw [mkdirP, hsplit]
    refine ⟨hview, fun fs hfs => ?_⟩
    rw [hrest fs (by rwa [htable, hn]), hfiles fs hfs]

/-! ## Section 4: What a script does not touch -/

section Scripts

variable [MountTable.FsType F] {prop : MountTable.Propagation F} {c : MountTable.Cmd F}

theorem keeps_exec (c : MountTable.Cmd F) : Keeps d (d.exec prop limit c) := by
  cases c with
  | bind src tgt =>
    simp only [exec]
    split
    · split <;> exact Keeps.refl d
    · exact Keeps.refl d
  | mountType fs tgt =>
    simp only [exec]
    split <;> exact Keeps.refl d
  | remount ro tgt => exact Keeps.refl d
  | mkdir dir => exact keeps_mkdirP [] dir
  | umount tgt => exact Keeps.refl d

theorem keeps_run (script : List (MountTable.Cmd F)) : Keeps d (d.run prop limit script) := by
  induction script generalizing d with
  | nil => exact Keeps.refl d
  | cons c cs ih => exact (keeps_exec c).trans ih

/-- A command other than `mkdir` writes nothing. -/
theorem files_exec (hc : ∀ dir, c ≠ .mkdir dir) : (d.exec prop limit c).files = d.files := by
  cases c with
  | bind src tgt =>
    simp only [exec]
    split
    · split <;> rfl
    · rfl
  | mountType fs tgt =>
    simp only [exec]
    split <;> rfl
  | remount ro tgt => rfl
  | mkdir dir => exact absurd rfl (hc dir)
  | umount tgt => rfl

theorem files_run {script : List (MountTable.Cmd F)} (h : ∀ c ∈ script, ∀ dir, c ≠ .mkdir dir) :
    (d.run prop limit script).files = d.files := by
  induction script generalizing d with
  | nil => rfl
  | cons c cs ih =>
    have hrest := ih (d := d.exec prop limit c) fun e he => h e (by simp [he])
    exact hrest.trans (files_exec (h c (by simp)))

/-- What a bind with its source and its target in place does. -/
theorem exec_bind {src tgt s : Path} (hs : leadsTo d.view [] limit src = some s)
    (htgt : d.view tgt = some .dir) :
    d.exec prop limit (.bind src tgt) =
      { d with
        table := d.table.attach prop ⟨tgt, (d.table.locate s).1, (d.table.locate s).2, false⟩ } := by
  simp only [exec, hs, isDir_iff.mpr htgt, if_true]
  rfl

/-- The command unmounts nothing, and no mount of it, nor a repeat of one, is at or above `p`. -/
def Misses (prop : MountTable.Propagation F) (p : Path) (c : MountTable.Cmd F) : Prop :=
  (∀ tgt, c ≠ .umount tgt) ∧
    ∀ tgt ∈ c.target?, ∀ t, ∀ r ∈ tgt :: prop.repeats t tgt, ¬ r <+: p

/-- A command is not noticed on a path that it misses. -/
theorem seen_exec (h : Misses prop p c) : (d.exec prop limit c).table.seen p = d.table.seen p := by
  cases c with
  | bind src tgt =>
    simp only [exec]
    split
    · split
      · exact MountTable.seen_attach_of_not_below (h.2 tgt rfl _)
      · rfl
    · rfl
  | mountType fs tgt =>
    simp only [exec, MountTable.mountType]
    split
    · split
      · rfl
      · exact MountTable.seen_attach_of_not_below (h.2 tgt rfl _)
    · rfl
  | remount ro tgt => exact MountTable.seen_remount _ _ _ _
  | mkdir dir =>
    show (d.mkdirP limit [] dir).table.seen p = d.table.seen p
    rw [table_mkdirP]
  | umount tgt => exact absurd rfl (h.1 tgt)

/-- A script is not noticed on a path that all its commands miss. -/
theorem seen_run {script : List (MountTable.Cmd F)} (h : ∀ c ∈ script, Misses prop p c) :
    (d.run prop limit script).table.seen p = d.table.seen p := by
  induction script generalizing d with
  | nil => rfl
  | cons c cs ih =>
    have hrest := ih (d := d.exec prop limit c) fun e he => h e (by simp [he])
    exact hrest.trans (seen_exec (h c (by simp)))

/-- A command mounts at its target and at the repeats of it. -/
theorem mem_exec {m : Mount F} (hc : ∀ tgt, c ≠ .umount tgt)
    (hm : m ∈ (d.exec prop limit c).table.mounts) :
    (∃ e ∈ d.table.mounts, e.point = m.point ∧ e.fs = m.fs) ∨
      ∃ tgt ∈ c.target?, m.point ∈ tgt :: prop.repeats d.table tgt := by
  -- a bind and a mount by type both attach, which is the only way to a new mount
  have hattach : ∀ e : Mount F, m ∈ (d.table.attach prop e).mounts →
      (∃ x ∈ d.table.mounts, x.point = m.point ∧ x.fs = m.fs) ∨
        m.point ∈ e.point :: prop.repeats d.table e.point := by
    intro e he
    rcases MountTable.mem_attach he with he | ⟨r, hr, rfl⟩
    · exact Or.inl ⟨m, he, rfl, rfl⟩
    · exact Or.inr hr
  cases c with
  | bind src tgt =>
    simp only [exec] at hm
    split at hm
    · split at hm
      · exact (hattach _ hm).imp id fun hr => ⟨tgt, rfl, hr⟩
      · exact Or.inl ⟨m, hm, rfl, rfl⟩
    · exact Or.inl ⟨m, hm, rfl, rfl⟩
  | mountType fs tgt =>
    simp only [exec, MountTable.mountType] at hm
    split at hm
    · split at hm
      · exact Or.inl ⟨m, hm, rfl, rfl⟩
      · exact (hattach _ hm).imp id fun hr => ⟨tgt, rfl, hr⟩
    · exact Or.inl ⟨m, hm, rfl, rfl⟩
  | remount ro tgt => exact Or.inl (MountTable.mem_remountList hm)
  | mkdir dir =>
    refine Or.inl ⟨m, ?_, rfl, rfl⟩
    have htable : (d.exec prop limit (.mkdir dir)).table = d.table := table_mkdirP [] dir
    rwa [htable] at hm
  | umount tgt => exact absurd rfl (hc tgt)

end Scripts

end Device

end Udroid.Unix
