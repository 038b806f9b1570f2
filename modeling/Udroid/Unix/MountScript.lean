import Udroid.Unix.MountTable

/-!
# Mount scripts

The commands of a mount script, what each does to a mount table, and what a whole script
can and cannot do to the height of a stack and to the set of mount points.
-/

namespace Udroid.Unix.MountTable

variable {F : Type} [DecidableEq F]

/-! ## Section 1: Propagation below bind copies -/

/-- The bind copies of the directory `s`: other mount points that show what `s` shows. -/
def bindCopies (t : MountTable F) (s : Path) : List Path :=
  (t.mounts.filter (fun m => decide ((m.fs, m.root) = t.locate s ∧ m.point ≠ s))).map (·.point)

/-- What is done strictly below one of `dirs` is repeated below its bind copies. -/
def Propagation.below (dirs : List Path) : Propagation F where
  repeats := fun t p => dirs.flatMap fun s =>
    if s <+: p ∧ s ≠ p then (t.bindCopies s).map (· ++ p.drop s.length) else []
  sameName := by
    intro t p q hq
    simp only [List.mem_flatMap] at hq
    obtain ⟨s, -, hq⟩ := hq
    split at hq
    · rename_i hs
      obtain ⟨x, rfl⟩ := hs.1
      have hx : x ≠ [] := by
        rintro rfl
        simp at hs
      simp only [List.drop_left, List.mem_map] at hq
      obtain ⟨c, -, rfl⟩ := hq
      -- the repeat keeps all names behind the directory, of which there is at least one
      rw [List.getLast?_append_of_ne_nil _ hx, List.getLast?_append_of_ne_nil _ hx]
    · simp at hq

/-! ## Section 2: Commands and scripts -/

/-- File system types, with those that have one instance only. -/
class FsType (F : Type) where
  exclusive : F → Bool

/-- Is the root of `fs` what is seen at the mount point `p`? -/
def onTop (t : MountTable F) (fs : F) (p : Path) : Bool :=
  decide ((t.holder p).point = p ∧ (t.holder p).fs = fs ∧ (t.holder p).root = [])

theorem onTop_push_of_not_below {t : MountTable F} {point root p : Path} {fs fs' : F}
    {ro : Bool} (h : ¬ point <+: p) :
    (t.push ⟨point, fs, root, ro⟩).onTop fs' p = t.onTop fs' p := by
  have hholder : (t.push ⟨point, fs, root, ro⟩).holder p = t.holder p :=
    holder_push_of_not_below h
  simp only [onTop, hholder]

/-- `mount -t fs none tgt`; it fails where the only instance of `fs` is on top already. -/
def mountType [FsType F] (prop : Propagation F) (t : MountTable F) (fs : F) (tgt : Path) :
    MountTable F :=
  if FsType.exclusive fs && t.onTop fs tgt then t else t.attach prop ⟨tgt, fs, [], false⟩

/-- The commands of a mount script. -/
inductive Cmd (F : Type) where
  /-- `mount -o bind src tgt` -/
  | bind (src tgt : Path)
  /-- `mount -t fs none tgt` -/
  | mountType (fs : F) (tgt : Path)
  /-- `mount -o bind,remount[,ro] tgt` -/
  | remount (ro : Bool) (tgt : Path)
  /-- `mkdir -p dir` -/
  | mkdir (dir : Path)
  /-- `umount tgt` -/
  | umount (tgt : Path)
  deriving DecidableEq, Repr

/-- Is the command one that mounts? -/
def Cmd.isMount : Cmd F → Bool
  | .bind _ _ | .mountType _ _ | .remount _ _ => true
  | .mkdir _ | .umount _ => false

/-- The effect of a command on the mount table. -/
def exec [FsType F] (prop : Propagation F) (t : MountTable F) : Cmd F → MountTable F
  | .bind src tgt => t.bind prop src tgt
  | .mountType fs tgt => t.mountType prop fs tgt
  | .remount ro tgt => t.remount ro tgt
  | .mkdir _ => t
  | .umount tgt => t.umount prop tgt

@[simp] theorem exec_mkdir [FsType F] (prop : Propagation F) (t : MountTable F) (dir : Path) :
    t.exec prop (.mkdir dir) = t := rfl

/-- Where a command attaches a mount. -/
def Cmd.target? : Cmd F → Option Path
  | .bind _ tgt | .mountType _ tgt => some tgt
  | .remount _ _ | .mkdir _ | .umount _ => none

/-- A script: its commands one after the other, whatever becomes of each. -/
def run [FsType F] (prop : Propagation F) (script : List (Cmd F)) (t : MountTable F) :
    MountTable F :=
  script.foldl (exec prop) t

/-- A command mounts on its own target only. -/
theorem point_of_mem_exec [FsType F] {t : MountTable F} {c : Cmd F} {m : Mount F}
    (hm : m ∈ (t.exec .isolated c).mounts) :
    (∃ e ∈ t.mounts, e.point = m.point) ∨ c.target? = some m.point := by
  have hpush : ∀ e : Mount F, m ∈ (t.push e).mounts →
      (∃ x ∈ t.mounts, x.point = m.point) ∨ some e.point = some m.point := by
    intro e he
    rcases List.mem_cons.mp he with rfl | he
    · exact Or.inr rfl
    · exact Or.inl ⟨m, he, rfl⟩
  cases c with
  | bind src tgt => exact hpush _ hm
  | mountType fs tgt =>
    simp only [exec, mountType] at hm
    split at hm
    · exact Or.inl ⟨m, hm, rfl⟩
    · exact hpush _ hm
  | remount ro tgt => exact Or.inl (point_mem_of_mem_remountList hm)
  | mkdir dir => exact Or.inl ⟨m, hm, rfl⟩
  | umount tgt =>
    simp only [exec, umount_isolated] at hm
    exact Or.inl ⟨m, mem_of_mem_pop hm, rfl⟩

/-- Run form of `point_of_mem_exec`. -/
theorem point_of_mem_run [FsType F] {script : List (Cmd F)} {t : MountTable F} {m : Mount F}
    (hm : m ∈ (t.run .isolated script).mounts) :
    (∃ e ∈ t.mounts, e.point = m.point) ∨ ∃ c ∈ script, c.target? = some m.point := by
  induction script generalizing t with
  | nil => exact Or.inl ⟨m, hm, rfl⟩
  | cons c cs ih =>
    -- a mount at the end was mounted by a later command, by this one, or was there before
    rcases ih (t := t.exec .isolated c) hm with ⟨e, he, hpoint⟩ | ⟨d, hd, htarget⟩
    · rcases point_of_mem_exec he with ⟨x, hx, hxe⟩ | htarget
      · exact Or.inl ⟨x, hx, hxe.trans hpoint⟩
      · exact Or.inr ⟨c, by simp, hpoint ▸ htarget⟩
    · exact Or.inr ⟨d, List.mem_cons_of_mem _ hd, htarget⟩

/-- A script that mounts nothing below `p` leaves the space below `p` clear. -/
theorem ClearBelow.run [FsType F] {t : MountTable F} {p : Path} (h : t.ClearBelow p)
    {script : List (Cmd F)}
    (hscript : ∀ c ∈ script, ∀ q ∈ c.target?, p <+: q → q = p) :
    (t.run .isolated script).ClearBelow p := by
  intro m hm hbelow
  rcases point_of_mem_run hm with ⟨e, he, hpoint⟩ | ⟨c, hc, htarget⟩
  · rw [← hpoint]
    exact h e he (hpoint ▸ hbelow)
  · exact hscript c hc m.point htarget hbelow

/-- A command other than an umount leaves every stack at least as high as it was. -/
theorem depth_le_exec [FsType F] (prop : Propagation F) (t : MountTable F) (q : Path) {c : Cmd F}
    (hc : ∀ p, c ≠ .umount p) : t.depth q ≤ (t.exec prop c).depth q := by
  cases c with
  | bind src tgt => exact depth_le_attach prop t _ q
  | mountType fs tgt =>
    simp only [exec, mountType]
    split
    · exact Nat.le_refl _
    · exact depth_le_attach prop t _ q
  | remount ro tgt => exact Nat.le_of_eq (depth_remount t ro tgt q).symm
  | mkdir dir => exact Nat.le_refl _
  | umount tgt => exact absurd rfl (hc tgt)

/-- Run form of `depth_le_exec`. -/
theorem depth_le_run [FsType F] (prop : Propagation F) (q : Path) {script : List (Cmd F)}
    (hscript : ∀ c ∈ script, ∀ p, c ≠ .umount p) (t : MountTable F) :
    t.depth q ≤ (t.run prop script).depth q := by
  induction script generalizing t with
  | nil => exact Nat.le_refl _
  | cons c cs ih =>
    have hstep : t.depth q ≤ (t.exec prop c).depth q :=
      depth_le_exec prop t q (hscript c (by simp))
    exact Nat.le_trans hstep (ih (fun d hd => hscript d (List.mem_cons_of_mem _ hd)) _)

/-- A script of umounts leaves the stack on `q` alone when none of them has its last name. -/
theorem depth_run_umounts [FsType F] (prop : Propagation F) {q : Path} {ps : List Path}
    (hps : ∀ p ∈ ps, q.getLast? ≠ p.getLast?) (t : MountTable F) :
    (t.run prop (ps.map .umount)).depth q = t.depth q := by
  induction ps generalizing t with
  | nil => rfl
  | cons p ps ih =>
    have hrest : ∀ r ∈ ps, q.getLast? ≠ r.getLast? := fun r hr => hps r (List.mem_cons_of_mem _ hr)
    calc (t.run prop ((p :: ps).map .umount)).depth q
        = ((t.umount prop p).run prop (ps.map .umount)).depth q := rfl
      _ = (t.umount prop p).depth q := ih hrest _
      _ = t.depth q := depth_umount_of_getLast_ne (hps p (by simp)) t

/-! ## Section 3: Repeats below bind copies -/

theorem mem_bindCopies {t : MountTable F} {s p : Path} :
    p ∈ t.bindCopies s ↔
      ∃ m ∈ t.mounts, m.point = p ∧ (m.fs, m.root) = t.locate s ∧ m.point ≠ s := by
  simp only [bindCopies, List.mem_map, List.mem_filter, decide_eq_true_eq]
  constructor
  · intro h
    obtain ⟨m, ⟨hm, hcopy⟩, hpoint⟩ := h
    exact ⟨m, hm, hpoint, hcopy⟩
  · intro h
    obtain ⟨m, hm, hpoint, hcopy⟩ := h
    exact ⟨m, ⟨hm, hcopy⟩, hpoint⟩

/-- What is done strictly below `s` is repeated below each bind copy of `s`. -/
theorem mem_repeats_below {t : MountTable F} {s p r : Path} :
    r ∈ (Propagation.below [s]).repeats t p ↔
      (s <+: p ∧ s ≠ p) ∧ ∃ c ∈ t.bindCopies s, r = c ++ p.drop s.length := by
  simp only [Propagation.below, List.flatMap_cons, List.flatMap_nil, List.append_nil]
  split
  · rename_i hs
    simp [hs, eq_comm]
  · rename_i hs
    simp [hs]

/-- A mount that is not strictly below `s` is not repeated. -/
theorem repeats_below_eq_nil {t : MountTable F} {s p : Path} (h : s <+: p → s = p) :
    (Propagation.below [s]).repeats t p = [] := by
  rw [List.eq_nil_iff_forall_not_mem]
  intro r hr
  obtain ⟨⟨hs, hne⟩, -⟩ := mem_repeats_below.mp hr
  exact hne (h hs)

end Udroid.Unix.MountTable
