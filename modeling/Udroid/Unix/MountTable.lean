import Mathlib.Data.List.Basic
import Mathlib.Data.List.Infix
import Udroid.Unix.Path

/-!
# Mount tables

A mount table is the list of the mounts of one mount namespace, newest first, over a
root file system.  Paths are canonical (no links, no `.` or `..`), so the order of the
list is enough to recover the tree of mounts:

- the mount a path lies in is the newest one whose mount point is a prefix of the path;
- a mount on the point of an older one stacks on it;
- a mount is busy while a newer one lies strictly below its point.

The module names no particular script: `Propagation` is a parameter that says where a
mount or an umount is repeated, and two tables are the `Same` when every path meets the
same mounts in the same order.
-/

namespace Udroid.Unix

/-! ## Section 1: Tables -/

/-- One mount: where it is attached, and the directory `root` of the file system `fs`
that is seen there. -/
structure Mount (F : Type) where
  point : Path
  fs : F
  root : Path
  ro : Bool := false
  deriving DecidableEq, Repr

/-- A mount table, newest mount first. -/
structure MountTable (F : Type) where
  rootfs : F
  mounts : List (Mount F)
  deriving DecidableEq, Repr

namespace MountTable

variable {F : Type}

/-- The mount `p` lies in: the newest one mounted at or above `p`. -/
def holder (t : MountTable F) (p : Path) : Mount F :=
  (t.mounts.find? (fun m => decide (m.point <+: p))).getD ⟨[], t.rootfs, [], false⟩

/-- The file system and the place in it that `p` names. -/
def locate (t : MountTable F) (p : Path) : F × Path :=
  ((t.holder p).fs, (t.holder p).root ++ p.drop (t.holder p).point.length)

/-- `mountpoint p`: is `p` the root of a mount? -/
def mountpoint (t : MountTable F) (p : Path) : Bool :=
  decide ((t.holder p).point = p)

/-- The number of mounts stacked on the point `p`. -/
def depth (t : MountTable F) (p : Path) : Nat :=
  t.mounts.countP (fun m => decide (m.point = p))

/-- The mounts met on the way to `p`, newest first. -/
def chain (t : MountTable F) (p : Path) : List (Mount F) :=
  t.mounts.filter (fun m => decide (m.point <+: p))

/-- Two tables describe the same tree of mounts: every path meets the same mounts in the
same order.  The order of mounts on unrelated paths does not matter. -/
def Same (t t' : MountTable F) : Prop :=
  t.rootfs = t'.rootfs ∧ ∀ p, t.chain p = t'.chain p

/-- The same tree of mounts at and below `top`. -/
def SameBelow (top : Path) (t t' : MountTable F) : Prop :=
  ∀ p, (t.chain p).filter (fun m => decide (top <+: m.point)) =
    (t'.chain p).filter (fun m => decide (top <+: m.point))

/-- No mount of the table is at or below `top`. -/
def ClearAt (t : MountTable F) (top : Path) : Prop :=
  ∀ m ∈ t.mounts, ¬ top <+: m.point

/-- No mount of the table is strictly below `top`. -/
def ClearBelow (t : MountTable F) (top : Path) : Prop :=
  ∀ m ∈ t.mounts, top <+: m.point → m.point = top

/-! ## Section 2: Operations -/

/-- Push a mount on the table. -/
def push (t : MountTable F) (m : Mount F) : MountTable F :=
  { t with mounts := m :: t.mounts }

/-- Take the mount at `p` off the list.  The newest mount comparable with `p` decides: it
has to be at `p` itself.  Above `p` it hides what is there, and below `p` it makes the
mount at `p` busy. -/
def popList (p : Path) : List (Mount F) → Option (List (Mount F))
  | [] => none
  | m :: ms =>
      if m.point = p then some ms
      else if m.point <+: p ∨ p <+: m.point then none
      else (popList p ms).map (m :: ·)

/-- One umount of `p`; it changes nothing when it fails. -/
def pop (t : MountTable F) (p : Path) : MountTable F :=
  match popList p t.mounts with
  | some ms => { t with mounts := ms }
  | none => t

/-- Where a mount or an umount of a path is repeated.  A repeat is made under another
directory at the same place, so it keeps the last name of the path. -/
structure Propagation (F : Type) where
  repeats : MountTable F → Path → List Path
  sameName : ∀ t p q, q ∈ repeats t p → q.getLast? = p.getLast?

/-- No propagation: every mount is private. -/
def Propagation.isolated : Propagation F where
  repeats := fun _ _ => []
  sameName := by simp

/-- Attach `m` at its point, and at every place the attachment is repeated. -/
def attach (prop : Propagation F) (t : MountTable F) (m : Mount F) : MountTable F :=
  (m.point :: prop.repeats t m.point).foldl (fun t q => t.push { m with point := q }) t

/-- `umount p`: take the top mount of `p` away, and the repeats of it.  It changes nothing
when no mount is at `p` or when another one is attached below. -/
def umount (prop : Propagation F) (t : MountTable F) (p : Path) : MountTable F :=
  match popList p t.mounts with
  | some ms => (prop.repeats t p).foldl pop { t with mounts := ms }
  | none => t

@[simp] theorem attach_isolated (t : MountTable F) (m : Mount F) :
    t.attach .isolated m = t.push m := rfl

@[simp] theorem umount_isolated (t : MountTable F) (p : Path) :
    t.umount .isolated p = t.pop p := by
  unfold umount pop
  split <;> rfl

/-- `mount -o bind src tgt`: show at `tgt` what `src` names now, without what is mounted
below `src`. -/
def bind (prop : Propagation F) (t : MountTable F) (src tgt : Path) : MountTable F :=
  t.attach prop ⟨tgt, (t.locate src).1, (t.locate src).2, false⟩

/-- Set the read-only flag of the mount `p` is the root of. -/
def remountList (ro : Bool) (p : Path) : List (Mount F) → List (Mount F)
  | [] => []
  | m :: ms =>
      if m.point <+: p then
        (if m.point = p then { m with ro := ro } :: ms else m :: ms)
      else m :: remountList ro p ms

/-- `mount -o bind,remount[,ro] p`: change the flags of the mount at `p`, and nothing else. -/
def remount (t : MountTable F) (ro : Bool) (p : Path) : MountTable F :=
  { t with mounts := remountList ro p t.mounts }

/-! ## Section 3: What a path meets -/

@[simp] theorem holder_push_of_below {t : MountTable F} {m : Mount F} {p : Path}
    (h : m.point <+: p) : (t.push m).holder p = m := by
  simp [holder, push, h]

@[simp] theorem holder_push_of_not_below {t : MountTable F} {m : Mount F} {p : Path}
    (h : ¬ m.point <+: p) : (t.push m).holder p = t.holder p := by
  simp [holder, push, h]

theorem locate_push_of_not_below {t : MountTable F} {point root p : Path} {fs : F} {ro : Bool}
    (h : ¬ point <+: p) : (t.push ⟨point, fs, root, ro⟩).locate p = t.locate p := by
  have hholder : (t.push ⟨point, fs, root, ro⟩).holder p = t.holder p :=
    holder_push_of_not_below h
  simp only [locate, hholder]

theorem remount_push_self (t : MountTable F) (point root : Path) (fs : F) (ro ro' : Bool) :
    (t.push ⟨point, fs, root, ro⟩).remount ro' point = t.push ⟨point, fs, root, ro'⟩ := by
  simp [remount, push, remountList]

theorem remount_push_of_not_below {t : MountTable F} {point root p : Path} {fs : F}
    {ro ro' : Bool} (h : ¬ point <+: p) :
    (t.push ⟨point, fs, root, ro⟩).remount ro' p =
      (t.remount ro' p).push ⟨point, fs, root, ro⟩ := by
  simp [remount, push, remountList, h]

/-- A path strictly inside the newest mount is the root of none. -/
theorem remount_push_of_strict {t : MountTable F} {point root p : Path} {fs : F} {ro ro' : Bool}
    (h : point <+: p) (hne : point ≠ p) :
    (t.push ⟨point, fs, root, ro⟩).remount ro' p = t.push ⟨point, fs, root, ro⟩ := by
  simp [remount, push, remountList, h, hne]

/-- The holder is the newest mount of the chain. -/
theorem holder_eq_head_chain (t : MountTable F) (p : Path) :
    t.holder p = (t.chain p).head?.getD ⟨[], t.rootfs, [], false⟩ := by
  simp only [holder, chain, List.head?_filter]

theorem holder_point_below (t : MountTable F) (p : Path) : (t.holder p).point <+: p := by
  unfold holder
  cases hfind : t.mounts.find? (fun m => decide (m.point <+: p)) with
  | none => simp
  | some m => simpa using List.find?_some hfind

/-- A mount that holds a path other than the root of the table is one of the table. -/
theorem holder_mem_of_point_ne_nil {t : MountTable F} {p : Path}
    (h : (t.holder p).point ≠ []) : t.holder p ∈ t.mounts := by
  unfold holder at h ⊢
  cases hfind : t.mounts.find? (fun m => decide (m.point <+: p)) with
  | none => simp [hfind] at h
  | some m => simpa using List.mem_of_find?_eq_some hfind

/-- Where nothing is mounted, `mountpoint` says no. -/
theorem mountpoint_eq_false_of_forall {t : MountTable F} {p : Path} (hne : p ≠ [])
    (hpoint : ∀ m ∈ t.mounts, m.point ≠ p) : t.mountpoint p = false := by
  simp only [mountpoint, decide_eq_false_iff_not]
  intro hp
  exact hpoint _ (holder_mem_of_point_ne_nil (by rw [hp]; exact hne)) hp

/-! ## Section 4: Taking a mount away -/

/-- What a successful `popList` took away: the newest mount comparable with `p`, which is at
`p` itself. -/
theorem popList_eq_some {p : Path} {ms ms' : List (Mount F)} (h : popList p ms = some ms') :
    ∃ newer m older, ms = newer ++ m :: older ∧ ms' = newer ++ older ∧ m.point = p ∧
      ∀ e ∈ newer, ¬ e.point <+: p ∧ ¬ p <+: e.point := by
  induction ms generalizing ms' with
  | nil => simp [popList] at h
  | cons m ms ih =>
    simp only [popList] at h
    split at h
    -- the newest mount is on `p` and goes
    · rename_i hpoint
      simp only [Option.some.injEq] at h
      exact ⟨[], m, ms, rfl, by simp [h], hpoint, by simp⟩
    · split at h
      · simp at h
      · rename_i hcomp
        -- it is neither above `p` nor below it, and stays; a mount behind it goes
        push Not at hcomp
        simp only [Option.map_eq_some_iff] at h
        obtain ⟨rest, hrest, rfl⟩ := h
        obtain ⟨newer, e, older, rfl, rfl, hpoint, hnewer⟩ := ih hrest
        refine ⟨m :: newer, e, older, rfl, rfl, hpoint, ?_⟩
        intro x hx
        rcases List.mem_cons.mp hx with rfl | hx
        · exact hcomp
        · exact hnewer x hx

/-- A mount that is on top of its point and has nothing below it can be taken away. -/
theorem popList_isSome {p : Path} {t : MountTable F} (hne : p ≠ []) (hclear : t.ClearBelow p)
    (hmount : t.mountpoint p = true) : (popList p t.mounts).isSome := by
  obtain ⟨rootfs, ms⟩ := t
  simp only [ClearBelow] at hclear
  induction ms with
  | nil =>
    have hroot : [] = p := by simpa [mountpoint, holder] using hmount
    exact absurd hroot.symm hne
  | cons m ms ih =>
    simp only [popList]
    by_cases hpoint : m.point = p
    · simp [hpoint]
    · have hbelow : ¬ p <+: m.point := fun hp => hpoint (hclear m (by simp) hp)
      have habove : ¬ m.point <+: p := by
        intro hm
        have hholder : (MountTable.mk rootfs (m :: ms)).holder p = m :=
          holder_push_of_below (t := ⟨rootfs, ms⟩) hm
        simp only [mountpoint, hholder, decide_eq_true_eq] at hmount
        exact hpoint hmount
      -- a mount aside of `p` neither stops the search nor holds `p`
      have hrest : (MountTable.mk rootfs ms).mountpoint p = true := by
        have hholder : (MountTable.mk rootfs (m :: ms)).holder p =
            (MountTable.mk rootfs ms).holder p :=
          holder_push_of_not_below (t := ⟨rootfs, ms⟩) habove
        simpa only [mountpoint, hholder] using hmount
      have hsome := ih (fun e he => hclear e (List.mem_cons_of_mem _ he)) hrest
      simpa [hpoint, hbelow, habove] using hsome

/-- What is not a mount cannot be taken away. -/
theorem popList_eq_none {p : Path} {t : MountTable F} (hmount : t.mountpoint p = false) :
    popList p t.mounts = none := by
  cases hpop : popList p t.mounts with
  | none => rfl
  | some ms =>
    obtain ⟨newer, m, older, hms, -, hpoint, hnewer⟩ := popList_eq_some hpop
    have hfind : t.mounts.find? (fun e => decide (e.point <+: p)) = some m := by
      -- nothing newer is on the way to `p`, so the mount that would go holds `p`
      rw [hms, List.find?_append]
      have hnone : newer.find? (fun e => decide (e.point <+: p)) = none := by
        simp only [List.find?_eq_none, decide_eq_true_eq]
        exact fun e he => (hnewer e he).1
      simp [hnone, hpoint]
    simp [mountpoint, holder, hfind, hpoint] at hmount

theorem pop_push_self (t : MountTable F) (point root : Path) (fs : F) (ro : Bool) :
    (t.push ⟨point, fs, root, ro⟩).pop point = t := by
  simp [pop, push, popList]

theorem pop_push_of_unrelated {t : MountTable F} {point root p : Path} {fs : F} {ro : Bool}
    (habove : ¬ point <+: p) (hbelow : ¬ p <+: point) :
    (t.push ⟨point, fs, root, ro⟩).pop p = (t.pop p).push ⟨point, fs, root, ro⟩ := by
  have hne : point ≠ p := fun h => habove (h ▸ List.prefix_refl _)
  simp only [pop, push, popList, hne, habove, hbelow, if_false, or_self]
  cases popList p t.mounts <;> rfl

/-- A path strictly inside the newest mount is no mount to take away. -/
theorem pop_push_of_strict {t : MountTable F} {point root p : Path} {fs : F} {ro : Bool}
    (h : point <+: p) (hne : point ≠ p) :
    (t.push ⟨point, fs, root, ro⟩).pop p = t.push ⟨point, fs, root, ro⟩ := by
  simp [pop, push, popList, h, hne]

theorem pop_of_mountpoint_eq_false {t : MountTable F} {p : Path} (h : t.mountpoint p = false) :
    t.pop p = t := by
  simp [pop, popList_eq_none h]

/-- A pop is not noticed on a path that does not pass its point. -/
theorem chain_pop_of_not_below {p q : Path} (h : ¬ p <+: q) (t : MountTable F) :
    (t.pop p).chain q = t.chain q := by
  unfold pop
  split
  · rename_i ms hms
    obtain ⟨newer, m, older, hsplit, rfl, rfl, -⟩ := popList_eq_some hms
    simp [chain, hsplit, h]
  · rfl

theorem rootfs_pop (t : MountTable F) (p : Path) : (t.pop p).rootfs = t.rootfs := by
  unfold pop
  split <;> rfl

theorem mountpoint_pop_of_not_below {p q : Path} (h : ¬ p <+: q) (t : MountTable F) :
    (t.pop p).mountpoint q = t.mountpoint q := by
  simp only [mountpoint, holder_eq_head_chain, chain_pop_of_not_below h, rootfs_pop]

theorem mem_of_mem_pop {t : MountTable F} {p : Path} {m : Mount F} (hm : m ∈ (t.pop p).mounts) :
    m ∈ t.mounts := by
  unfold pop at hm
  split at hm
  · rename_i ms hms
    obtain ⟨newer, e, older, hsplit, rfl, -, -⟩ := popList_eq_some hms
    rw [hsplit]
    simp only [List.mem_append, List.mem_cons] at hm ⊢
    rcases hm with hm | hm
    · exact Or.inl hm
    · exact Or.inr (Or.inr hm)
  · exact hm

/-- A remount leaves the mounts in place. -/
theorem mem_remountList {ro : Bool} {p : Path} {ms : List (Mount F)} {m : Mount F}
    (hm : m ∈ remountList ro p ms) : ∃ e ∈ ms, e.point = m.point ∧ e.fs = m.fs := by
  induction ms with
  | nil => simp [remountList] at hm
  | cons e ms ih =>
    simp only [remountList] at hm
    split at hm
    · split at hm
      · rcases List.mem_cons.mp hm with rfl | hm
        · exact ⟨e, by simp, rfl, rfl⟩
        · exact ⟨m, List.mem_cons_of_mem _ hm, rfl, rfl⟩
      · exact ⟨m, hm, rfl, rfl⟩
    · rcases List.mem_cons.mp hm with rfl | hm
      · exact ⟨m, by simp, rfl, rfl⟩
      · obtain ⟨x, hx, hpoint⟩ := ih hm
        exact ⟨x, List.mem_cons_of_mem _ hx, hpoint⟩

theorem point_mem_of_mem_remountList {ro : Bool} {p : Path} {ms : List (Mount F)} {m : Mount F}
    (hm : m ∈ remountList ro p ms) : ∃ e ∈ ms, e.point = m.point := by
  obtain ⟨e, he, hpoint, -⟩ := mem_remountList hm
  exact ⟨e, he, hpoint⟩

/-! ## Section 5: Counting the mounts on a point -/

theorem depth_push (t : MountTable F) (m : Mount F) (q : Path) :
    (t.push m).depth q = t.depth q + if m.point = q then 1 else 0 := by
  simp [depth, push, List.countP_cons]

/-- A mount leaves every stack at least as high as it was. -/
theorem depth_le_foldl_push (m : Mount F) (q : Path) (ps : List Path) (t : MountTable F) :
    t.depth q ≤ (ps.foldl (fun t p => t.push { m with point := p }) t).depth q := by
  induction ps generalizing t with
  | nil => exact Nat.le_refl _
  | cons p ps ih =>
    have hpush : t.depth q ≤ (t.push { m with point := p }).depth q := by
      rw [depth_push]
      exact Nat.le_add_right _ _
    exact Nat.le_trans hpush (ih _)

theorem depth_le_attach (prop : Propagation F) (t : MountTable F) (m : Mount F) (q : Path) :
    t.depth q ≤ (t.attach prop m).depth q :=
  depth_le_foldl_push m q _ t

/-- The stack a mount goes to gets higher. -/
theorem depth_lt_attach (prop : Propagation F) (t : MountTable F) (m : Mount F) :
    t.depth m.point < (t.attach prop m).depth m.point := by
  have hpush : t.depth m.point < (t.push m).depth m.point := by simp [depth_push]
  exact Nat.lt_of_lt_of_le hpush (depth_le_foldl_push m m.point _ _)

theorem depth_remount (t : MountTable F) (ro : Bool) (p q : Path) :
    (t.remount ro p).depth q = t.depth q := by
  obtain ⟨rootfs, ms⟩ := t
  simp only [depth, remount]
  induction ms with
  | nil => rfl
  | cons m ms ih =>
    simp only [remountList]
    split
    · split <;> simp [List.countP_cons]
    · simp only [List.countP_cons, ih]

/-- A pop lowers the stack of its own point by one and leaves the others alone. -/
theorem countP_popList {p : Path} {ms ms' : List (Mount F)} (h : popList p ms = some ms')
    (q : Path) : ms.countP (fun m => decide (m.point = q)) =
      ms'.countP (fun m => decide (m.point = q)) + if p = q then 1 else 0 := by
  obtain ⟨newer, m, older, rfl, rfl, rfl, -⟩ := popList_eq_some h
  simp only [List.countP_append, List.countP_cons, decide_eq_true_eq]
  omega

theorem depth_pop_of_ne {p q : Path} (hne : p ≠ q) (t : MountTable F) :
    (t.pop p).depth q = t.depth q := by
  unfold pop
  split
  · rename_i ms hms
    simpa [depth, hne] using (countP_popList hms q).symm
  · rfl

/-- A mount on top of its point and with nothing below it is taken away. -/
theorem depth_pop_self {p : Path} {t : MountTable F} (hne : p ≠ []) (hclear : t.ClearBelow p)
    (hmount : t.mountpoint p = true) : (t.pop p).depth p + 1 = t.depth p := by
  obtain ⟨ms, hms⟩ := Option.isSome_iff_exists.mp (popList_isSome hne hclear hmount)
  simpa [pop, hms, depth] using (countP_popList hms p).symm

theorem depth_foldl_pop_of_notMem {q : Path} {ps : List Path} (hq : q ∉ ps)
    (t : MountTable F) : (ps.foldl pop t).depth q = t.depth q := by
  induction ps generalizing t with
  | nil => rfl
  | cons p ps ih =>
    simp only [List.mem_cons, not_or] at hq
    rw [List.foldl_cons, ih hq.2, depth_pop_of_ne (Ne.symm hq.1)]

/-- An umount, wherever it is repeated, touches only stacks on paths with its own last
name. -/
theorem depth_umount_of_getLast_ne {prop : Propagation F} {p q : Path}
    (hne : q.getLast? ≠ p.getLast?) (t : MountTable F) :
    (t.umount prop p).depth q = t.depth q := by
  unfold umount
  split
  · rename_i ms hms
    have hnotMem : q ∉ prop.repeats t p := fun hq => hne (prop.sameName t p q hq)
    rw [depth_foldl_pop_of_notMem hnotMem]
    have hpq : p ≠ q := fun h => hne (by rw [h])
    simpa [depth, hpq] using (countP_popList hms q).symm
  · rfl

/-! ## Section 6: The same tree of mounts -/

theorem Same.refl (t : MountTable F) : t.Same t := ⟨rfl, fun _ => rfl⟩

theorem Same.symm {t t' : MountTable F} (h : t.Same t') : t'.Same t :=
  ⟨h.1.symm, fun p => (h.2 p).symm⟩

theorem Same.trans {t t' t'' : MountTable F} (h : t.Same t') (h' : t'.Same t'') : t.Same t'' :=
  ⟨h.1.trans h'.1, fun p => (h.2 p).trans (h'.2 p)⟩

/-- The mounts on `p` are counted alike in a part of the list that keeps them. -/
theorem countP_filter_of_point {keep : Mount F → Bool} {p : Path}
    (hkeep : ∀ m : Mount F, m.point = p → keep m = true) (ms : List (Mount F)) :
    (ms.filter keep).countP (fun m => decide (m.point = p)) =
      ms.countP (fun m => decide (m.point = p)) := by
  rw [List.countP_filter]
  refine List.countP_congr ?_
  intro m _
  by_cases hpoint : m.point = p
  · simp [hpoint, hkeep m hpoint]
  · simp [hpoint]

theorem depth_eq_countP_chain (t : MountTable F) (p : Path) :
    t.depth p = (t.chain p).countP (fun m => decide (m.point = p)) := by
  have hkeep : ∀ m : Mount F, m.point = p → decide (m.point <+: p) = true := by
    intro m hpoint
    simp [hpoint]
  rw [chain, countP_filter_of_point hkeep]
  rfl

theorem Same.depth_eq {t t' : MountTable F} (h : t.Same t') (p : Path) :
    t.depth p = t'.depth p := by
  rw [depth_eq_countP_chain, depth_eq_countP_chain, h.2 p]

theorem Same.holder_eq {t t' : MountTable F} (h : t.Same t') (p : Path) :
    t.holder p = t'.holder p := by
  rw [holder_eq_head_chain, holder_eq_head_chain, h.1, h.2 p]

theorem SameBelow.depth_eq {top : Path} {t t' : MountTable F} (h : SameBelow top t t')
    {p : Path} (hp : top <+: p) : t.depth p = t'.depth p := by
  have hkeep : ∀ m : Mount F, m.point = p → decide (top <+: m.point) = true := by
    intro m hpoint
    simp [hpoint, hp]
  rw [depth_eq_countP_chain, depth_eq_countP_chain, ← countP_filter_of_point hkeep (t.chain p),
    ← countP_filter_of_point hkeep (t'.chain p), h p]

/-! ## Section 7: What a path sees -/

/-- The mount a path lies in, whatever its flags. -/
def seen (t : MountTable F) (p : Path) : Path × F × Path :=
  ((t.holder p).point, (t.holder p).fs, (t.holder p).root)

theorem locate_eq_of_seen {t t' : MountTable F} {p : Path} (h : t.seen p = t'.seen p) :
    t.locate p = t'.locate p := by
  simp only [seen, Prod.mk.injEq] at h
  obtain ⟨hpoint, hfs, hroot⟩ := h
  rw [locate, locate, hpoint, hfs, hroot]

/-- Below a mount with nothing on top, a path is a path of its file system. -/
theorem locate_of_seen {t : MountTable F} {point root q : Path} {fs : F}
    (h : t.seen (point ++ q) = (point, fs, root)) : t.locate (point ++ q) = (fs, root ++ q) := by
  simp only [seen, Prod.mk.injEq] at h
  obtain ⟨hpoint, hfs, hroot⟩ := h
  rw [locate, hpoint, hfs, hroot, List.drop_left]

/-- Two paths in one mount are apart in its file system as they are in the table. -/
theorem locate_append_of_holder {t : MountTable F} {p q : Path}
    (h : t.holder (p ++ q) = t.holder p) :
    t.locate (p ++ q) = ((t.locate p).1, (t.locate p).2 ++ q) := by
  have hle : (t.holder p).point.length ≤ p.length := (holder_point_below t p).length_le
  simp only [locate, h]
  rw [List.drop_append_of_le_length hle, List.append_assoc]

/-- A path between two paths of one mount lies in that mount. -/
theorem holder_eq_of_between {t : MountTable F} {p m q : Path} (h : t.holder q = t.holder p)
    (hpm : p <+: m) (hmq : m <+: q) : t.holder m = t.holder p := by
  have hhead : ∀ x, t.holder x =
      (t.mounts.find? (fun e => decide (e.point <+: x))).getD ⟨[], t.rootfs, [], false⟩ :=
    fun x => rfl
  -- the newest mount on the way to `q` is on the way to `p` already
  have hfind : t.mounts.find? (fun e => decide (e.point <+: m)) =
      t.mounts.find? (fun e => decide (e.point <+: q)) := by
    cases hq : t.mounts.find? (fun e => decide (e.point <+: q)) with
    | none =>
      rw [List.find?_eq_none] at hq ⊢
      intro e he hpre
      exact hq e he (by simpa using (of_decide_eq_true hpre).trans hmq)
    | some e =>
      have hholder : t.holder p = e := by rw [← h, hhead, hq, Option.getD_some]
      have hpoint : e.point <+: m := by
        rw [← hholder]
        exact (holder_point_below t p).trans hpm
      obtain ⟨-, newer, older, hsplit, hnewer⟩ := List.find?_eq_some_iff_append.mp hq
      rw [List.find?_eq_some_iff_append]
      refine ⟨by simpa using hpoint, newer, older, hsplit, ?_⟩
      intro x hx
      have hxq := hnewer x hx
      simp only [Bool.not_eq_eq_eq_not, Bool.not_true, decide_eq_false_iff_not] at hxq ⊢
      exact fun hpre => hxq (hpre.trans hmq)
  rw [hhead, hfind, ← hhead, h]

/-- Where no mount is at or below `top`, all of it lies in one mount. -/
theorem holder_append_of_clearAt {t : MountTable F} {top : Path} {n : Name}
    (h : t.ClearAt (top ++ [n])) (q : Path) : t.holder (top ++ [n] ++ q) = t.holder top := by
  -- a mount on the way is at or below `top ++ [n]`, which none is, or above it
  have hiff : ∀ m ∈ t.mounts, m.point <+: top ++ [n] ++ q ↔ m.point <+: top := by
    intro m hm
    constructor
    · intro hpre
      rcases List.prefix_or_prefix_of_prefix hpre (List.prefix_append (top ++ [n]) q) with
        hbelow | hbelow
      · rcases List.prefix_concat_iff.mp hbelow with heq | hbelow
        · exact absurd (heq ▸ List.prefix_refl _) (h m hm)
        · exact hbelow
      · exact absurd hbelow (h m hm)
    · intro hpre
      rw [List.append_assoc]
      exact hpre.trans (List.prefix_append top ([n] ++ q))
  unfold holder
  congr 1
  generalize t.mounts = ms at hiff
  induction ms with
  | nil => rfl
  | cons m ms ih =>
    have hm : decide (m.point <+: top ++ [n] ++ q) = decide (m.point <+: top) :=
      decide_eq_decide.mpr (hiff m (by simp))
    rw [List.find?_cons, List.find?_cons, hm, ih fun e he => hiff e (by simp [he])]

theorem seen_push_of_not_below {t : MountTable F} {m : Mount F} {p : Path}
    (h : ¬ m.point <+: p) : (t.push m).seen p = t.seen p := by
  simp only [seen, holder_push_of_not_below h]

theorem seen_remount (t : MountTable F) (ro : Bool) (p q : Path) :
    (t.remount ro p).seen q = t.seen q := by
  obtain ⟨rootfs, ms⟩ := t
  simp only [remount]
  induction ms with
  | nil => rfl
  | cons m ms ih =>
    simp only [remountList]
    by_cases habove : m.point <+: p
    · by_cases hpoint : m.point = p
      · -- the flags of this mount change, and nothing else
        rw [if_pos habove, if_pos hpoint]
        by_cases hq : m.point <+: q
        · simp [seen, holder, hq]
        · simp [seen, holder, hq]
      · rw [if_pos habove, if_neg hpoint]
    · rw [if_neg habove]
      have hlist : ∀ es : List (Mount F), (MountTable.mk rootfs (m :: es)).seen q =
          if m.point <+: q then (m.point, m.fs, m.root) else (MountTable.mk rootfs es).seen q := by
        intro es
        by_cases hq : m.point <+: q
        · simp [seen, holder, hq]
        · simp [seen, holder, hq]
      rw [hlist, hlist, ih]

theorem seen_foldl_push_of_not_below {m : Mount F} {ps : List Path} {p : Path}
    (h : ∀ r ∈ ps, ¬ r <+: p) (t : MountTable F) :
    (ps.foldl (fun t r => t.push { m with point := r }) t).seen p = t.seen p := by
  induction ps generalizing t with
  | nil => rfl
  | cons r ps ih =>
    rw [List.foldl_cons, ih fun x hx => h x (by simp [hx])]
    exact seen_push_of_not_below (h r (by simp))

/-- A mount is not noticed on a path that is below neither its point nor a repeat of it. -/
theorem seen_attach_of_not_below {prop : Propagation F} {t : MountTable F} {m : Mount F}
    {p : Path} (h : ∀ r ∈ m.point :: prop.repeats t m.point, ¬ r <+: p) :
    (t.attach prop m).seen p = t.seen p :=
  seen_foldl_push_of_not_below h t

/-- Where the mount is attached at one point above a path, it is what the path sees. -/
theorem seen_attach_of_mem {prop : Propagation F} {t : MountTable F} {m : Mount F}
    {point p : Path} (hmem : point ∈ m.point :: prop.repeats t m.point) (hpoint : point <+: p)
    (honly : ∀ r ∈ m.point :: prop.repeats t m.point, r <+: p → r = point) :
    (t.attach prop m).seen p = (point, m.fs, m.root) := by
  unfold attach
  generalize m.point :: prop.repeats t m.point = ps at hmem honly
  -- from the last attachment, which is the newest: it is at `point`, or not above `p` at all
  induction ps using List.reverseRecOn with
  | nil => simp at hmem
  | append_singleton ps r ih =>
    rw [List.foldl_concat]
    by_cases hr : r <+: p
    · obtain rfl := honly r (by simp) hr
      simp [seen, hr]
    · rw [seen_push_of_not_below hr]
      refine ih ?_ fun x hx => honly x (by simp [hx])
      rcases List.mem_append.mp hmem with hmem | hmem
      · exact hmem
      · rw [List.mem_singleton] at hmem
        exact absurd (hmem ▸ hpoint) hr

/-- The mounts after an attachment are those before it and the attached ones. -/
theorem mem_attach {prop : Propagation F} {t : MountTable F} {m e : Mount F}
    (he : e ∈ (t.attach prop m).mounts) :
    e ∈ t.mounts ∨
      ∃ r ∈ m.point :: prop.repeats t m.point, e = { m with point := r } := by
  unfold attach at he
  generalize m.point :: prop.repeats t m.point = ps at he ⊢
  induction ps using List.reverseRecOn with
  | nil => exact Or.inl he
  | append_singleton ps r ih =>
    rw [List.foldl_concat] at he
    rcases List.mem_cons.mp he with rfl | he
    · exact Or.inr ⟨r, by simp, rfl⟩
    · rcases ih he with he | ⟨x, hx, rfl⟩
      · exact Or.inl he
      · exact Or.inr ⟨x, by simp [hx], rfl⟩

end MountTable

end Udroid.Unix
