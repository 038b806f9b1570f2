import Udroid.Unix.MountLayer

/-!
# Regions of a layer

The mounts of a layer at or below a path `top` are a region of it.  Where no mount of the
layer is strictly above `top`, the region is on its own: what an operation on a path of the
region does is decided by the mounts of the region, and the operation is not noticed in any
other one.

- `popList_part`: an umount in a region is an umount of the region.
- `find?_part`: what a path of a region lies in is a mount of the region.
- `filter_eq_of_parts`: a layer is determined, as a tree, by its regions.
-/

namespace Udroid.Unix.MountTable

variable {F : Type}

/-! ## Section 1: Regions -/

/-- The mounts of the layer at or below `top`. -/
def part (top : Path) (ms : List (Mount F)) : List (Mount F) :=
  ms.filter (fun m => decide (top <+: m.point))

/-- No mount of the layer is strictly above `top`. -/
def Outermost (top : Path) (ms : List (Mount F)) : Prop :=
  ∀ m ∈ ms, m.point <+: top → m.point = top

@[simp] theorem part_nil (top : Path) : part top ([] : List (Mount F)) = [] := rfl

theorem part_append (top : Path) (ms ms' : List (Mount F)) :
    part top (ms ++ ms') = part top ms ++ part top ms' :=
  List.filter_append ..

theorem part_cons_of_below {top : Path} {m : Mount F} (h : top <+: m.point)
    (ms : List (Mount F)) : part top (m :: ms) = m :: part top ms := by
  simp [part, h]

theorem part_cons_of_not_below {top : Path} {m : Mount F} (h : ¬ top <+: m.point)
    (ms : List (Mount F)) : part top (m :: ms) = part top ms := by
  simp [part, h]

theorem mem_part {top : Path} {ms : List (Mount F)} {m : Mount F} :
    m ∈ part top ms ↔ m ∈ ms ∧ top <+: m.point := by
  simp [part]

/-- A mount on the way to a path of the region, or behind it, is one of the region. -/
theorem Outermost.below_of_related {top p : Path} {ms : List (Mount F)} (h : Outermost top ms)
    (hp : top <+: p) {m : Mount F} (hm : m ∈ ms) (hrel : m.point <+: p ∨ p <+: m.point) :
    top <+: m.point := by
  rcases hrel with habove | hbelow
  · rcases List.prefix_or_prefix_of_prefix habove hp with hm' | hm'
    · rw [h m hm hm']
    · exact hm'
  · exact hp.trans hbelow

theorem Outermost.tail {top : Path} {m : Mount F} {ms : List (Mount F)}
    (h : Outermost top (m :: ms)) : Outermost top ms :=
  fun e he => h e (List.mem_cons_of_mem _ he)

/-! ## Section 2: Umounts -/

/-- An umount in a region is an umount of the region. -/
theorem popList_part {top p : Path} {ms : List (Mount F)} (h : Outermost top ms)
    (hp : top <+: p) : popList p (part top ms) = (popList p ms).map (part top) := by
  induction ms with
  | nil => rfl
  | cons m ms ih =>
    have hrest := ih h.tail
    by_cases hbelow : top <+: m.point
    · -- the mount is one of the region, and decides alike in both
      rw [part_cons_of_below hbelow]
      simp only [popList]
      split
      · rfl
      · split
        · rfl
        · rw [hrest, Option.map_map, Option.map_map]
          refine Option.map_congr ?_
          intro rest _
          exact (part_cons_of_below hbelow rest).symm
    · -- it is none, so it is neither above the path nor below it
      have hrel : ¬ (m.point <+: p ∨ p <+: m.point) :=
        fun hrel => hbelow (h.below_of_related hp (List.mem_cons_self ..) hrel)
      have hne : m.point ≠ p := fun heq => hrel (Or.inl (heq ▸ List.prefix_refl _))
      rw [part_cons_of_not_below hbelow]
      simp only [popList, if_neg hne, if_neg hrel]
      rw [hrest, Option.map_map]
      refine Option.map_congr ?_
      intro rest _
      exact (part_cons_of_not_below hbelow rest).symm

/-- An umount is not noticed in a region that its path is not in. -/
theorem part_of_popList {top p : Path} {ms ms' : List (Mount F)} (hp : ¬ top <+: p)
    (h : popList p ms = some ms') : part top ms' = part top ms := by
  obtain ⟨newer, m, older, rfl, rfl, hpoint, -⟩ := popList_eq_some h
  rw [part_append, part_append, part_cons_of_not_below (hpoint ▸ hp)]

/-- One umount of a path of a layer; it changes nothing when it fails. -/
def popLayer (p : Path) (ms : List (Mount F)) : List (Mount F) :=
  (popList p ms).getD ms

theorem part_popLayer {top p : Path} {ms : List (Mount F)} (h : Outermost top ms)
    (hp : top <+: p) : part top (popLayer p ms) = popLayer p (part top ms) := by
  unfold popLayer
  rw [popList_part h hp]
  cases popList p ms <;> rfl

theorem part_popLayer_of_not_below {top p : Path} (hp : ¬ top <+: p) (ms : List (Mount F)) :
    part top (popLayer p ms) = part top ms := by
  unfold popLayer
  cases hpop : popList p ms with
  | none => rfl
  | some rest => exact part_of_popList hp hpop

theorem mem_of_mem_popLayer {p : Path} {ms : List (Mount F)} {m : Mount F}
    (hm : m ∈ popLayer p ms) : m ∈ ms := by
  unfold popLayer at hm
  cases hpop : popList p ms with
  | none => simpa [hpop] using hm
  | some rest =>
    obtain ⟨newer, e, older, rfl, rfl, -, -⟩ := popList_eq_some hpop
    simp only [hpop, Option.getD_some, List.mem_append, List.mem_cons] at hm ⊢
    exact hm.imp_right Or.inr

theorem popLayer_nil (p : Path) : popLayer p ([] : List (Mount F)) = [] := rfl

theorem popLayer_cons_self (point root : Path) (fs : F) (ro : Bool) (ms : List (Mount F)) :
    popLayer point (⟨point, fs, root, ro⟩ :: ms) = ms := by
  simp [popLayer, popList]

/-- A mount above the path, or one below it, lets no umount of it through. -/
theorem popLayer_cons_of_related {point root p : Path} {fs : F} {ro : Bool} (hne : point ≠ p)
    (hrel : point <+: p ∨ p <+: point) (ms : List (Mount F)) :
    popLayer p (⟨point, fs, root, ro⟩ :: ms) = ⟨point, fs, root, ro⟩ :: ms := by
  simp [popLayer, popList, hne, hrel]

theorem popLayer_cons_of_unrelated {point root p : Path} {fs : F} {ro : Bool}
    (hrel : ¬ (point <+: p ∨ p <+: point)) (ms : List (Mount F)) :
    popLayer p (⟨point, fs, root, ro⟩ :: ms) = ⟨point, fs, root, ro⟩ :: popLayer p ms := by
  have hne : point ≠ p := fun heq => hrel (Or.inl (heq ▸ List.prefix_refl _))
  simp only [popLayer, popList, hne, hrel, if_false]
  cases popList p ms <;> rfl

/-- Umounts of paths of a layer, one after the other. -/
def popsLayer (ps : List Path) (ms : List (Mount F)) : List (Mount F) :=
  ps.foldl (fun ms p => popLayer p ms) ms

theorem mem_of_mem_popsLayer {ps : List Path} {ms : List (Mount F)} {m : Mount F}
    (hm : m ∈ popsLayer ps ms) : m ∈ ms := by
  induction ps generalizing ms with
  | nil => exact hm
  | cons p ps ih => exact mem_of_mem_popLayer (ih hm)

/-- What umounts do to a region is done by those of them that are in it. -/
theorem part_popsLayer {top : Path} {ps : List Path} {ms : List (Mount F)}
    (h : Outermost top ms) :
    part top (popsLayer ps ms) =
      popsLayer (ps.filter (fun p => decide (top <+: p))) (part top ms) := by
  induction ps generalizing ms with
  | nil => rfl
  | cons p ps ih =>
    have hrest : Outermost top (popLayer p ms) := fun m hm => h m (mem_of_mem_popLayer hm)
    calc part top (popsLayer (p :: ps) ms)
        = part top (popsLayer ps (popLayer p ms)) := rfl
      _ = popsLayer (ps.filter (fun p => decide (top <+: p))) (part top (popLayer p ms)) :=
          ih hrest
      _ = popsLayer ((p :: ps).filter (fun p => decide (top <+: p))) (part top ms) := by
          by_cases hp : top <+: p
          · rw [part_popLayer h hp, List.filter_cons_of_pos (by simpa using hp)]
            rfl
          · rw [part_popLayer_of_not_below hp, List.filter_cons_of_neg (by simpa using hp)]

/-- Over a table with no mount on the path, an umount is one of the layer. -/
theorem popList_append {p : Path} (ms : List (Mount F)) {base : List (Mount F)}
    (hbase : ∀ m ∈ base, m.point ≠ p) :
    popList p (ms ++ base) = (popList p ms).map (· ++ base) := by
  induction ms with
  | nil =>
    cases hpop : popList p base with
    | none => simpa [popList] using hpop
    | some rest =>
      obtain ⟨newer, m, older, hsplit, -, hpoint, -⟩ := popList_eq_some hpop
      exact absurd hpoint (hbase m (by simp [hsplit]))
  | cons m ms ih =>
    simp only [List.cons_append, popList]
    split
    · rfl
    · split
      · rfl
      · rw [ih, Option.map_map, Option.map_map]
        rfl

/-! ## Section 3: What a path of a region lies in -/

/-- What a path of a region lies in is a mount of the region. -/
theorem find?_part {top p : Path} {ms : List (Mount F)} (h : Outermost top ms) (hp : top <+: p) :
    ms.find? (fun m => decide (m.point <+: p)) =
      (part top ms).find? (fun m => decide (m.point <+: p)) := by
  induction ms with
  | nil => rfl
  | cons m ms ih =>
    have hrest := ih h.tail
    by_cases hbelow : top <+: m.point
    · rw [part_cons_of_below hbelow, List.find?_cons, List.find?_cons, hrest]
    · have habove : ¬ m.point <+: p :=
        fun hpre => hbelow (h.below_of_related hp (List.mem_cons_self ..) (Or.inl hpre))
      rw [part_cons_of_not_below hbelow, List.find?_cons, hrest]
      simp [habove]

/-! ## Section 4: Layers with the same regions -/

/-- The paths are apart: none is above another one. -/
def Unrelated (tops : List Path) : Prop :=
  ∀ top ∈ tops, ∀ top' ∈ tops, top <+: top' → top = top'

instance (tops : List Path) : Decidable (Unrelated tops) :=
  inferInstanceAs (Decidable (∀ top ∈ tops, ∀ top' ∈ tops, top <+: top' → top = top'))

/-- A list of mounts of one region is, as a region, all of itself or nothing. -/
theorem part_of_below {tops : List Path} (htops : Unrelated tops) {top top' : Path}
    (htop : top ∈ tops) (htop' : top' ∈ tops) {ms : List (Mount F)}
    (hms : ∀ m ∈ ms, top' <+: m.point) : part top ms = if top = top' then ms else [] := by
  by_cases heq : top = top'
  · subst heq
    rw [if_pos rfl, part, List.filter_eq_self]
    intro m hm
    simpa using hms m hm
  · rw [if_neg heq, part, List.filter_eq_nil_iff]
    intro m hm hbelow
    -- both would be above the mount, so one of them above the other
    rcases List.prefix_or_prefix_of_prefix (of_decide_eq_true hbelow) (hms m hm) with hpre | hpre
    · exact heq (htops top htop top' htop' hpre)
    · exact heq (htops top' htop' top htop hpre).symm

/-- Every mount of the layer is in one of the regions. -/
def Covers (tops : List Path) (ms : List (Mount F)) : Prop :=
  ∀ m ∈ ms, ∃ top ∈ tops, top <+: m.point

/-- Where the regions are apart and cover the layer, each is on its own. -/
theorem Covers.outermost {tops : List Path} {ms : List (Mount F)} (h : Covers tops ms)
    (htops : Unrelated tops) {top : Path} (htop : top ∈ tops) : Outermost top ms := by
  intro m hm habove
  obtain ⟨top', htop', hbelow⟩ := h m hm
  have heq : top' = top := htops top' htop' top htop (hbelow.trans habove)
  exact List.IsPrefix.eq_of_length_le habove (heq ▸ hbelow).length_le

/-- The mounts on the way to a path are those of the region the path is in. -/
theorem Covers.filter_eq_part {tops : List Path} {ms : List (Mount F)} (h : Covers tops ms)
    (htops : Unrelated tops) {top p : Path} (htop : top ∈ tops) (hp : top <+: p) :
    ms.filter (fun m => decide (m.point <+: p)) =
      (part top ms).filter (fun m => decide (m.point <+: p)) := by
  rw [part, List.filter_filter]
  refine List.filter_congr ?_
  intro m hm
  by_cases hpre : m.point <+: p
  · have hbelow := (h.outermost htops htop).below_of_related hp hm (Or.inl hpre)
    simp [hpre, hbelow]
  · simp [hpre]

/-- Two layers with the same regions are the same on the way to every path. -/
theorem filter_eq_of_parts {tops : List Path} (htops : Unrelated tops) {ms ms' : List (Mount F)}
    (h : Covers tops ms) (h' : Covers tops ms') (hparts : ∀ top ∈ tops, part top ms = part top ms')
    (p : Path) :
    ms.filter (fun m => decide (m.point <+: p)) = ms'.filter (fun m => decide (m.point <+: p)) := by
  by_cases hp : ∃ top ∈ tops, top <+: p
  · obtain ⟨top, htop, hp⟩ := hp
    rw [h.filter_eq_part htops htop hp, h'.filter_eq_part htops htop hp, hparts top htop]
  · -- no mount of either layer is on the way to a path outside the regions
    have hempty : ∀ es : List (Mount F), Covers tops es →
        es.filter (fun m => decide (m.point <+: p)) = [] := by
      intro es hes
      rw [List.filter_eq_nil_iff]
      intro m hm hpre
      obtain ⟨top, htop, hbelow⟩ := hes m hm
      exact hp ⟨top, htop, hbelow.trans (of_decide_eq_true hpre)⟩
    rw [hempty ms h, hempty ms' h']

end Udroid.Unix.MountTable
