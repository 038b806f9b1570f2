import Udroid.Unix.MountTable

/-!
# Layers of mounts

A layer is a list of mounts put over an older table.  When no mount of a layer covers an
older one of the same layer, each is the holder of its own point; and a layer with one
mount on each of its points is determined, as a tree, by the holders of these points
(`filter_eq_of_heads`).
-/

namespace Udroid.Unix.MountTable

variable {F : Type}

/-! ## Section 1: Layers without covered mounts -/

/-- No mount of the list hides an older one. -/
def Uncovered (ms : List (Mount F)) : Prop :=
  ms.Pairwise (fun newer older => ¬ newer.point <+: older.point)

theorem Uncovered.find? {ms : List (Mount F)} (h : Uncovered ms) {m : Mount F} (hm : m ∈ ms)
    (base : List (Mount F)) :
    (ms ++ base).find? (fun e => decide (e.point <+: m.point)) = some m := by
  induction ms with
  | nil => simp at hm
  | cons e ms ih =>
    have hpair := List.pairwise_cons.mp h
    rcases List.mem_cons.mp hm with rfl | hm
    · simp
    · have hcovered : ¬ e.point <+: m.point := hpair.1 m hm
      simpa [hcovered] using ih hpair.2 hm

theorem Uncovered.countP {ms : List (Mount F)} (h : Uncovered ms) {m : Mount F} (hm : m ∈ ms) :
    ms.countP (fun e => decide (e.point = m.point)) = 1 := by
  induction ms with
  | nil => simp at hm
  | cons e ms ih =>
    have hpair := List.pairwise_cons.mp h
    rcases List.mem_cons.mp hm with rfl | hm
    · have hrest : ms.countP (fun x => decide (x.point = m.point)) = 0 := by
        rw [List.countP_eq_zero]
        intro x hx hpoint
        exact hpair.1 x hx (by simp [of_decide_eq_true hpoint])
      simp [hrest]
    · have hne : e.point ≠ m.point := fun hpoint => hpair.1 m hm (by simp [hpoint])
      simpa [List.countP_cons, hne] using ih hpair.2 hm

/-! ## Section 2: Layers with the same holders -/

/-- Where the way to `q ++ [c]` starts with the only mount on `q ++ [c]`, the rest of it is the
way to `q`. -/
theorem filter_concat_of_head {ms : List (Mount F)} {q : Path} {c : Name} {m : Mount F}
    (hpoint : m.point = q ++ [c])
    (hcount : ms.countP (fun e => decide (e.point = q ++ [c])) = 1)
    (hhead : (ms.filter (fun e => decide (e.point <+: q ++ [c]))).head? = some m) :
    ms.filter (fun e => decide (e.point <+: q ++ [c])) =
      m :: ms.filter (fun e => decide (e.point <+: q)) := by
  -- the way to `q` is what is left of the way to `q ++ [c]` without the mounts on its end
  have hfilter : (ms.filter (fun e => decide (e.point <+: q ++ [c]))).filter
      (fun e => decide (e.point <+: q)) = ms.filter (fun e => decide (e.point <+: q)) := by
    rw [List.filter_filter]
    refine List.filter_congr ?_
    intro e _
    by_cases he : e.point <+: q
    · simp [he, he.trans (List.prefix_append q [c])]
    · simp [he]
  -- and the one mount on `q ++ [c]` is on that way
  have hcount' : (ms.filter (fun e => decide (e.point <+: q ++ [c]))).countP
      (fun e => decide (e.point = q ++ [c])) = 1 := by
    rw [countP_filter_of_point, hcount]
    intro e he
    simp [he]
  cases hway : ms.filter (fun e => decide (e.point <+: q ++ [c])) with
  | nil => simp [hway] at hhead
  | cons e rest =>
    have he : e = m := by simpa [hway] using hhead
    subst he
    rw [hway] at hfilter hcount'
    have hnot : ¬ e.point <+: q := by
      intro hpre
      have hlen := hpre.length_le
      simp only [hpoint, List.length_append, List.length_singleton] at hlen
      omega
    -- behind the head nothing sits on the end any more, so all of it is on the way to `q`
    have hrest : rest.filter (fun x => decide (x.point <+: q)) = rest := by
      rw [List.filter_eq_self]
      intro x hx
      have hmem : x ∈ ms.filter (fun e => decide (e.point <+: q ++ [c])) := by
        rw [hway]
        exact List.mem_cons_of_mem _ hx
      have hx' : x.point <+: q ++ [c] := by simpa using (List.mem_filter.mp hmem).2
      rcases List.prefix_concat_iff.mp hx' with hx' | hx'
      · have hzero : rest.countP (fun x => decide (x.point = q ++ [c])) = 0 := by
          simpa [List.countP_cons, hpoint] using hcount'
        rw [List.countP_eq_zero] at hzero
        exact absurd (by simpa using hx') (hzero x hx)
      · simpa using hx'
    rw [← hfilter]
    simp [hnot, hrest]

/-- Two layers with mounts on the same points, one on each, and the same holders, are the same
on the way to every path. -/
theorem filter_eq_of_heads {ms ms' : List (Mount F)} {points : List Path} (hnil : [] ∉ points)
    (hms : ∀ e ∈ ms, e.point ∈ points) (hms' : ∀ e ∈ ms', e.point ∈ points)
    (hheads : ∀ k ∈ points, ∃ m : Mount F, m.point = k ∧
      ms.countP (fun e => decide (e.point = k)) = 1 ∧
      ms'.countP (fun e => decide (e.point = k)) = 1 ∧
      (ms.filter (fun e => decide (e.point <+: k))).head? = some m ∧
      (ms'.filter (fun e => decide (e.point <+: k))).head? = some m) (p : Path) :
    ms.filter (fun e => decide (e.point <+: p)) = ms'.filter (fun e => decide (e.point <+: p)) := by
  -- on the path from its end: either a mount of both layers sits there, or none does
  induction p using List.reverseRecOn with
  | nil =>
    have hempty : ∀ es : List (Mount F), (∀ e ∈ es, e.point ∈ points) →
        es.filter (fun e => decide (e.point <+: [])) = [] := by
      intro es hes
      rw [List.filter_eq_nil_iff]
      intro e he hpre
      have hpoint : e.point = [] := by simpa using hpre
      exact hnil (hpoint ▸ hes e he)
    rw [hempty ms hms, hempty ms' hms']
  | append_singleton q c ih =>
    by_cases hk : q ++ [c] ∈ points
    · obtain ⟨m, hpoint, hcount, hcount', hhead, hhead'⟩ := hheads _ hk
      rw [filter_concat_of_head hpoint hcount hhead, filter_concat_of_head hpoint hcount' hhead', ih]
    · have hstep : ∀ es : List (Mount F), (∀ e ∈ es, e.point ∈ points) →
          es.filter (fun e => decide (e.point <+: q ++ [c])) =
            es.filter (fun e => decide (e.point <+: q)) := by
        intro es hes
        refine List.filter_congr ?_
        intro e he
        have hne : e.point ≠ q ++ [c] := fun hpoint => hk (hpoint ▸ hes e he)
        simp [List.prefix_concat_iff, hne]
      rw [hstep ms hms, hstep ms' hms', ih]

/-- A mount may be moved past mounts on unrelated paths. -/
theorem filter_move {m : Mount F} {ms : List (Mount F)}
    (h : ∀ e ∈ ms, ¬ e.point <+: m.point ∧ ¬ m.point <+: e.point) (p : Path) :
    [m].filter (fun e => decide (e.point <+: p)) ++ ms.filter (fun e => decide (e.point <+: p)) =
      ms.filter (fun e => decide (e.point <+: p)) ++
        [m].filter (fun e => decide (e.point <+: p)) := by
  -- if `m` is on the way to `p`, a mount unrelated to `m` is not
  by_cases hm : m.point <+: p
  · have hms : ms.filter (fun e => decide (e.point <+: p)) = [] := by
      rw [List.filter_eq_nil_iff]
      intro e he hpre
      have hpre : e.point <+: p := by simpa using hpre
      rcases List.prefix_or_prefix_of_prefix hpre hm with hcomp | hcomp
      · exact (h e he).1 hcomp
      · exact (h e he).2 hcomp
    simp [hms]
  · simp [hm]

end Udroid.Unix.MountTable
