import Mathlib.Data.List.Nodup
import Udroid.Links.Pathlink

/-!
# `ubuntu.skeleton`

The script removes ten names of the root, two of them with all that is below, and links
them into `/data/ubuntu`.  A directory that `rm` could not remove gets the link inside.

- `look_cleared_of_removed`, `look_cleared_of_kept`: the root after the removals.
- `look_skeleton_of_name`: what the links write on it.
- `skeleton_twice`: a second run changes nothing.
- `skeleton_tidy_iff_calm`: when the script is tidy.
-/

namespace Udroid.Links

open Udroid.Unix

variable {α : Type} {limit : Nat} {s : FileTree α}

/-! ## Section 1: The removals -/

/-- A removal takes its name away: with `-rf`, or where no directory is. -/
def Takes (removal : Name × Bool) (s : FileTree α) : Prop :=
  removal.2 = true ∨ s.look [removal.1] ≠ some .dir

theorem removeOne_of_not_takes {removal : Name × Bool} (h : ¬ Takes removal s) :
    removeOne s removal = s := by
  obtain ⟨hplain, hdir⟩ := not_or.mp h
  have hdir : isDir s.look [removal.1] = true := isDir_iff.mpr (not_not.mp hdir)
  simp [removeOne, FileTree.rm, hplain, hdir]

/-- The removal's entry goes with all that is below it. -/
theorem look_removeOne_self {removal : Name × Bool} (h : Takes removal s) (rest : Path) :
    (removeOne s removal).look (removal.1 :: rest) = none := by
  have hbelow : [removal.1] <+: removal.1 :: rest := ⟨rest, rfl⟩
  have herase := FileTree.look_erase_of_below (s := s) (List.cons_ne_nil _ _) hbelow
  unfold removeOne
  split
  · exact herase
  · rename_i hplain
    have hdir : ¬ isDir s.look [removal.1] = true := fun hdir =>
      h.resolve_left hplain (isDir_iff.mp hdir)
    rw [FileTree.rm, if_neg hdir]
    exact herase

theorem look_removeOne_of_ne {removal : Name × Bool} {n : Name} (h : n ≠ removal.1)
    (rest : Path) : (removeOne s removal).look (n :: rest) = s.look (n :: rest) := by
  have hnot : ¬ [removal.1] <+: n :: rest := by
    intro hpre
    exact h (List.cons_prefix_cons.mp hpre).1.symm
  have herase := FileTree.look_erase_of_not_below (s := s) (List.cons_ne_nil _ _) hnot
  unfold removeOne FileTree.rmRf FileTree.rm
  split
  · exact herase
  · split
    · rfl
    · exact herase

/-- The root after the removals. -/
def cleared (s : FileTree α) : FileTree α :=
  skeletonRemovals.foldl removeOne s

/-- The name is taken away. -/
def Removed (s : FileTree α) (n : Name) : Prop :=
  ∃ removal ∈ skeletonRemovals, removal.1 = n ∧ Takes removal s

/-- A removal of one name has no say in whether another name is taken away. -/
theorem exists_takes_removeOne_iff {r : Name × Bool} {removals : List (Name × Bool)} {n : Name}
    (hn : n ≠ r.1) :
    (∃ r' ∈ removals, r'.1 = n ∧ Takes r' (removeOne s r)) ↔
      ∃ r' ∈ r :: removals, r'.1 = n ∧ Takes r' s := by
  have htakes : ∀ r' : Name × Bool, r'.1 = n → (Takes r' (removeOne s r) ↔ Takes r' s) := by
    intro r' hname
    subst hname
    rw [Takes, Takes, look_removeOne_of_ne hn]
  constructor
  · intro h
    obtain ⟨r', hr', hname, h⟩ := h
    exact ⟨r', by simp [hr'], hname, (htakes r' hname).mp h⟩
  · intro h
    obtain ⟨r', hr', hname, h⟩ := h
    rcases List.mem_cons.mp hr' with rfl | hr'
    · exact absurd hname.symm hn
    · exact ⟨r', hr', hname, (htakes r' hname).mpr h⟩

/-- After a list of removals a name is gone if one of them takes it, else it is as it was. -/
theorem look_foldl_removeOne {removals : List (Name × Bool)}
    (hnodup : (removals.map Prod.fst).Nodup) (n : Name) (rest : Path) :
    ((∃ r ∈ removals, r.1 = n ∧ Takes r s) →
        (removals.foldl removeOne s).look (n :: rest) = none) ∧
      ((¬ ∃ r ∈ removals, r.1 = n ∧ Takes r s) →
        (removals.foldl removeOne s).look (n :: rest) = s.look (n :: rest)) := by
  induction removals generalizing s with
  | nil => simp
  | cons r removals ih =>
    obtain ⟨hnotMem, hrest⟩ := List.nodup_cons.mp hnodup
    obtain ⟨hnone, hsame⟩ := ih (s := removeOne s r) hrest
    rw [List.foldl_cons]
    by_cases hn : n = r.1
    · subst hn
      -- the names are distinct, so no later removal is of this one
      have hothers : ¬ ∃ r' ∈ removals, r'.1 = r.1 ∧ Takes r' (removeOne s r) := by
        intro h
        obtain ⟨r', hr', hname, -⟩ := h
        exact hnotMem (hname ▸ List.mem_map_of_mem hr')
      rw [hsame hothers]
      by_cases htakes : Takes r s
      · exact ⟨fun _ => look_removeOne_self htakes rest,
          fun h => absurd ⟨r, by simp, rfl, htakes⟩ h⟩
      · rw [removeOne_of_not_takes htakes]
        refine ⟨fun h => ?_, fun _ => rfl⟩
        obtain ⟨r', hr', hname, htakes'⟩ := h
        rcases List.mem_cons.mp hr' with rfl | hr'
        · exact absurd htakes' htakes
        · exact absurd (hname ▸ List.mem_map_of_mem hr') hnotMem
    · -- the first removal is of another name
      rw [← exists_takes_removeOne_iff hn]
      exact ⟨hnone, fun h => (hsame h).trans (look_removeOne_of_ne hn rest)⟩

theorem skeletonRemovals_nodup : (skeletonRemovals.map Prod.fst).Nodup := by decide

theorem look_cleared_of_removed {n : Name} (h : Removed s n) (rest : Path) :
    (cleared s).look (n :: rest) = none :=
  (look_foldl_removeOne skeletonRemovals_nodup n rest).1 h

theorem look_cleared_of_kept {n : Name} (h : ¬ Removed s n) (rest : Path) :
    (cleared s).look (n :: rest) = s.look (n :: rest) :=
  (look_foldl_removeOne skeletonRemovals_nodup n rest).2 h

/-! ## Section 2: The links -/

/-- Where a line writes once its name is a directory or gone. -/
def Line.place (l : Line) (s : FileTree α) : Path :=
  if isDir s.look [l.name] then [l.name, l.name] else [l.name]

/-- What a line writes there. -/
def Line.written (l : Line) (s : FileTree α) (q : Path) : Option (Node α) :=
  if isDir s.look q then some .dir else some (.link l.target)

theorem Line.dest_eq_place {l : Line} (h : s.look [l.name] = none ∨ s.look [l.name] = some .dir) :
    l.dest limit s = l.place s := by
  rcases h with hnone | hdir
  · have hlead : s.leadsTo limit [l.name] = none :=
      FileTree.leadsTo_of_absent l.name_ne_dot l.name_ne_dots hnone
    simp [Line.dest, Line.place, hlead, isDir, hnone]
  · have hlead : s.leadsTo limit [l.name] = some [l.name] :=
      FileTree.leadsTo_of_dir l.name_ne_dot l.name_ne_dots hdir
    simp [Line.dest, Line.place, hlead, isDir, hdir]

theorem Line.look_run {l : Line} (h : s.look [l.name] = none ∨ s.look [l.name] = some .dir)
    (q : Path) :
    (l.run limit s).look q = if q = l.place s then l.written s q else s.look q := by
  rw [l.run_eq_add, Line.dest_eq_place h]
  split
  · rename_i hq
    subst hq
    -- the entry stands in a directory: the root, or the name's own
    have hparent : s.look (l.place s).dropLast = some .dir := by
      unfold Line.place
      split
      · rename_i hdir
        exact isDir_iff.mp hdir
      · exact s.root_dir
    have hne : l.place s ≠ [] := by
      unfold Line.place
      split <;> simp
    unfold Line.written
    split
    · rename_i hdir
      have hnot : ¬ s.Writable (l.place s) := fun hwrite =>
        (FileTree.writable_iff.mp hwrite).2.2 (isDir_iff.mp hdir)
      rw [FileTree.add_of_not_writable hnot, isDir_iff.mp hdir]
    · rename_i hdir
      refine FileTree.look_add_self (FileTree.writable_iff.mpr ⟨hne, hparent, ?_⟩)
      exact fun hlook => hdir (isDir_iff.mpr hlook)
  · rename_i hq
    exact FileTree.look_add_of_ne hq

/-- In a run of lines, each one writes what it would write alone. -/
theorem look_runLines_of_name {lines : List Line} (hnodup : (lines.map Line.name).Nodup)
    (hclear : ∀ l ∈ lines, s.look [l.name] = none ∨ s.look [l.name] = some .dir) {l : Line}
    (hl : l ∈ lines) {q : Path} (hq : q.getLast? = some l.name) :
    (runLines limit lines s).look q = if q = l.place s then l.written s q else s.look q := by
  induction lines generalizing s with
  | nil => simp at hl
  | cons l₀ lines ih =>
    obtain ⟨hnotMem, hrest⟩ := List.nodup_cons.mp hnodup
    rw [runLines_cons]
    rcases List.mem_cons.mp hl with rfl | hl
    · -- the lines after it write other names
      have hothers : ∀ l' ∈ lines, q.getLast? ≠ some l'.name := by
        intro l' hl' hlast
        have hname : l.name = l'.name := Option.some.inj (hq.symm.trans hlast)
        exact hnotMem (hname ▸ List.mem_map_of_mem hl')
      rw [look_runLines_of_last hothers, Line.look_run (hclear l (by simp))]
    · have hne : ∀ l' ∈ lines, l'.name ≠ l₀.name := by
        intro l' hl' hname
        exact hnotMem (hname ▸ List.mem_map_of_mem hl')
      -- the line before writes another name
      have hkeep : ∀ (p : Path), p.getLast? = some l.name →
          (l₀.run limit s).look p = s.look p := by
        intro p hp
        refine Line.look_run_of_last ?_
        rw [hp]
        exact fun h => hne l hl (Option.some.inj h)
      have hclear' : ∀ l' ∈ lines, (l₀.run limit s).look [l'.name] = none ∨
          (l₀.run limit s).look [l'.name] = some .dir := by
        intro l' hl'
        have hsame : (l₀.run limit s).look [l'.name] = s.look [l'.name] := by
          refine Line.look_run_of_last ?_
          simpa using hne l' hl'
        rw [hsame]
        exact hclear l' (by simp [hl'])
      have hplace : l.place (l₀.run limit s) = l.place s := by
        unfold Line.place isDir
        rw [hkeep [l.name] (by simp)]
      have hwritten : l.written (l₀.run limit s) q = l.written s q := by
        unfold Line.written isDir
        rw [hkeep q hq]
      rw [ih hrest hclear' hl, hplace, hwritten, hkeep q hq]

/-! ## Section 3: The script -/

theorem skeletonLinks_nodup : (skeletonLinks.map Line.name).Nodup := by decide

theorem skeletonLinks_names :
    skeletonLinks.map Line.name = skeletonRemovals.map Prod.fst := by decide

/-- Every link has a removal of the same name before it. -/
theorem removal_of_link {l : Line} (hl : l ∈ skeletonLinks) :
    ∃ r ∈ skeletonRemovals, r.1 = l.name := by
  have hmem : l.name ∈ skeletonRemovals.map Prod.fst :=
    skeletonLinks_names ▸ List.mem_map_of_mem hl
  exact List.mem_map.mp hmem

/-- Every removal has a link of the same name after it. -/
theorem link_of_removal {r : Name × Bool} (hr : r ∈ skeletonRemovals) :
    ∃ l ∈ skeletonLinks, l.name = r.1 := by
  have hmem : r.1 ∈ skeletonLinks.map Line.name :=
    skeletonLinks_names ▸ List.mem_map_of_mem hr
  exact List.mem_map.mp hmem

/-- A name that is kept is a directory. -/
theorem dir_of_kept {l : Line} (hl : l ∈ skeletonLinks) (h : ¬ Removed s l.name) :
    s.look [l.name] = some .dir := by
  obtain ⟨r, hr, hname⟩ := removal_of_link hl
  have hnot : ¬ Takes r s := fun htakes => h ⟨r, hr, hname, htakes⟩
  exact hname ▸ not_not.mp (not_or.mp hnot).2

theorem look_cleared_name {l : Line} (hl : l ∈ skeletonLinks) :
    (cleared s).look [l.name] = none ∨ (cleared s).look [l.name] = some .dir := by
  by_cases h : Removed s l.name
  · exact Or.inl (look_cleared_of_removed h [])
  · rw [look_cleared_of_kept h]
    exact Or.inr (dir_of_kept hl h)

theorem place_of_removed {l : Line} (h : Removed s l.name) : l.place (cleared s) = [l.name] := by
  simp [Line.place, isDir, look_cleared_of_removed h []]

theorem place_of_kept {l : Line} (hl : l ∈ skeletonLinks) (h : ¬ Removed s l.name) :
    l.place (cleared s) = [l.name, l.name] := by
  simp [Line.place, isDir, look_cleared_of_kept h [], dir_of_kept hl h]

theorem look_skeleton_of_last {q : Path} (h : ∀ l ∈ skeletonLinks, q.getLast? ≠ some l.name) :
    (ubuntuSkeleton limit s).look q = (cleared s).look q :=
  look_runLines_of_last h

theorem look_skeleton_of_name {l : Line} (hl : l ∈ skeletonLinks) {q : Path}
    (hq : q.getLast? = some l.name) :
    (ubuntuSkeleton limit s).look q =
      if q = l.place (cleared s) then l.written (cleared s) q else (cleared s).look q :=
  look_runLines_of_name skeletonLinks_nodup (fun _ h => look_cleared_name h) hl hq

/-- The names and, of those removed with `-rf`, what is below. -/
def skeletonListed (p : Path) : Prop :=
  (∃ l ∈ skeletonLinks, p = [l.name]) ∨ ∃ n, (n, true) ∈ skeletonRemovals ∧ [n] <+: p

/-- A directory that plain `rm` cannot remove has an entry of its own name that is a
directory or the link itself. -/
def SkeletonCalm (s : FileTree α) : Prop :=
  ∀ l ∈ skeletonLinks, (l.name, false) ∈ skeletonRemovals → s.look [l.name] = some .dir →
    s.Occupied [l.name, l.name] l.target

/-! ## Section 4: A second run -/

theorem look_skeleton_place (limit : Nat) (s : FileTree α) {l : Line} (hl : l ∈ skeletonLinks) :
    (ubuntuSkeleton limit s).look (l.place (cleared s)) =
      l.written (cleared s) (l.place (cleared s)) := by
  have hlast : (l.place (cleared s)).getLast? = some l.name := by
    unfold Line.place
    split <;> rfl
  rw [look_skeleton_of_name hl hlast, if_pos rfl]

theorem look_skeleton_of_not_place {q : Path}
    (h : ∀ l ∈ skeletonLinks, q ≠ l.place (cleared s)) :
    (ubuntuSkeleton limit s).look q = (cleared s).look q := by
  by_cases hlast : ∃ l ∈ skeletonLinks, q.getLast? = some l.name
  · obtain ⟨l, hl, hq⟩ := hlast
    rw [look_skeleton_of_name hl hq, if_neg (h l hl)]
  · push Not at hlast
    exact look_skeleton_of_last hlast

/-- After a run a name that was taken away is the link. -/
theorem look_skeleton_of_removed {l : Line} (hl : l ∈ skeletonLinks) (h : Removed s l.name) :
    (ubuntuSkeleton limit s).look [l.name] = some (.link l.target) := by
  have hplace := look_skeleton_place limit s hl
  rw [place_of_removed h] at hplace
  simpa [Line.written, isDir, look_cleared_of_removed h []] using hplace

/-- A name that was kept still is the directory. -/
theorem look_skeleton_of_kept {l : Line} (hl : l ∈ skeletonLinks) (h : ¬ Removed s l.name) :
    (ubuntuSkeleton limit s).look [l.name] = some .dir := by
  rw [look_skeleton_of_name hl rfl, place_of_kept hl h, if_neg (by simp),
    look_cleared_of_kept h]
  exact dir_of_kept hl h

/-- A second run takes away what the first one took away. -/
theorem removed_skeleton_iff (n : Name) : Removed (ubuntuSkeleton limit s) n ↔ Removed s n := by
  constructor
  · intro h
    obtain ⟨r, hr, rfl, htakes⟩ := h
    -- a name that the first run kept is still a directory
    by_contra hkept
    obtain ⟨l, hl, hname⟩ := link_of_removal hr
    rw [← hname] at hkept
    have hdir : (ubuntuSkeleton limit s).look [l.name] = some .dir :=
      look_skeleton_of_kept hl hkept
    rw [hname] at hdir
    have hrf : r.2 = true := htakes.resolve_right (not_not.mpr hdir)
    exact hkept ⟨r, hr, hname.symm, Or.inl hrf⟩
  · intro h
    obtain ⟨r, hr, rfl, htakes⟩ := h
    -- a name that it took away is a link now, and `rm` takes links
    obtain ⟨l, hl, hname⟩ := link_of_removal hr
    have hlink : (ubuntuSkeleton limit s).look [l.name] = some (.link l.target) :=
      look_skeleton_of_removed hl ⟨r, hr, hname.symm, htakes⟩
    rw [hname] at hlink
    exact ⟨r, hr, rfl, Or.inr (by simp [hlink])⟩

theorem place_skeleton {l : Line} (hl : l ∈ skeletonLinks) :
    l.place (cleared (ubuntuSkeleton limit s)) = l.place (cleared s) := by
  by_cases h : Removed s l.name
  · rw [place_of_removed h, place_of_removed ((removed_skeleton_iff _).mpr h)]
  · rw [place_of_kept hl h, place_of_kept hl (fun h' => h ((removed_skeleton_iff _).mp h'))]

/-- Running the script twice is running it once. -/
theorem skeleton_twice : ubuntuSkeleton limit (ubuntuSkeleton limit s) = ubuntuSkeleton limit s := by
  ext1 q
  -- either a line of both runs writes at `q`, or none of either does
  by_cases hplace : ∃ l ∈ skeletonLinks, q = l.place (cleared s)
  · obtain ⟨l, hl, rfl⟩ := hplace
    have hsecond := look_skeleton_place limit (ubuntuSkeleton limit s) hl
    rw [place_skeleton hl] at hsecond
    rw [hsecond, look_skeleton_place limit s hl]
    by_cases h : Removed s l.name
    · have h' : Removed (ubuntuSkeleton limit s) l.name := (removed_skeleton_iff _).mpr h
      simp [place_of_removed h, Line.written, isDir, look_cleared_of_removed h [],
        look_cleared_of_removed h' []]
    · have h' : ¬ Removed (ubuntuSkeleton limit s) l.name :=
        fun h' => h ((removed_skeleton_iff _).mp h')
      have hfirst := look_skeleton_place limit s hl
      rw [place_of_kept hl h] at hfirst ⊢
      -- the directory or the link that the first run left
      unfold Line.written at hfirst ⊢
      rw [isDir, look_cleared_of_kept h', hfirst]
      by_cases hdir : isDir (cleared s).look [l.name, l.name] = true <;> simp [hdir]
  · push Not at hplace
    have hplace' : ∀ l ∈ skeletonLinks, q ≠ l.place (cleared (ubuntuSkeleton limit s)) := by
      intro l hl
      rw [place_skeleton hl]
      exact hplace l hl
    rw [look_skeleton_of_not_place hplace', look_skeleton_of_not_place hplace]
    cases q with
    | nil => rw [(cleared _).root_dir, (cleared s).root_dir]
    | cons m rest =>
      by_cases h : Removed s m
      · rw [look_cleared_of_removed h, look_cleared_of_removed ((removed_skeleton_iff _).mpr h)]
      · rw [look_cleared_of_kept (fun h' => h ((removed_skeleton_iff _).mp h'))]
        exact look_skeleton_of_not_place hplace

/-! ## Section 5: The frame -/

/-- Apart from the names and what `rm -rf` takes, the removals change nothing. -/
theorem look_cleared_of_not_listed {p : Path} (h : ¬ skeletonListed p) :
    (cleared s).look p = s.look p := by
  cases p with
  | nil => rw [(cleared s).root_dir, s.root_dir]
  | cons m rest =>
    by_cases hremoved : Removed s m
    · obtain ⟨hname, hbelow⟩ := not_or.mp h
      rw [look_cleared_of_removed hremoved]
      obtain ⟨r, hr, rfl, htakes⟩ := hremoved
      have hplain : r.2 ≠ true := by
        intro hrf
        exact hbelow ⟨r.1, by rw [← hrf]; exact hr, ⟨rest, rfl⟩⟩
      obtain ⟨l, hl, hlname⟩ := link_of_removal hr
      -- what plain `rm` takes is no directory, so nothing was below it
      have hne : r.1 :: rest ≠ [r.1] := fun heq => hname ⟨l, hl, by rw [heq, hlname]⟩
      exact (FileTree.look_eq_none_of_below (htakes.resolve_left hplain) ⟨rest, rfl⟩ hne).symm
    · exact look_cleared_of_kept hremoved rest

/-- The script writes only what it lists exactly where it is calm. -/
theorem skeleton_framed_iff (limit : Nat) :
    (∀ p, ¬ skeletonListed p → (ubuntuSkeleton limit s).look p = s.look p) ↔ SkeletonCalm s := by
  constructor
  -- a name of a plain `rm` that is a directory is kept, so a link would go into it
  · intro h l hl hplain hdir
    have hunique : (l.name, true) ∉ skeletonRemovals := by
      intro hrf
      have heq := List.inj_on_of_nodup_map skeletonRemovals_nodup hplain hrf rfl
      simp at heq
    have hkept : ¬ Removed s l.name := by
      intro hremoved
      obtain ⟨r, hr, hname, htakes⟩ := hremoved
      rcases htakes with hrf | hnot
      · exact hunique (by rw [← hname, ← hrf]; exact hr)
      · exact hnot (hname ▸ hdir)
    have hunlisted : ¬ skeletonListed [l.name, l.name] := by
      intro hlisted
      rcases hlisted with ⟨l', -, heq⟩ | ⟨n, hn, hpre⟩
      · simp at heq
      · obtain ⟨rfl, -⟩ := List.cons_prefix_cons.mp hpre
        exact hunique hn
    -- the link goes into the directory, where it is not listed
    have hplace := look_skeleton_place limit s hl
    rw [place_of_kept hl hkept, h _ hunlisted] at hplace
    unfold Line.written at hplace
    split at hplace
    · exact Or.inl hplace
    · exact Or.inr hplace
  · intro h p hp
    by_cases hplace : ∃ l ∈ skeletonLinks, p = l.place (cleared s)
    · obtain ⟨l, hl, rfl⟩ := hplace
      -- a place that is not listed is in a directory that was kept
      have hkept : ¬ Removed s l.name := by
        intro hremoved
        exact hp (Or.inl ⟨l, hl, place_of_removed hremoved⟩)
      rw [look_skeleton_place limit s hl, place_of_kept hl hkept]
      have hplain : (l.name, false) ∈ skeletonRemovals := by
        obtain ⟨r, hr, hname⟩ := removal_of_link hl
        have hrf : r.2 = false := by
          by_contra hrf
          exact hkept ⟨r, hr, hname, Or.inl (by simpa using hrf)⟩
        rw [← hname, ← hrf]
        exact hr
      have hsame : (cleared s).look [l.name, l.name] = s.look [l.name, l.name] :=
        look_cleared_of_kept hkept _
      unfold Line.written isDir
      rw [hsame]
      rcases h l hl hplain (dir_of_kept hl hkept) with hdir | hlink
      · simp [hdir]
      · simp [hlink]
    · push Not at hplace
      rw [look_skeleton_of_not_place hplace, look_cleared_of_not_listed hp]

/-- The script is tidy exactly where it is calm. -/
theorem skeleton_tidy_iff_calm :
    Tidy (ubuntuSkeleton limit) (fun _ => skeletonListed) s ↔ SkeletonCalm s := by
  rw [tidy_iff, ← skeleton_framed_iff limit]
  exact and_iff_right skeleton_twice

end Udroid.Links
