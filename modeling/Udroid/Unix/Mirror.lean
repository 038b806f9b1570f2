import Mathlib.Data.List.Infix
import Udroid.Unix.Lookup

/-!
# A root of links into another root

Instead of making a directory `r` the root of a process, one can put links at the real root,
each name to the same name below `r`.  A lookup in the real root then does in several steps
what the lookup of a process with root `r` does in one, as long as it neither goes up out of
`r` nor meets an absolute link to a name that is not linked.

- `walk_congr_below`: a lookup reads nothing outside its root.
- `Mirror`: the links.
- `isFollowedFrom`: a check of the paths that are followed.
- `Mirror.finds_iff`: both lookups of a path end at the same entry.
-/

namespace Udroid.Unix

variable {α : Type} {look look' : Path → Option (Node α)} {r : Path} {names : List Name}

/-! ## Section 1: Lookups do not leave their root -/

/-- A step from below the root ends below the root. -/
theorem step_below {cur next : Path} {n : Name} {ns : List Name} (hcur : r <+: cur)
    (h : step look r cur n = some (next, ns)) : r <+: next := by
  unfold step at h
  split at h
  · by_cases hdot : n = "."
    · simp only [hdot, if_true, Option.some_inj, Prod.mk.injEq] at h
      exact h.1 ▸ hcur
    · by_cases hdots : n = ".."
      · rw [if_neg hdot, if_pos hdots, Option.some_inj, Prod.mk.injEq] at h
        obtain ⟨rfl, -⟩ := h
        by_cases htop : cur = r
        · rw [if_pos htop]
        · rw [if_neg htop]
          -- strictly below the root, so the parent still is below it
          rcases List.eq_nil_or_concat cur with rfl | ⟨q, c, rfl⟩
          · simpa using hcur
          · rw [List.concat_eq_append, List.dropLast_concat]
            rw [List.concat_eq_append] at hcur htop
            exact (List.prefix_concat_iff.mp hcur).resolve_left (Ne.symm htop)
      · rw [if_neg hdot, if_neg hdots] at h
        split at h
        · cases h
        · rename_i t _
          simp only [Option.some_inj, Prod.mk.injEq] at h
          obtain ⟨rfl, -⟩ := h
          by_cases habs : t.absolute = true
          · rw [if_pos habs]
          · rw [if_neg habs]
            exact hcur
        · simp only [Option.some_inj, Prod.mk.injEq] at h
          exact h.1 ▸ hcur.trans (List.prefix_append _ _)
  · cases h

/-- A step reads entries below its root only. -/
theorem step_congr_below (hagree : ∀ p, r <+: p → look' p = look p) {cur : Path}
    (hcur : r <+: cur) (n : Name) : step look' r cur n = step look r cur n := by
  have hdir : isDir look' cur = isDir look cur := by rw [isDir, isDir, hagree cur hcur]
  have hentry : look' (cur ++ [n]) = look (cur ++ [n]) :=
    hagree _ (hcur.trans (List.prefix_append _ _))
  rw [step, step, hdir, hentry]

/-- A lookup reads nothing outside its root. -/
theorem walk_congr_below (hagree : ∀ p, r <+: p → look' p = look p) {fuel : Nat} {cur : Path}
    {todo : List Name} (hcur : r <+: cur) :
    walk look' r fuel cur todo = walk look r fuel cur todo := by
  induction fuel generalizing cur todo with
  | zero => cases todo <;> rfl
  | succ fuel ih =>
    cases todo with
    | nil => rfl
    | cons n todo =>
      rw [walk_succ_cons, walk_succ_cons, step_congr_below hagree hcur]
      cases hstep : step look r cur n with
      | none => rfl
      | some result =>
        obtain ⟨next, ns⟩ := result
        exact ih (step_below hcur hstep)

/-! ## Section 2: The links, and the lookups they follow -/

/-- Each of the names is, at the real root, a link to the same name below `r`. -/
structure Mirror (look : Path → Option (Node α)) (r : Path) (names : List Name) : Prop where
  way_dir : ∀ q, q <+: r → look q = some .dir
  way_plain : ∀ n ∈ r, n ≠ "." ∧ n ≠ ".."
  names_plain : ∀ n ∈ names, n ≠ "." ∧ n ≠ ".."
  link : ∀ n ∈ names, look [n] = some (.link ⟨true, r ++ [n]⟩)

/-- One name of a lookup in the root `r`: where it is, and the names that are left. -/
def rootStep (look : Path → Option (Node α)) (r : Path) :
    Path × List Name → Option (Path × List Name)
  | (_, []) => none
  | (cur, n :: todo) => (step look r cur n).map fun result => (result.1, result.2 ++ todo)

/-- The lookup of the name `n` from `cur` can be followed outside the root `r`. -/
structure Followed (look : Path → Option (Node α)) (r : Path) (names : List Name) (cur : Path)
    (n : Name) : Prop where
  /-- an absolute link goes to one of the linked names -/
  links : n ≠ "." → n ≠ ".." → ∀ t, look (cur ++ [n]) = some (.link t) → t.absolute = true →
    ∃ n' ∈ names, ∃ rest, t.comps = n' :: rest
  /-- `..` does not stop at the root -/
  climbs : n = ".." → cur ≠ r

/-- All names of a lookup in the root `r` can be followed outside. -/
def FollowedFrom (look : Path → Option (Node α)) (r : Path) (names : List Name)
    (s : Path × List Name) : Prop :=
  ∀ cur n todo,
    Relation.ReflTransGen (fun a b => rootStep look r a = some b) s (cur, n :: todo) →
      Followed look r names cur n

/-- A lookup below the root, with all its names followed. -/
def Below (look : Path → Option (Node α)) (r : Path) (names : List Name)
    (s : Path × List Name) : Prop :=
  r <+: s.1 ∧ FollowedFrom look r names s

theorem rootStep_eq_some {s s' : Path × List Name} (h : rootStep look r s = some s') :
    ∃ n todo next ns, s = (s.1, n :: todo) ∧ step look r s.1 n = some (next, ns) ∧
      s' = (next, ns ++ todo) := by
  obtain ⟨cur, todo⟩ := s
  cases todo with
  | nil => cases h
  | cons n todo =>
    obtain ⟨⟨next, ns⟩, hstep, rfl⟩ := Option.map_eq_some_iff.mp h
    exact ⟨n, todo, next, ns, rfl, hstep, rfl⟩

theorem rootStep_eq_none {cur : Path} {n : Name} {todo : List Name} :
    rootStep look r (cur, n :: todo) = none ↔ step look r cur n = none :=
  Option.map_eq_none_iff

theorem Below.next {s s' : Path × List Name} (h : Below look r names s)
    (hnext : rootStep look r s = some s') : Below look r names s' := by
  obtain ⟨n, todo, next, ns, -, hstep, rfl⟩ := rootStep_eq_some hnext
  exact ⟨step_below h.1 hstep, fun cur m rest hrun => h.2 cur m rest (.head hnext hrun)⟩

/-- The lookup in the root `r` goes along its own steps. -/
theorem root_stages : Stages look r (rootStep look r) id (Below look r names) where
  kept := fun _ _ hs hnext => hs.next hnext
  down := by
    intro s s' _ hnext fuel d hwalk
    obtain ⟨n, todo, next, ns, heq, hstep, rfl⟩ := rootStep_eq_some hnext
    rw [heq] at hwalk
    exact walk_lt_of_step hstep hwalk
  up := by
    intro s s' _ hnext d hfinds
    obtain ⟨n, todo, next, ns, heq, hstep, rfl⟩ := rootStep_eq_some hnext
    rw [heq]
    exact finds_of_step hstep hfinds
  stop := by
    rintro ⟨cur, todo⟩ _ hnone d hfinds
    cases todo with
    | nil => rfl
    | cons n todo => exact absurd hfinds (not_finds_of_step (rootStep_eq_none.mp hnone))

/-! ## Section 3: Checking a path -/

/-- Can the lookup of the name `n` from `cur` be followed? -/
def isFollowed (look : Path → Option (Node α)) (r : Path) (names : List Name) (cur : Path)
    (n : Name) : Bool :=
  if n = "." then true
  else if n = ".." then decide (cur ≠ r)
  else
    match look (cur ++ [n]) with
    | some (.link t) => !t.absolute || decide (t.comps.head? ∈ names.map some)
    | _ => true

theorem followed_of_isFollowed {cur : Path} {n : Name}
    (h : isFollowed look r names cur n = true) : Followed look r names cur n where
  links := by
    intro hdot hdots t ht habs
    simp only [isFollowed, if_neg hdot, if_neg hdots, ht, habs, Bool.not_true, Bool.false_or,
      decide_eq_true_eq, List.mem_map] at h
    obtain ⟨n', hn', hhead⟩ := h
    cases hcomps : t.comps with
    | nil => simp [hcomps] at hhead
    | cons m rest =>
      simp only [hcomps, List.head?_cons, Option.some_inj] at hhead
      exact ⟨n', hn', rest, by rw [hhead]⟩
  climbs := by
    rintro rfl
    simpa [isFollowed] using h

/-- Can all names of the lookup be followed?  The lookup has to end within the steps given. -/
def isFollowedFrom (look : Path → Option (Node α)) (r : Path) (names : List Name) :
    Nat → Path × List Name → Bool
  | _, (_, []) => true
  | 0, (_, _ :: _) => false
  | fuel + 1, (cur, n :: todo) =>
      isFollowed look r names cur n &&
        match rootStep look r (cur, n :: todo) with
        | none => true
        | some s => isFollowedFrom look r names fuel s

theorem followedFrom_of_isFollowedFrom {fuel : Nat} {s : Path × List Name}
    (h : isFollowedFrom look r names fuel s = true) : FollowedFrom look r names s := by
  induction fuel generalizing s with
  | zero =>
    obtain ⟨cur, todo⟩ := s
    cases todo with
    | cons n todo => cases h
    | nil =>
      intro cur' n' todo' hrun
      rcases Relation.ReflTransGen.cases_head hrun with heq | ⟨s', hnext, -⟩
      · cases heq
      · cases hnext
  | succ fuel ih =>
    obtain ⟨cur, todo⟩ := s
    intro cur' n' todo' hrun
    cases todo with
    | nil =>
      rcases Relation.ReflTransGen.cases_head hrun with heq | ⟨s', hnext, -⟩
      · cases heq
      · cases hnext
    | cons n todo =>
      simp only [isFollowedFrom, Bool.and_eq_true] at h
      rcases Relation.ReflTransGen.cases_head hrun with heq | ⟨s', hnext, hrest⟩
      · cases heq
        exact followed_of_isFollowed h.1
      · rw [hnext] at h
        exact ih h.2 cur' n' todo' hrest

/-! ## Section 4: The lookup in the real root -/

/-- A linked name of the real root leads to the same name below `r`. -/
theorem Mirror.step_top (h : Mirror look' r names) {n : Name} (hn : n ∈ names) :
    step look' [] [] n = some ([], r ++ [n]) := by
  obtain ⟨hdot, hdots⟩ := h.names_plain n hn
  rw [step_name (h.way_dir [] List.nil_prefix) hdot hdots, List.nil_append, h.link n hn]
  rfl

theorem Mirror.finds_way (h : Mirror look' r names) : Finds look' [] [] r r := by
  have hwalk : walk look' [] r.length [] r = some ([] ++ r) :=
    walk_of_dirs (Nat.le_refl r.length) h.way_plain fun q hq => h.way_dir q hq
  exact ⟨r.length, hwalk⟩

theorem Mirror.walk_lt_top (h : Mirror look' r names) {n : Name} (hn : n ∈ names) {fuel : Nat}
    {todo : List Name} {d : Path} (hwalk : walk look' [] fuel [] (n :: todo) = some d) :
    ∃ fuel' < fuel, walk look' [] fuel' r (n :: todo) = some d := by
  obtain ⟨fuel', hlt, hrest⟩ := walk_lt_of_step (h.step_top hn) hwalk
  rw [List.append_assoc, List.singleton_append] at hrest
  -- the link's text leads through the directories above `r`
  obtain ⟨i, j, mid, hle, hi, hj⟩ := exists_walk_of_append hrest
  obtain rfl : mid = r := Finds.unique ⟨i, hi⟩ h.finds_way
  exact ⟨j, by omega, hj⟩

theorem Mirror.finds_top (h : Mirror look' r names) {n : Name} (hn : n ∈ names)
    {todo : List Name} {d : Path} :
    Finds look' [] [] (n :: todo) d ↔ Finds look' [] r (n :: todo) d := by
  constructor
  · rintro ⟨fuel, hwalk⟩
    obtain ⟨fuel', -, hrest⟩ := h.walk_lt_top hn hwalk
    exact ⟨fuel', hrest⟩
  · intro hfinds
    have hway := finds_append h.finds_way hfinds
    refine finds_of_step (h.step_top hn) ?_
    rwa [List.append_assoc, List.singleton_append]

/-- A name that is followed: the real root's lookup does the same, but for an absolute link, which
leads it to the top with a linked name. -/
theorem step_real (hagree : ∀ p, r <+: p → look' p = look p) {cur : Path} {n : Name}
    (hcur : r <+: cur) (hfollowed : Followed look r names cur n) {next : Path} {ns : List Name}
    (hstep : step look r cur n = some (next, ns)) :
    step look' [] cur n = some (next, ns) ∨
      step look' [] cur n = some ([], ns) ∧ next = r ∧ ∃ n' ∈ names, ∃ rest, ns = n' :: rest := by
  have hdir : isDir look' cur = isDir look cur := by rw [isDir, isDir, hagree cur hcur]
  have hentry : look' (cur ++ [n]) = look (cur ++ [n]) :=
    hagree _ (hcur.trans (List.prefix_append _ _))
  unfold step at hstep ⊢
  rw [hdir, hentry]
  split at hstep
  · rename_i hisDir
    rw [if_pos hisDir]
    by_cases hdot : n = "."
    · exact Or.inl (by simpa [hdot] using hstep)
    · by_cases hdots : n = ".."
      · -- not at the root `r`, so both go up
        rw [if_neg hdot, if_pos hdots, if_neg (hfollowed.climbs hdots)] at hstep
        rw [if_neg hdot, if_pos hdots]
        have hup : (if cur = [] then [] else cur.dropLast) = cur.dropLast := by
          by_cases hnil : cur = [] <;> simp [hnil]
        exact Or.inl (by rw [hup, hstep])
      · rw [if_neg hdot, if_neg hdots] at hstep ⊢
        cases hnode : look (cur ++ [n]) with
        | none => simp [hnode] at hstep
        | some node =>
          cases node with
          | link t =>
            simp only [hnode, Option.some_inj, Prod.mk.injEq] at hstep
            obtain ⟨rfl, rfl⟩ := hstep
            by_cases habs : t.absolute = true
            · obtain ⟨n', hn', rest, hcomps⟩ := hfollowed.links hdot hdots t hnode habs
              exact Or.inr ⟨by simp [habs], by simp [habs], n', hn', rest, hcomps⟩
            · exact Or.inl (by simp [habs])
          | dir => exact Or.inl (by simpa [hnode] using hstep)
          | file content => exact Or.inl (by simpa [hnode] using hstep)
  · cases hstep

theorem step_real_eq_none (hagree : ∀ p, r <+: p → look' p = look p) {cur : Path} {n : Name}
    (hcur : r <+: cur) (hstep : step look r cur n = none) : step look' [] cur n = none := by
  have hdir : isDir look' cur = isDir look cur := by rw [isDir, isDir, hagree cur hcur]
  have hentry : look' (cur ++ [n]) = look (cur ++ [n]) :=
    hagree _ (hcur.trans (List.prefix_append _ _))
  unfold step at hstep ⊢
  rw [hdir, hentry]
  split at hstep
  · rename_i hisDir
    rw [if_pos hisDir]
    by_cases hdot : n = "."
    · simp [hdot] at hstep
    · by_cases hdots : n = ".."
      · simp [hdots] at hstep
      · rw [if_neg hdot, if_neg hdots] at hstep ⊢
        split at hstep
        · rfl
        · cases hstep
        · cases hstep
  · rename_i hisDir
    rw [if_neg hisDir]

/-- The lookup in the real root goes along the steps of the one in `r`. -/
theorem Mirror.real_stages (h : Mirror look' r names) (hagree : ∀ p, r <+: p → look' p = look p) :
    Stages look' [] (rootStep look r) id (Below look r names) where
  kept := fun _ _ hs hnext => hs.next hnext
  down := by
    intro s s' hs hnext fuel d hwalk
    obtain ⟨n, todo, next, ns, heq, hstep, rfl⟩ := rootStep_eq_some hnext
    have hfollowed := hs.2 s.1 n todo (heq ▸ .refl)
    rw [heq] at hwalk
    rcases step_real hagree hs.1 hfollowed hstep with hsame | ⟨htop, rfl, n', hn', rest, rfl⟩
    · exact walk_lt_of_step hsame hwalk
    · -- from the top back to `r`
      obtain ⟨fuel', hlt, hrest⟩ := walk_lt_of_step htop hwalk
      obtain ⟨fuel'', hlt', hwalk'⟩ := h.walk_lt_top hn' hrest
      exact ⟨fuel'', hlt'.trans hlt, hwalk'⟩
  up := by
    intro s s' hs hnext d hfinds
    obtain ⟨n, todo, next, ns, heq, hstep, rfl⟩ := rootStep_eq_some hnext
    have hfollowed := hs.2 s.1 n todo (heq ▸ .refl)
    rw [heq]
    rcases step_real hagree hs.1 hfollowed hstep with hsame | ⟨htop, rfl, n', hn', rest, rfl⟩
    · exact finds_of_step hsame hfinds
    · exact finds_of_step htop ((h.finds_top hn').mpr hfinds)
  stop := by
    rintro ⟨cur, todo⟩ hs hnone d hfinds
    cases todo with
    | nil => rfl
    | cons n todo =>
      exact absurd hfinds
        (not_finds_of_step (step_real_eq_none hagree hs.1 (rootStep_eq_none.mp hnone)))

/-- A path of a linked name, all of whose names can be followed outside, leads to the same entry
in the real root as in the root `r`. -/
theorem Mirror.finds_iff (h : Mirror look' r names) (hagree : ∀ p, r <+: p → look' p = look p)
    {n : Name} (hn : n ∈ names) {rest : List Name}
    (hfollowed : FollowedFrom look r names (r, n :: rest)) (d : Path) :
    Finds look' [] [] (n :: rest) d ↔ Finds look r r (n :: rest) d := by
  have hgood : Below look r names (r, n :: rest) := ⟨List.prefix_refl r, hfollowed⟩
  exact (h.finds_top hn).trans
    (((h.real_stages hagree).finds_iff hgood).trans (root_stages.finds_iff hgood).symm)

end Udroid.Unix
