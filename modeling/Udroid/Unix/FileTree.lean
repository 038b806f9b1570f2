import Mathlib.Data.List.Infix
import Udroid.Unix.Lookup

/-!
# File trees

A tree of directories, files and symbolic links, and what `ln`, `rm` and `mkdir` make of
it.  Every entry stands in a directory, so what is written can only be an entry of a
directory that is there.

- `look_add_of_ne`, `look_erase_of_not_below`: everything else is unchanged.
- `lnSf_eq_self_iff`: when `ln -sf` changes nothing.
- `mkdirP_eq_self_iff`: when `mkdir -p` changes nothing.
-/

namespace Udroid.Unix

/-! ## Section 1: Trees -/

/-- What stands at each path; the root is a directory, and so is whatever has an entry. -/
structure FileTree (α : Type) where
  look : Path → Option (Node α)
  root_dir : look [] = some .dir
  parent_dir : ∀ p n, look (p ++ [n]) ≠ none → look p = some .dir

variable {α : Type}

namespace FileTree

@[ext] theorem ext {s s' : FileTree α} (h : ∀ p, s.look p = s'.look p) : s = s' := by
  cases s
  cases s'
  congr
  exact funext h

/-- Can an entry be put at the path?  Its directory is there, and no directory is in its
place. -/
def Writable (s : FileTree α) (p : Path) : Prop :=
  p ≠ [] ∧ isDir s.look p.dropLast = true ∧ isDir s.look p = false

instance (s : FileTree α) (p : Path) : Decidable (s.Writable p) :=
  inferInstanceAs (Decidable (_ ∧ _ ∧ _))

/-- Put an entry at a path, in place of a file or a link that is there. -/
def put (s : FileTree α) (p : Path) (node : Node α) (h : s.Writable p) : FileTree α where
  look q := if q = p then some node else s.look q
  root_dir := by
    rw [if_neg h.1.symm]
    exact s.root_dir
  parent_dir q n hq := by
    have hqp : q ≠ p := by
      rintro rfl
      rw [if_neg (by simp)] at hq
      have hdir := isDir_iff.mpr (s.parent_dir q n hq)
      simp [h.2.2] at hdir
    rw [if_neg hqp]
    by_cases hp : q ++ [n] = p
    · have hparent := h.2.1
      rwa [← hp, List.dropLast_concat, isDir_iff] at hparent
    · rw [if_neg hp] at hq
      exact s.parent_dir q n hq

/-- Put an entry at a path; nothing happens where that cannot be. -/
def add (s : FileTree α) (p : Path) (node : Node α) : FileTree α :=
  if h : s.Writable p then s.put p node h else s

/-- Take an entry away, and all that is below it. -/
def erase (s : FileTree α) (p : Path) (h : p ≠ []) : FileTree α where
  look q := if p <+: q then none else s.look q
  root_dir := by
    rw [if_neg (by simpa using h)]
    exact s.root_dir
  parent_dir q n hq := by
    have hnot : ¬ p <+: q := by
      intro hpre
      exact hq (if_pos (hpre.trans (List.prefix_append q [n])))
    rw [if_neg hnot]
    split at hq
    · exact absurd rfl hq
    · exact s.parent_dir q n hq

/-- What a table of entries has at a path. -/
def tableLook (entries : List (Path × Node α)) (p : Path) : Option (Node α) :=
  if p = [] then some .dir else (entries.find? (fun e => decide (e.1 = p))).map Prod.snd

/-- The tree with the entries of a table, each of which stands in a directory. -/
def ofTable (entries : List (Path × Node α))
    (h : ∀ e ∈ entries, isDir (tableLook entries) e.1.dropLast = true) : FileTree α where
  look := tableLook entries
  root_dir := rfl
  parent_dir p n hsome := by
    rw [tableLook, if_neg (by simp), Ne, Option.map_eq_none_iff, List.find?_eq_none] at hsome
    push Not at hsome
    obtain ⟨e, he, hpath⟩ := hsome
    have hdir := h e he
    rwa [of_decide_eq_true hpath, List.dropLast_concat, isDir_iff] at hdir

/-! ## Section 2: Commands -/

/-- The directory that a path leads to through links, if it leads to one. -/
def leadsTo (s : FileTree α) (limit : Nat) (names : List Name) : Option Path :=
  Unix.leadsTo s.look [] limit names

/-- Where `ln -sf` puts the link for the name `n` of a directory. -/
def lnDest (s : FileTree α) (limit : Nat) (t : Target) (parent : List Name) (n : Name) :
    Option Path :=
  Unix.lnDest s.look [] limit t parent n

/-- `ln -sf t parent/n`. -/
def lnSf (s : FileTree α) (limit : Nat) (t : Target) (parent : List Name) (n : Name) :
    FileTree α :=
  match s.lnDest limit t parent n with
  | some p => s.add p (.link t)
  | none => s

/-- `rm /n`: a directory stays. -/
def rm (s : FileTree α) (n : Name) : FileTree α :=
  if isDir s.look [n] then s else s.erase [n] (List.cons_ne_nil _ _)

/-- `rm -rf /n`. -/
def rmRf (s : FileTree α) (n : Name) : FileTree α :=
  s.erase [n] (List.cons_ne_nil _ _)

/-- One `mkdir` of `mkdir -p`. -/
def mkdirOne (s : FileTree α) (limit : Nat) (parent : List Name) (n : Name) : FileTree α :=
  match mkdirDest s.look [] limit parent n with
  | some p => s.add p .dir
  | none => s

/-- `mkdir -p done/todo`, where `done` has been gone through. -/
def mkdirP (s : FileTree α) (limit : Nat) (parent : List Name) : List Name → FileTree α
  | [] => s
  | n :: todo => (s.mkdirOne limit parent n).mkdirP limit (parent ++ [n]) todo

/-! ## Section 3: What is written, and what is not -/

variable {s : FileTree α} {p q : Path} {node : Node α} {t : Target} {limit : Nat}

theorem writable_iff :
    s.Writable p ↔ p ≠ [] ∧ s.look p.dropLast = some .dir ∧ s.look p ≠ some .dir := by
  rw [Writable, isDir_iff, ← Bool.not_eq_true, isDir_iff]

theorem look_add_self (h : s.Writable p) : (s.add p node).look p = some node := by
  simp [add, h, put]

theorem look_add_of_ne (h : q ≠ p) : (s.add p node).look q = s.look q := by
  unfold add
  split <;> simp [put, h]

/-- An entry is put at a path, or nothing changes there. -/
theorem look_add_or (s : FileTree α) (p q : Path) (node : Node α) :
    (s.add p node).look q = s.look q ∨ (s.add p node).look q = some node := by
  by_cases hq : q = p
  · subst hq
    by_cases hwrite : s.Writable q
    · exact Or.inr (look_add_self hwrite)
    · exact Or.inl (by rw [add, dif_neg hwrite])
  · exact Or.inl (look_add_of_ne hq)

theorem add_of_not_writable (h : ¬ s.Writable p) : s.add p node = s := by
  simp [add, h]

theorem look_erase_of_below (hp : p ≠ []) (h : p <+: q) : (s.erase p hp).look q = none := by
  simp [erase, h]

theorem look_erase_of_not_below (hp : p ≠ []) (h : ¬ p <+: q) :
    (s.erase p hp).look q = s.look q := by
  simp [erase, h]

/-- Nothing is below an entry that is not a directory. -/
theorem look_eq_none_of_below (h : s.look p ≠ some .dir) (hpq : p <+: q) (hne : q ≠ p) :
    s.look q = none := by
  obtain ⟨rest, rfl⟩ := hpq
  induction rest using List.reverseRecOn with
  | nil => simp at hne
  | append_singleton rest n ih =>
    by_contra hsome
    rw [← List.append_assoc] at hsome
    have hdir := s.parent_dir _ _ hsome
    cases rest with
    | nil => exact h (by simpa using hdir)
    | cons m rest =>
      rw [ih (by simp)] at hdir
      cases hdir

/-- A directory or this very link is already at the path. -/
def Occupied (s : FileTree α) (p : Path) (t : Target) : Prop :=
  s.look p = some .dir ∨ s.look p = some (.link t)

/-- In a directory a link is written unless the path is occupied. -/
theorem add_link_eq_self_iff (hp : p ≠ []) (hparent : s.look p.dropLast = some .dir) :
    s.add p (.link t) = s ↔ s.Occupied p t := by
  by_cases hdir : s.look p = some .dir
  · have hnot : ¬ s.Writable p := fun h => (writable_iff.mp h).2.2 hdir
    simp [add_of_not_writable hnot, Occupied, hdir]
  · have hwrite : s.Writable p := writable_iff.mpr ⟨hp, hparent, hdir⟩
    constructor
    · intro h
      have hself : (s.add p (.link t)).look p = some (.link t) := look_add_self hwrite
      rw [h] at hself
      exact Or.inr hself
    · intro h
      have hlink : s.look p = some (.link t) := h.resolve_left hdir
      ext1 q
      by_cases hq : q = p
      · rw [hq, look_add_self hwrite, hlink]
      · exact look_add_of_ne hq

/-! ## Section 4: Where paths lead -/

theorem leadsTo_eq_some {names : List Name} {d : Path} :
    s.leadsTo limit names = some d ↔
      walk s.look [] (limit + 1) [] names = some d ∧ s.look d = some .dir :=
  Unix.leadsTo_eq_some

theorem leadsTo_nil : s.leadsTo limit [] = some [] :=
  Unix.leadsTo_nil s.root_dir

/-- A name of the root that is a directory leads to itself. -/
theorem leadsTo_of_dir {n : Name} (hdot : n ≠ ".") (hdots : n ≠ "..")
    (h : s.look [n] = some .dir) : s.leadsTo limit [n] = some [n] :=
  Unix.leadsTo_of_dir s.root_dir hdot hdots h

/-- A name that is not there leads nowhere. -/
theorem leadsTo_of_absent {n : Name} (hdot : n ≠ ".") (hdots : n ≠ "..")
    (h : s.look [n] = none) : s.leadsTo limit [n] = none :=
  Unix.leadsTo_of_absent hdot hdots h

theorem lnDest_eq {parent : List Name} {n : Name} :
    s.lnDest limit t parent n =
      match s.leadsTo limit (parent ++ [n]) with
      | some d => some (d ++ [t.base])
      | none => (s.leadsTo limit parent).map (fun d => d ++ [n]) := rfl

/-- A link is put into a directory. -/
theorem lnDest_parent {parent : List Name} {n : Name}
    (h : s.lnDest limit t parent n = some p) :
    p ≠ [] ∧ s.look p.dropLast = some .dir := by
  rw [lnDest_eq] at h
  split at h
  · rename_i d hd
    cases h
    simpa using (leadsTo_eq_some.mp hd).2
  · obtain ⟨d, hd, rfl⟩ := Option.map_eq_some_iff.mp h
    simpa using (leadsTo_eq_some.mp hd).2

theorem lnSf_eq_add {parent : List Name} {n : Name} (h : s.lnDest limit t parent n = some p) :
    s.lnSf limit t parent n = s.add p (.link t) := by
  simp [lnSf, h]

theorem lnSf_eq_self {parent : List Name} {n : Name} (h : s.lnDest limit t parent n = none) :
    s.lnSf limit t parent n = s := by
  simp [lnSf, h]

/-- `ln -sf` changes nothing exactly where its place is occupied. -/
theorem lnSf_eq_self_iff {parent : List Name} {n : Name} :
    s.lnSf limit t parent n = s ↔
      ∀ p, s.lnDest limit t parent n = some p → s.Occupied p t := by
  cases h : s.lnDest limit t parent n with
  | none => simp [lnSf_eq_self h]
  | some p =>
    obtain ⟨hp, hparent⟩ := lnDest_parent h
    rw [lnSf_eq_add h, add_link_eq_self_iff hp hparent]
    simp

/-! ## Section 5: Making directories -/

/-- The name is missing from the directory that the path before it leads to. -/
def Missing (s : FileTree α) (limit : Nat) (parent : List Name) (n : Name) : Prop :=
  ∃ d, s.leadsTo limit parent = some d ∧ s.look (d ++ [n]) = none

theorem mkdirOne_of_not_missing {parent : List Name} {n : Name}
    (h : ¬ s.Missing limit parent n) : s.mkdirOne limit parent n = s := by
  unfold mkdirOne
  split
  · rename_i p hp
    obtain ⟨d, hd, hnone, -⟩ := mkdirDest_eq_some.mp hp
    exact absurd ⟨d, hd, hnone⟩ h
  · rfl

/-- A missing name is made, and nothing else is. -/
theorem mkdirOne_of_leadsTo {parent : List Name} {n : Name} {d : Path}
    (hd : s.leadsTo limit parent = some d) (h : s.look (d ++ [n]) = none) :
    s.mkdirOne limit parent n = s.add (d ++ [n]) .dir ∧ s.Writable (d ++ [n]) := by
  have hdest : mkdirDest s.look [] limit parent n = some (d ++ [n]) :=
    mkdirDest_eq_some.mpr ⟨d, hd, h, rfl⟩
  refine ⟨by rw [mkdirOne, hdest], writable_iff.mpr ⟨by simp, ?_, by simp [h]⟩⟩
  rw [List.dropLast_concat]
  exact (leadsTo_eq_some.mp hd).2

/-- What is there stays. -/
theorem look_mkdirOne (limit : Nat) (parent : List Name) (n : Name) (h : s.look p ≠ none) :
    (s.mkdirOne limit parent n).look p = s.look p := by
  by_cases hmissing : s.Missing limit parent n
  · obtain ⟨d, hd, hnone⟩ := hmissing
    rw [(mkdirOne_of_leadsTo hd hnone).1]
    refine look_add_of_ne ?_
    rintro rfl
    exact h hnone
  · rw [mkdirOne_of_not_missing hmissing]

theorem look_mkdirP (limit : Nat) (parent todo : List Name) (h : s.look p ≠ none) :
    (s.mkdirP limit parent todo).look p = s.look p := by
  induction todo generalizing s parent with
  | nil => rfl
  | cons n todo ih =>
    have hone := look_mkdirOne limit parent n h
    rw [mkdirP, ih _ (by rwa [hone]), hone]

/-- `mkdir -p` changes nothing, or it makes a directory. -/
theorem mkdirP_eq_self_or (limit : Nat) (s : FileTree α) (parent todo : List Name) :
    s.mkdirP limit parent todo = s ∨
      ∃ p, s.look p = none ∧ (s.mkdirP limit parent todo).look p = some .dir := by
  induction todo generalizing parent with
  | nil => exact Or.inl rfl
  | cons m todo ih =>
    by_cases hmissing : s.Missing limit parent m
    · obtain ⟨d, hd, hnone⟩ := hmissing
      obtain ⟨hmake, hwrite⟩ := mkdirOne_of_leadsTo hd hnone
      have hmade : (s.mkdirOne limit parent m).look (d ++ [m]) = some .dir := by
        rw [hmake, look_add_self hwrite]
      have hthere : (s.mkdirOne limit parent m).look (d ++ [m]) ≠ none := by simp [hmade]
      -- the rest of the path only adds to the tree, so this directory is still there at the end
      refine Or.inr ⟨d ++ [m], hnone, ?_⟩
      rw [mkdirP, look_mkdirP limit (parent ++ [m]) todo hthere, hmade]
    · rw [mkdirP, mkdirOne_of_not_missing hmissing]
      exact ih (parent ++ [m])

/-- `mkdir -p` changes nothing exactly if no name of the path is missing. -/
theorem mkdirP_eq_self_iff {parent todo : List Name} :
    s.mkdirP limit parent todo = s ↔
      ∀ a n b, todo = a ++ n :: b → ¬ s.Missing limit (parent ++ a) n := by
  induction todo generalizing parent with
  | nil => simp [mkdirP]
  | cons m todo ih =>
    -- either the first name is made, and stays made, or the call comes down to the rest
    by_cases hmissing : s.Missing limit parent m
    · refine iff_of_false ?_ ?_
      · intro h
        obtain ⟨d, hd, hnone⟩ := hmissing
        obtain ⟨hmake, hwrite⟩ := mkdirOne_of_leadsTo hd hnone
        have hmade : (s.mkdirOne limit parent m).look (d ++ [m]) = some .dir := by
          rw [hmake, look_add_self hwrite]
        have hthere : (s.mkdirOne limit parent m).look (d ++ [m]) ≠ none := by simp [hmade]
        have hkept := look_mkdirP limit (parent ++ [m]) todo hthere
        rw [mkdirP] at h
        rw [h, hmade, hnone] at hkept
        cases hkept
      · intro h
        exact h [] m todo rfl (by simpa using hmissing)
    · rw [mkdirP, mkdirOne_of_not_missing hmissing, ih]
      -- a split of the whole path is at its first name or a split of the rest
      constructor
      · intro h a n b hab
        cases a with
        | nil =>
          obtain ⟨rfl, -⟩ := List.cons_eq_cons.mp hab
          simpa using hmissing
        | cons x a =>
          obtain ⟨rfl, rfl⟩ := List.cons_eq_cons.mp hab
          simpa using h a n b rfl
      · intro h a n b hab
        simpa using h (m :: a) n b (by rw [hab, List.cons_append])

/-- Nothing is missing from a path that leads to a directory. -/
theorem not_missing_of_leadsTo {a b : List Name} {n : Name} {d : Path} (hdot : n ≠ ".")
    (hdots : n ≠ "..") (h : s.leadsTo limit (a ++ n :: b) = some d) : ¬ s.Missing limit a n := by
  -- the lookup of the whole path comes by the missing name
  rintro ⟨e, he, hnone⟩
  obtain ⟨i, j, mid, -, hmid, hrest⟩ := exists_walk_of_append (leadsTo_eq_some.mp h).1
  obtain rfl := walk_unique hmid (leadsTo_eq_some.mp he).1
  rw [walk_step_none (step_absent hdot hdots hnone)] at hrest
  cases hrest

/-- A directory stays where a link is put. -/
theorem look_add_of_dir (h : s.look p = some .dir) : (s.add q node).look p = some .dir := by
  by_cases hq : p = q
  · subst hq
    rw [add_of_not_writable fun hwrite => (writable_iff.mp hwrite).2.2 h, h]
  · rw [look_add_of_ne hq, h]

theorem look_lnSf_of_dir {parent : List Name} {n : Name} (h : s.look p = some .dir) :
    (s.lnSf limit t parent n).look p = some .dir := by
  unfold lnSf
  split
  · exact look_add_of_dir h
  · exact h

end FileTree

end Udroid.Unix
