import Mathlib.Data.List.Basic
import Mathlib.Logic.Relation
import Udroid.Unix.Path

/-!
# Path lookup

What the kernel does to find a file: it goes from directory to directory, one name after
the other, and puts the text of a link it meets in place of the link's name.  The tree is
given by what stands at each canonical path; the lookup stays below a root directory, as in
a chroot.

- `walk`: the lookup, in at most as many steps as the kernel makes.
- `walk_append`, `exists_walk_of_append`: a lookup of two parts is a lookup of the one and
  then of the other.
- `walk_of_le`: a lookup does not notice entries that it does not read.
- `Finds`: the lookup without a bound on its steps.
- `Stages.finds_iff`: a lookup that goes along the states of a machine ends where the machine
  does.
-/

namespace Udroid.Unix

variable {α : Type}

/-! ## Section 1: Nodes and steps -/

/-- The text of a symbolic link, in components. -/
structure Target where
  absolute : Bool
  comps : List Name
  deriving DecidableEq

/-- The last component of the text. -/
def Target.base (t : Target) : Name :=
  t.comps.getLastD ""

/-- What can stand at a path. -/
inductive Node (α : Type) where
  | dir
  | file (content : α)
  | link (target : Target)
  deriving DecidableEq

/-- Is there a directory at the path? -/
def isDir (look : Path → Option (Node α)) (p : Path) : Bool :=
  match look p with
  | some .dir => true
  | _ => false

theorem isDir_iff {look : Path → Option (Node α)} {p : Path} :
    isDir look p = true ↔ look p = some .dir := by
  unfold isDir
  split <;> simp_all

/-- One name, from the directory `cur`: where it leads, and the names that come before the
rest of the path.  `..` does not leave the root. -/
def step (look : Path → Option (Node α)) (root cur : Path) (n : Name) :
    Option (Path × List Name) :=
  if isDir look cur then
    if n = "." then some (cur, [])
    else if n = ".." then some (if cur = root then root else cur.dropLast, [])
    else
      match look (cur ++ [n]) with
      | none => none
      | some (.link t) => some (if t.absolute then root else cur, t.comps)
      | some _ => some (cur ++ [n], [])
  else none

/-- The lookup of the names `todo` from `cur`, in at most `fuel` steps. -/
def walk (look : Path → Option (Node α)) (root : Path) : Nat → Path → List Name → Option Path
  | _, cur, [] => some cur
  | 0, _, _ :: _ => none
  | fuel + 1, cur, n :: todo =>
      match step look root cur n with
      | none => none
      | some (next, names) => walk look root fuel next (names ++ todo)

/-- The directory that names lead to through links, if they lead to one; `limit + 1` is the
number of steps after which the kernel gives up. -/
def leadsTo (look : Path → Option (Node α)) (root : Path) (limit : Nat) (names : List Name) :
    Option Path :=
  match walk look root (limit + 1) root names with
  | some d => if isDir look d then some d else none
  | none => none

/-- Where `ln -sf` puts the link for the name `n` of a directory: into the directory the
name leads to, if it leads to one, else in place of the name. -/
def lnDest (look : Path → Option (Node α)) (root : Path) (limit : Nat) (t : Target)
    (parent : List Name) (n : Name) : Option Path :=
  match leadsTo look root limit (parent ++ [n]) with
  | some d => some (d ++ [t.base])
  | none => (leadsTo look root limit parent).map (fun d => d ++ [n])

/-- Where one `mkdir` of `mkdir -p` makes a directory: a name that is there is let be,
whatever it is. -/
def mkdirDest (look : Path → Option (Node α)) (root : Path) (limit : Nat)
    (parent : List Name) (n : Name) : Option Path :=
  match leadsTo look root limit parent with
  | some d => if (look (d ++ [n])).isNone then some (d ++ [n]) else none
  | none => none

variable {look : Path → Option (Node α)} {root : Path}

/-! ## Section 2: Steps -/

theorem step_eq_none_of_not_dir {cur : Path} (h : isDir look cur = false) (n : Name) :
    step look root cur n = none := by
  simp [step, h]

/-- A name that is neither `.` nor `..` is looked up in the directory. -/
theorem step_name {cur : Path} (hcur : look cur = some .dir) {n : Name} (hdot : n ≠ ".")
    (hdots : n ≠ "..") :
    step look root cur n =
      match look (cur ++ [n]) with
      | none => none
      | some (.link t) => some (if t.absolute then root else cur, t.comps)
      | some _ => some (cur ++ [n], []) := by
  simp [step, isDir_iff.mpr hcur, hdot, hdots]

theorem step_dir {cur : Path} (hcur : look cur = some .dir) {n : Name} (hdot : n ≠ ".")
    (hdots : n ≠ "..") (h : look (cur ++ [n]) = some .dir) :
    step look root cur n = some (cur ++ [n], []) := by
  rw [step_name hcur hdot hdots, h]

theorem step_absent {cur : Path} {n : Name} (hdot : n ≠ ".") (hdots : n ≠ "..")
    (h : look (cur ++ [n]) = none) : step look root cur n = none := by
  simp [step, hdot, hdots, h]

/-! ## Section 3: Lookups -/

@[simp] theorem walk_nil (fuel : Nat) (cur : Path) : walk look root fuel cur [] = some cur := by
  cases fuel <;> rfl

theorem walk_succ_cons (fuel : Nat) (cur : Path) (n : Name) (todo : List Name) :
    walk look root (fuel + 1) cur (n :: todo) =
      match step look root cur n with
      | none => none
      | some (next, names) => walk look root fuel next (names ++ todo) := rfl

theorem walk_step {cur next : Path} {n : Name} {names : List Name}
    (h : step look root cur n = some (next, names)) (fuel : Nat) (todo : List Name) :
    walk look root (fuel + 1) cur (n :: todo) = walk look root fuel next (names ++ todo) := by
  rw [walk_succ_cons, h]

theorem walk_step_none {cur : Path} {n : Name} (h : step look root cur n = none) (fuel : Nat)
    (todo : List Name) : walk look root fuel cur (n :: todo) = none := by
  cases fuel with
  | zero => rfl
  | succ fuel => rw [walk_succ_cons, h]

/-- The first step of a lookup that succeeds. -/
theorem walk_cons_eq_some {fuel : Nat} {cur d : Path} {n : Name} {todo : List Name}
    (h : walk look root (fuel + 1) cur (n :: todo) = some d) :
    ∃ next names, step look root cur n = some (next, names) ∧
      walk look root fuel next (names ++ todo) = some d := by
  rw [walk_succ_cons] at h
  cases hstep : step look root cur n with
  | none => simp [hstep] at h
  | some result =>
    obtain ⟨next, names⟩ := result
    rw [hstep] at h
    exact ⟨next, names, rfl, h⟩

/-- More steps do not change what a lookup finds. -/
theorem walk_mono {fuel fuel' : Nat} (hle : fuel ≤ fuel') {cur d : Path} {todo : List Name}
    (h : walk look root fuel cur todo = some d) : walk look root fuel' cur todo = some d := by
  -- on the steps, name by name; the other lookup has at least one step for each of them
  induction fuel generalizing fuel' cur todo with
  | zero =>
    cases todo with
    | nil => simpa using h
    | cons n todo => cases h
  | succ fuel ih =>
    cases todo with
    | nil => simpa using h
    | cons n todo =>
      obtain ⟨next, names, hstep, hrest⟩ := walk_cons_eq_some h
      obtain ⟨fuel', rfl⟩ : ∃ k, fuel' = k + 1 := Nat.exists_eq_succ_of_ne_zero (by omega)
      rw [walk_step hstep]
      exact ih (Nat.le_of_succ_le_succ hle) hrest

/-- A lookup finds one file, however many steps it may take. -/
theorem walk_unique {fuel fuel' : Nat} {cur d d' : Path} {todo : List Name}
    (h : walk look root fuel cur todo = some d) (h' : walk look root fuel' cur todo = some d') :
    d = d' := by
  have hmax := walk_mono (Nat.le_max_left fuel fuel') h
  have hmax' := walk_mono (Nat.le_max_right fuel fuel') h'
  exact Option.some.inj (hmax.symm.trans hmax')

/-- A lookup of two parts, one after the other. -/
theorem walk_append {fuel fuel' : Nat} {cur mid d : Path} {a b : List Name}
    (ha : walk look root fuel cur a = some mid) (hb : walk look root fuel' mid b = some d) :
    walk look root (fuel + fuel') cur (a ++ b) = some d := by
  induction fuel generalizing cur a with
  | zero =>
    cases a with
    | nil =>
      rw [walk_nil, Option.some_inj] at ha
      simpa [ha] using hb
    | cons n a => cases ha
  | succ fuel ih =>
    cases a with
    | nil =>
      rw [walk_nil, Option.some_inj] at ha
      subst ha
      exact walk_mono (Nat.le_add_left _ _) hb
    | cons n a =>
      obtain ⟨next, names, hstep, hrest⟩ := walk_cons_eq_some ha
      -- the text of a link comes before the rest of the first part
      rw [Nat.add_right_comm, List.cons_append, walk_step hstep, ← List.append_assoc]
      exact ih hrest

/-- A lookup that succeeds succeeds in its parts. -/
theorem exists_walk_of_append {fuel : Nat} {cur d : Path} {a b : List Name}
    (h : walk look root fuel cur (a ++ b) = some d) :
    ∃ i j mid, i + j ≤ fuel ∧ walk look root i cur a = some mid ∧
      walk look root j mid b = some d := by
  induction fuel generalizing cur a with
  | zero =>
    cases a with
    | nil => exact ⟨0, 0, cur, Nat.le_refl _, walk_nil _ _, h⟩
    | cons n a => cases h
  | succ fuel ih =>
    cases a with
    | nil => exact ⟨0, fuel + 1, cur, by omega, walk_nil _ _, h⟩
    | cons n a =>
      rw [List.cons_append] at h
      obtain ⟨next, names, hstep, hrest⟩ := walk_cons_eq_some h
      rw [← List.append_assoc] at hrest
      -- the first part is now what the first name stands for, and the rest of it
      obtain ⟨i, j, mid, hle, hi, hj⟩ := ih hrest
      exact ⟨i + 1, j, mid, by omega, by rw [walk_step hstep]; exact hi, hj⟩

/-- Directories with plain names lead to themselves. -/
theorem walk_of_dirs {fuel : Nat} {cur : Path} {todo : List Name} (hle : todo.length ≤ fuel)
    (hplain : ∀ n ∈ todo, n ≠ "." ∧ n ≠ "..")
    (hdirs : ∀ q, q <+: todo → look (cur ++ q) = some .dir) :
    walk look root fuel cur todo = some (cur ++ todo) := by
  induction todo generalizing cur fuel with
  | nil => simp
  | cons n todo ih =>
    obtain ⟨fuel, rfl⟩ : ∃ k, fuel = k + 1 := by
      apply Nat.exists_eq_succ_of_ne_zero
      simp only [List.length_cons] at hle
      omega
    have hcur : look cur = some .dir := by simpa using hdirs [] List.nil_prefix
    have hn : look (cur ++ [n]) = some .dir := hdirs [n] (by simp)
    obtain ⟨hdot, hdots⟩ := hplain n (by simp)
    rw [walk_step (step_dir hcur hdot hdots hn), List.nil_append]
    have hbelow : ∀ q, q <+: todo → look (cur ++ [n] ++ q) = some .dir := by
      intro q hq
      simpa using hdirs (n :: q) (by simpa using hq)
    have hrest := ih (by simpa using hle) (fun m hm => hplain m (by simp [hm])) hbelow
    rw [hrest, List.append_assoc, List.singleton_append]

/-- Where one tree has all that another one has, it leads where the other one leads. -/
theorem walk_of_le {look' : Path → Option (Node α)}
    (hle : ∀ p, look p ≠ none → look' p = look p) {fuel : Nat} {cur d : Path}
    {todo : List Name} (h : walk look root fuel cur todo = some d) :
    walk look' root fuel cur todo = some d := by
  -- a step that succeeds reads two entries at most, and finds both of them
  have hstep : ∀ {cur : Path} {n : Name} {result : Path × List Name},
      step look root cur n = some result → step look' root cur n = some result := by
    intro cur n result hresult
    unfold step at hresult ⊢
    by_cases hcur : look cur = some .dir
    · have hcur' : look' cur = some .dir := by rw [hle cur (by simp [hcur]), hcur]
      rw [if_pos (isDir_iff.mpr hcur)] at hresult
      rw [if_pos (isDir_iff.mpr hcur')]
      -- only a name that is not a dot is read, and what is read is there
      by_cases hdot : n = "."
      · rwa [if_pos hdot] at hresult ⊢
      · by_cases hdots : n = ".."
        · rwa [if_neg hdot, if_pos hdots] at hresult ⊢
        · rw [if_neg hdot, if_neg hdots] at hresult ⊢
          have hn : look (cur ++ [n]) ≠ none := by
            intro hnone
            rw [hnone] at hresult
            cases hresult
          rwa [hle _ hn]
    · rw [if_neg (fun hdir => hcur (isDir_iff.mp hdir))] at hresult
      cases hresult
  induction fuel generalizing cur todo with
  | zero =>
    cases todo with
    | nil => exact h
    | cons n todo => cases h
  | succ fuel ih =>
    cases todo with
    | nil => exact h
    | cons n todo =>
      obtain ⟨next, names, hnext, hrest⟩ := walk_cons_eq_some h
      rw [walk_step (hstep hnext)]
      exact ih hrest

/-! ## Section 4: Where paths lead -/

theorem leadsTo_eq_some {limit : Nat} {names : List Name} {d : Path} :
    leadsTo look root limit names = some d ↔
      walk look root (limit + 1) root names = some d ∧ look d = some .dir := by
  unfold leadsTo
  split
  · rename_i e he
    rw [he, Option.some_inj]
    split
    · rename_i hdir
      rw [Option.some_inj]
      refine ⟨fun h => ⟨h, h ▸ isDir_iff.mp hdir⟩, fun h => h.1⟩
    · rename_i hdir
      refine ⟨fun h => absurd h (by simp), fun h => ?_⟩
      exact absurd (isDir_iff.mpr (h.1 ▸ h.2)) hdir
  · rename_i hnone
    simp [hnone]

theorem leadsTo_nil {limit : Nat} (hroot : look root = some .dir) :
    leadsTo look root limit [] = some root :=
  leadsTo_eq_some.mpr ⟨walk_nil _ _, hroot⟩

/-- A name of the root that is a directory leads to itself. -/
theorem leadsTo_of_dir {limit : Nat} (hroot : look root = some .dir) {n : Name}
    (hdot : n ≠ ".") (hdots : n ≠ "..") (h : look (root ++ [n]) = some .dir) :
    leadsTo look root limit [n] = some (root ++ [n]) := by
  refine leadsTo_eq_some.mpr ⟨?_, h⟩
  rw [walk_step (step_dir hroot hdot hdots h), List.nil_append, walk_nil]

/-- A name that is not there leads nowhere. -/
theorem leadsTo_of_absent {limit : Nat} {n : Name} (hdot : n ≠ ".") (hdots : n ≠ "..")
    (h : look (root ++ [n]) = none) : leadsTo look root limit [n] = none := by
  unfold leadsTo
  rw [walk_step_none (step_absent hdot hdots h)]

theorem mkdirDest_eq_some {limit : Nat} {parent : List Name} {n : Name} {p : Path} :
    mkdirDest look root limit parent n = some p ↔
      ∃ d, leadsTo look root limit parent = some d ∧ look (d ++ [n]) = none ∧ p = d ++ [n] := by
  unfold mkdirDest
  split
  · rename_i d hd
    by_cases hnone : look (d ++ [n]) = none
    · simp [hd, hnone, eq_comm]
    · simp [hd, hnone]
  · rename_i hnone
    simp [hnone]

/-! ## Section 5: Lookups without a bound -/

/-- The lookup of `todo` from `cur` ends at `d`. -/
def Finds (look : Path → Option (Node α)) (root cur : Path) (todo : List Name) (d : Path) :
    Prop :=
  ∃ fuel, walk look root fuel cur todo = some d

theorem Finds.unique {cur d d' : Path} {todo : List Name} (h : Finds look root cur todo d)
    (h' : Finds look root cur todo d') : d = d' := by
  obtain ⟨fuel, h⟩ := h
  obtain ⟨fuel', h'⟩ := h'
  exact walk_unique h h'

theorem finds_nil {cur d : Path} : Finds look root cur [] d ↔ d = cur := by
  simp [Finds, eq_comm]

theorem finds_of_step {cur next d : Path} {n : Name} {names todo : List Name}
    (hstep : step look root cur n = some (next, names))
    (h : Finds look root next (names ++ todo) d) : Finds look root cur (n :: todo) d := by
  obtain ⟨fuel, h⟩ := h
  exact ⟨fuel + 1, by rw [walk_step hstep, h]⟩

theorem not_finds_of_step {cur d : Path} {n : Name} {todo : List Name}
    (hstep : step look root cur n = none) : ¬ Finds look root cur (n :: todo) d := by
  rintro ⟨fuel, h⟩
  rw [walk_step_none hstep] at h
  cases h

theorem finds_append {cur mid d : Path} {a b : List Name} (ha : Finds look root cur a mid)
    (hb : Finds look root mid b d) : Finds look root cur (a ++ b) d := by
  obtain ⟨fuel, ha⟩ := ha
  obtain ⟨fuel', hb⟩ := hb
  exact ⟨fuel + fuel', walk_append ha hb⟩

/-- A lookup that succeeds gets past its first name with fewer steps left. -/
theorem walk_lt_of_step {fuel : Nat} {cur next d : Path} {n : Name} {names todo : List Name}
    (hstep : step look root cur n = some (next, names))
    (h : walk look root fuel cur (n :: todo) = some d) :
    ∃ fuel' < fuel, walk look root fuel' next (names ++ todo) = some d := by
  cases fuel with
  | zero => cases h
  | succ fuel =>
    rw [walk_step hstep] at h
    exact ⟨fuel, Nat.lt_succ_self fuel, h⟩

/-- The same for a first name that leads somewhere in several steps. -/
theorem walk_lt_of_finds {fuel : Nat} {cur mid d : Path} {n : Name} {todo : List Name}
    (hn : Finds look root cur [n] mid) (h : walk look root fuel cur (n :: todo) = some d) :
    ∃ fuel' < fuel, walk look root fuel' mid todo = some d := by
  have hsplit : walk look root fuel cur ([n] ++ todo) = some d := h
  obtain ⟨i, j, mid', hle, hi, hj⟩ := exists_walk_of_append hsplit
  obtain rfl : mid' = mid := Finds.unique ⟨i, hi⟩ hn
  have hpos : i ≠ 0 := by
    rintro rfl
    cases hi
  exact ⟨j, by omega, hj⟩

/-! ## Section 6: Lookups in stages -/

/-- A lookup that goes along the states of a machine: each state of the machine stands for a
directory and the names that are left, one step of it is one or more steps of the lookup, and
where the machine stops the lookup has no names left, or fails. -/
structure Stages {S : Type} (look : Path → Option (Node α)) (root : Path)
    (next : S → Option S) (state : S → Path × List Name) (good : S → Prop) : Prop where
  kept : ∀ s s', good s → next s = some s' → good s'
  down : ∀ s s', good s → next s = some s' → ∀ fuel d,
    walk look root fuel (state s).1 (state s).2 = some d →
      ∃ fuel' < fuel, walk look root fuel' (state s').1 (state s').2 = some d
  up : ∀ s s', good s → next s = some s' → ∀ d,
    Finds look root (state s').1 (state s').2 d → Finds look root (state s).1 (state s).2 d
  stop : ∀ s, good s → next s = none → ∀ d,
    Finds look root (state s).1 (state s).2 d → (state s).2 = []

theorem Stages.good_of_run {S : Type} {next : S → Option S} {state : S → Path × List Name}
    {good : S → Prop} (h : Stages look root next state good) {s s' : S} (hs : good s)
    (hrun : Relation.ReflTransGen (fun a b => next a = some b) s s') : good s' := by
  induction hrun with
  | refl => exact hs
  | tail _ hnext ih => exact h.kept _ _ ih hnext

theorem Stages.finds_iff {S : Type} {next : S → Option S} {state : S → Path × List Name}
    {good : S → Prop} (h : Stages look root next state good) {s : S} (hs : good s) {d : Path} :
    Finds look root (state s).1 (state s).2 d ↔
      ∃ s', Relation.ReflTransGen (fun a b => next a = some b) s s' ∧ state s' = (d, []) := by
  constructor
  · rintro ⟨fuel, hwalk⟩
    -- each step of the machine leaves the lookup fewer steps
    induction fuel using Nat.strongRecOn generalizing s with
    | ind fuel ih =>
      cases hnext : next s with
      | none =>
        have hnil := h.stop s hs hnext d ⟨fuel, hwalk⟩
        rw [hnil, walk_nil, Option.some_inj] at hwalk
        exact ⟨s, .refl, Prod.ext hwalk hnil⟩
      | some s' =>
        obtain ⟨fuel', hlt, hwalk'⟩ := h.down s s' hs hnext fuel d hwalk
        obtain ⟨s'', hrun, hend⟩ := ih fuel' hlt (h.kept s s' hs hnext) hwalk'
        exact ⟨s'', .head hnext hrun, hend⟩
  · rintro ⟨s', hrun, hend⟩
    -- from the end of the run back to its start
    induction hrun using Relation.ReflTransGen.head_induction_on with
    | refl =>
      rw [hend]
      exact finds_nil.mpr rfl
    | head hnext _ ih => exact h.up _ _ hs hnext d (ih (h.kept _ _ hs hnext))

end Udroid.Unix
