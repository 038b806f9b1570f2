import Mathlib.Data.List.Basic

/-!
# Jobs that are undone together

A list of jobs is done one after the other.  When one fails, or what comes at the end fails, all
are undone in the reverse order; undoing may fail as well.

- `Jobs.Keeps`: what each job keeps, the whole transaction keeps.
- `Jobs.Reaches`: what each job reaches, all have reached when none failed.
- `Jobs.Restores`: when each job that is undone gives back what it was done on, the whole
  transaction does.
-/

namespace Udroid.Unix

/-! ## Section 1: Transactions -/

/-- What is left after a step: it may have failed half way. -/
structure Step (ι σ ε : Type) where
  item : ι
  state : σ
  error : Option ε

/-- How an item is done, and how it is undone. -/
structure Jobs (ι σ ε : Type) where
  act : ι → σ → Step ι σ ε
  undo : ι → σ → Step ι σ ε

variable {ι σ ε : Type}

/-- The items are done in order, up to the first that fails. -/
def Jobs.actAll (J : Jobs ι σ ε) : List ι → σ → Step (List ι) σ ε
  | [], s => ⟨[], s, none⟩
  | i :: is, s =>
      let done := J.act i s
      match done.error with
      | some e => ⟨done.item :: is, done.state, some e⟩
      | none =>
          let rest := J.actAll is done.state
          ⟨done.item :: rest.item, rest.state, rest.error⟩

/-- The items are undone in the reverse order, up to the first that fails. -/
def Jobs.undoAll (J : Jobs ι σ ε) : List ι → σ → Step (List ι) σ ε
  | [], s => ⟨[], s, none⟩
  | i :: is, s =>
      let rest := J.undoAll is s
      match rest.error with
      | some e => ⟨i :: rest.item, rest.state, some e⟩
      | none =>
          let undone := J.undo i rest.state
          ⟨undone.item :: rest.item, undone.state, undone.error⟩

/-- The items are undone because of an error; an error while they are undone takes its place. -/
def Jobs.abort (J : Jobs ι σ ε) (is : List ι) (s : σ) (e : ε) : Step (List ι) σ ε :=
  let undone := J.undoAll is s
  ⟨undone.item, undone.state, some (undone.error.getD e)⟩

/-- All items are done and `commit` is; on an error all items are undone. -/
def Jobs.transact (J : Jobs ι σ ε) (commit : σ → σ × Option ε) (is : List ι) (s : σ) :
    Step (List ι) σ ε :=
  let done := J.actAll is s
  match done.error with
  | some e => J.abort done.item done.state e
  | none =>
      match commit done.state with
      | (s', some e) => J.abort done.item s' e
      | (s', none) => ⟨done.item, s', none⟩

variable {J : Jobs ι σ ε}

theorem Jobs.actAll_cons_failed {i : ι} {is : List ι} {s : σ} {e : ε}
    (h : (J.act i s).error = some e) :
    J.actAll (i :: is) s = ⟨(J.act i s).item :: is, (J.act i s).state, some e⟩ := by
  simp only [Jobs.actAll, h]

theorem Jobs.actAll_cons {i : ι} {is : List ι} {s : σ} (h : (J.act i s).error = none) :
    J.actAll (i :: is) s =
      ⟨(J.act i s).item :: (J.actAll is (J.act i s).state).item,
        (J.actAll is (J.act i s).state).state, (J.actAll is (J.act i s).state).error⟩ := by
  simp only [Jobs.actAll, h]

theorem Jobs.undoAll_cons_failed {i : ι} {is : List ι} {s : σ} {e : ε}
    (h : (J.undoAll is s).error = some e) :
    J.undoAll (i :: is) s = ⟨i :: (J.undoAll is s).item, (J.undoAll is s).state, some e⟩ := by
  simp only [Jobs.undoAll, h]

theorem Jobs.undoAll_cons {i : ι} {is : List ι} {s : σ} (h : (J.undoAll is s).error = none) :
    J.undoAll (i :: is) s =
      ⟨(J.undo i (J.undoAll is s).state).item :: (J.undoAll is s).item,
        (J.undo i (J.undoAll is s).state).state, (J.undo i (J.undoAll is s).state).error⟩ := by
  simp only [Jobs.undoAll, h]

/-- A transaction is done, or its items are undone. -/
theorem Jobs.transact_cases (J : Jobs ι σ ε) (commit : σ → σ × Option ε) (is : List ι) (s : σ) :
    ((J.actAll is s).error = none ∧ (commit (J.actAll is s).state).2 = none ∧
        J.transact commit is s =
          ⟨(J.actAll is s).item, (commit (J.actAll is s).state).1, none⟩) ∨
      ∃ t e, J.transact commit is s = J.abort (J.actAll is s).item t e ∧
        (t = (J.actAll is s).state ∨
          t = (commit (J.actAll is s).state).1 ∧ (commit (J.actAll is s).state).2 = some e) := by
  rw [Jobs.transact]
  cases hact : (J.actAll is s).error with
  | some e => exact Or.inr ⟨_, e, rfl, Or.inl rfl⟩
  | none =>
    rcases hcommit : commit (J.actAll is s).state with ⟨s', _ | e⟩
    · exact Or.inl ⟨rfl, rfl, rfl⟩
    · exact Or.inr ⟨s', e, rfl, Or.inr ⟨rfl, rfl⟩⟩

/-- What the steps do not change of an item. -/
theorem Jobs.actAll_map {β : Type} {f : ι → β} (h : ∀ i s, f (J.act i s).item = f i) (is : List ι)
    (s : σ) : (J.actAll is s).item.map f = is.map f := by
  induction is generalizing s with
  | nil => rfl
  | cons i is ih =>
    cases hact : (J.act i s).error with
    | some e =>
      rw [Jobs.actAll_cons_failed hact]
      simp only [List.map_cons, h]
    | none =>
      rw [Jobs.actAll_cons hact]
      simp only [List.map_cons, h, ih]

theorem Jobs.undoAll_map {β : Type} {f : ι → β} (h : ∀ i s, f (J.undo i s).item = f i) (is : List ι)
    (s : σ) : (J.undoAll is s).item.map f = is.map f := by
  induction is with
  | nil => rfl
  | cons i is ih =>
    cases hundo : (J.undoAll is s).error with
    | some e =>
      rw [Jobs.undoAll_cons_failed hundo]
      simp only [List.map_cons, ih]
    | none =>
      rw [Jobs.undoAll_cons hundo]
      simp only [List.map_cons, h, ih]

/-- An error while items are undone is one of an item. -/
theorem Jobs.undoAll_error {is : List ι} {s : σ} {e : ε} (h : (J.undoAll is s).error = some e) :
    ∃ i ∈ is, ∃ t, (J.undo i t).error = some e := by
  induction is with
  | nil => cases h
  | cons i is ih =>
    cases hundo : (J.undoAll is s).error with
    | some e' =>
      rw [Jobs.undoAll_cons_failed hundo] at h
      obtain ⟨j, hj, hfailed⟩ := ih (hundo.trans h)
      exact ⟨j, List.mem_cons_of_mem i hj, hfailed⟩
    | none =>
      rw [Jobs.undoAll_cons hundo] at h
      exact ⟨i, List.mem_cons_self, _, h⟩

/-- What the items are after they are undone without an error. -/
theorem Jobs.undoAll_item {Q : ι → Prop} {f : ι → ι}
    (h : ∀ {i s}, Q i → (J.undo i s).error = none → (J.undo i s).item = f i) {is : List ι} {s : σ}
    (hQ : ∀ i ∈ is, Q i) (hok : (J.undoAll is s).error = none) :
    (J.undoAll is s).item = is.map f := by
  induction is with
  | nil => rfl
  | cons i is ih =>
    cases hundo : (J.undoAll is s).error with
    | some e =>
      rw [Jobs.undoAll_cons_failed hundo] at hok
      cases hok
    | none =>
      rw [Jobs.undoAll_cons hundo] at hok ⊢
      rw [h (hQ i List.mem_cons_self) hok, ih (fun j hj => hQ j (List.mem_cons_of_mem i hj)) hundo,
        List.map_cons]

/-! ## Section 2: What is kept -/

/-- Each step keeps `S` of the state and `I` of every item. -/
structure Jobs.Keeps (J : Jobs ι σ ε) (S : σ → Prop) (I : ι → σ → Prop) : Prop where
  act : ∀ {i s}, S s → I i s → S (J.act i s).state ∧ I (J.act i s).item (J.act i s).state
  act_other : ∀ {i s} (j), I j s → I j (J.act i s).state
  undo : ∀ {i s}, S s → I i s → S (J.undo i s).state ∧ I (J.undo i s).item (J.undo i s).state
  undo_other : ∀ {i s} (j), I j s → I j (J.undo i s).state

section Kept

variable {S : σ → Prop} {I : ι → σ → Prop}

theorem Jobs.Keeps.actAll_other (h : J.Keeps S I) {j : ι} (is : List ι) {s : σ} (hj : I j s) :
    I j (J.actAll is s).state := by
  induction is generalizing s with
  | nil => exact hj
  | cons i is ih =>
    cases hact : (J.act i s).error with
    | some e =>
      rw [Jobs.actAll_cons_failed hact]
      exact h.act_other j hj
    | none =>
      rw [Jobs.actAll_cons hact]
      exact ih (h.act_other j hj)

theorem Jobs.Keeps.actAll (h : J.Keeps S I) {is : List ι} {s : σ} (hS : S s)
    (hI : ∀ i ∈ is, I i s) :
    S (J.actAll is s).state ∧ ∀ i ∈ (J.actAll is s).item, I i (J.actAll is s).state := by
  induction is generalizing s with
  | nil => exact ⟨hS, hI⟩
  | cons i is ih =>
    obtain ⟨hS', hi⟩ := h.act hS (hI i List.mem_cons_self)
    have hrest : ∀ j ∈ is, I j (J.act i s).state :=
      fun j hj => h.act_other j (hI j (List.mem_cons_of_mem i hj))
    cases hact : (J.act i s).error with
    | some e =>
      rw [Jobs.actAll_cons_failed hact]
      exact ⟨hS', List.forall_mem_cons.mpr ⟨hi, hrest⟩⟩
    | none =>
      rw [Jobs.actAll_cons hact]
      obtain ⟨hS'', hall⟩ := ih hS' hrest
      exact ⟨hS'', List.forall_mem_cons.mpr ⟨h.actAll_other is hi, hall⟩⟩

theorem Jobs.Keeps.undoAll_other (h : J.Keeps S I) {j : ι} (is : List ι) {s : σ} (hj : I j s) :
    I j (J.undoAll is s).state := by
  induction is with
  | nil => exact hj
  | cons i is ih =>
    cases hundo : (J.undoAll is s).error with
    | some e =>
      rw [Jobs.undoAll_cons_failed hundo]
      exact ih
    | none =>
      rw [Jobs.undoAll_cons hundo]
      exact h.undo_other j ih

theorem Jobs.Keeps.undoAll (h : J.Keeps S I) {is : List ι} {s : σ} (hS : S s)
    (hI : ∀ i ∈ is, I i s) :
    S (J.undoAll is s).state ∧ ∀ i ∈ (J.undoAll is s).item, I i (J.undoAll is s).state := by
  induction is with
  | nil => exact ⟨hS, hI⟩
  | cons i is ih =>
    obtain ⟨hS', hall⟩ := ih fun j hj => hI j (List.mem_cons_of_mem i hj)
    have hi : I i (J.undoAll is s).state := h.undoAll_other is (hI i List.mem_cons_self)
    cases hundo : (J.undoAll is s).error with
    | some e =>
      rw [Jobs.undoAll_cons_failed hundo]
      exact ⟨hS', List.forall_mem_cons.mpr ⟨hi, hall⟩⟩
    | none =>
      rw [Jobs.undoAll_cons hundo]
      obtain ⟨hS'', hi'⟩ := h.undo hS' hi
      exact ⟨hS'', List.forall_mem_cons.mpr ⟨hi', fun j hj => h.undo_other j (hall j hj)⟩⟩

end Kept

/-! ## Section 3: What is reached -/

/-- While `S` holds, an item that is done without an error has `P`, and the others keep it. -/
structure Jobs.Reaches (J : Jobs ι σ ε) (S : σ → Prop) (P : ι → σ → Prop) : Prop where
  state : ∀ {i s}, S s → S (J.act i s).state
  act : ∀ {i s}, S s → (J.act i s).error = none → P (J.act i s).item (J.act i s).state
  act_other : ∀ {i s} (j), P j s → P j (J.act i s).state

section Reached

variable {S : σ → Prop} {P : ι → σ → Prop}

theorem Jobs.Reaches.actAll_other (h : J.Reaches S P) {j : ι} (is : List ι) {s : σ} (hj : P j s) :
    P j (J.actAll is s).state := by
  induction is generalizing s with
  | nil => exact hj
  | cons i is ih =>
    cases hact : (J.act i s).error with
    | some e =>
      rw [Jobs.actAll_cons_failed hact]
      exact h.act_other j hj
    | none =>
      rw [Jobs.actAll_cons hact]
      exact ih (h.act_other j hj)

theorem Jobs.Reaches.actAll (h : J.Reaches S P) {is : List ι} {s : σ} (hS : S s)
    (hok : (J.actAll is s).error = none) :
    ∀ i ∈ (J.actAll is s).item, P i (J.actAll is s).state := by
  induction is generalizing s with
  | nil => exact fun i hi => absurd hi List.not_mem_nil
  | cons i is ih =>
    cases hact : (J.act i s).error with
    | some e =>
      rw [Jobs.actAll_cons_failed hact] at hok
      cases hok
    | none =>
      rw [Jobs.actAll_cons hact] at hok ⊢
      exact List.forall_mem_cons.mpr
        ⟨h.actAll_other is (h.act hS hact), ih (h.state hS) hok⟩

end Reached

/-! ## Section 4: What is restored -/

/-- `Agree is s t`: up to what the items `is` use for themselves, `t` is as `s`.  An item that was
done, or was not reached, and is undone without an error gives this back. -/
structure Jobs.Restores (J : Jobs ι σ ε) (S : σ → Prop) (New : ι → Prop)
    (Fit : ι → List ι → Prop) (Agree : List ι → σ → σ → Prop) : Prop where
  act : ∀ {i s}, S s → New i → S (J.act i s).state
  undone : ∀ {i is s t}, S s → New i → Fit i is → Agree is (J.act i s).state t →
    (J.undo (J.act i s).item t).error = none →
      Agree (i :: is) s (J.undo (J.act i s).item t).state
  untouched : ∀ {i is s t}, New i → Agree is s t → (J.undo i t).error = none →
    Agree (i :: is) s (J.undo i t).state

section Restored

variable {S : σ → Prop} {New : ι → Prop} {Fit : ι → List ι → Prop} {Agree : List ι → σ → σ → Prop}

/-- Items that were not reached are undone. -/
theorem Jobs.Restores.untouchedAll (h : J.Restores S New Fit Agree) {is : List ι}
    (hnew : ∀ i ∈ is, New i) {s t : σ} (hst : Agree [] s t) (hok : (J.undoAll is t).error = none) :
    Agree is s (J.undoAll is t).state := by
  induction is with
  | nil => exact hst
  | cons i is ih =>
    cases hundo : (J.undoAll is t).error with
    | some e =>
      rw [Jobs.undoAll_cons_failed hundo] at hok
      cases hok
    | none =>
      rw [Jobs.undoAll_cons hundo] at hok ⊢
      exact h.untouched (hnew i List.mem_cons_self)
        (ih (fun j hj => hnew j (List.mem_cons_of_mem i hj)) hundo) hok

/-- Undoing all items gives back the state that they were done on, whichever of them failed. -/
theorem Jobs.Restores.undoAll (h : J.Restores S New Fit Agree) {is : List ι}
    (hnew : ∀ i ∈ is, New i) (hfit : ∀ i rest, (i :: rest) <:+ is → Fit i rest) {s t : σ} (hS : S s)
    (hst : Agree [] (J.actAll is s).state t)
    (hok : (J.undoAll (J.actAll is s).item t).error = none) :
    Agree is s (J.undoAll (J.actAll is s).item t).state := by
  induction is generalizing s with
  | nil => exact hst
  | cons i is ih =>
    have hi := hnew i List.mem_cons_self
    have hnew' : ∀ j ∈ is, New j := fun j hj => hnew j (List.mem_cons_of_mem i hj)
    have hfit' : ∀ j rest, (j :: rest) <:+ is → Fit j rest :=
      fun j rest hsuf => hfit j rest (hsuf.trans (List.suffix_cons i is))
    have hhead : Fit i is := hfit i is List.suffix_rfl
    cases hact : (J.act i s).error with
    | some e =>
      rw [Jobs.actAll_cons_failed hact] at hst hok ⊢
      cases hundo : (J.undoAll is t).error with
      | some e' =>
        rw [Jobs.undoAll_cons_failed hundo] at hok
        cases hok
      | none =>
        rw [Jobs.undoAll_cons hundo] at hok ⊢
        exact h.undone hS hi hhead (h.untouchedAll hnew' hst hundo) hok
    | none =>
      rw [Jobs.actAll_cons hact] at hst hok ⊢
      cases hundo : (J.undoAll (J.actAll is (J.act i s).state).item t).error with
      | some e' =>
        rw [Jobs.undoAll_cons_failed hundo] at hok
        cases hok
      | none =>
        rw [Jobs.undoAll_cons hundo] at hok ⊢
        exact h.undone hS hi hhead (ih hnew' hfit' (h.act hS hi) hst hundo) hok

end Restored

end Udroid.Unix
