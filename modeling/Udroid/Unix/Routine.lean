import Mathlib

/-!
# Routines that may raise

A routine ends with a value or with an error, and leaves a state either way: what was done before
an error is not taken back.

- `Routine.Meets`: how the end of a routine is related to the state it began in.
- `Routine.Meets.spec`, `Routine.Meets.of_spec`: the same as a triple, and back.
- `Routine.within`: a routine over a part of a state.
- `Routine.both`: two routines that end before the error of either is raised.
- `Routine.Keeps`: an invariant, whether a routine raises or not.
-/

namespace Udroid.Unix

open Std.Do

set_option mvcgen.warning false

/-- It ends with a value or an error. -/
abbrev Routine (σ ε α : Type) := EStateM ε σ α

namespace Routine

variable {σ τ ε α β : Type}

/-! ## Section 1: Contracts -/

/-- The state a routine begins in, what it ends with and the state it leaves are related, one way
when it returns and another way when it raises. -/
def Meets (m : Routine σ ε α) (Q : σ → α → σ → Prop) (E : σ → ε → σ → Prop) : Prop :=
  ∀ s, match m.run s with
    | .ok a s' => Q s a s'
    | .error e s' => E s e s'

variable {m : Routine σ ε α} {Q Q' : σ → α → σ → Prop} {E E' : σ → ε → σ → Prop}

theorem Meets.ok (h : m.Meets Q E) {s s' : σ} {a : α} (hrun : m.run s = .ok a s') : Q s a s' := by
  have hs := h s
  rwa [hrun] at hs

theorem Meets.error (h : m.Meets Q E) {s s' : σ} {e : ε} (hrun : m.run s = .error e s') :
    E s e s' := by
  have hs := h s
  rwa [hrun] at hs

theorem Meets.mono (h : m.Meets Q E) (hQ : ∀ s a s', Q s a s' → Q' s a s')
    (hE : ∀ s e s', E s e s' → E' s e s') : m.Meets Q' E' := by
  intro s
  cases hrun : m.run s with
  | ok a s' => exact hQ s a s' (h.ok hrun)
  | error e s' => exact hE s e s' (h.error hrun)

/-- A contract as a triple. -/
theorem Meets.spec (h : m.Meets Q E) (s₀ : σ) :
    ⦃fun s => ⌜s = s₀⌝⦄ m ⦃post⟨fun a s => ⌜Q s₀ a s⌝, fun e s => ⌜E s₀ e s⌝⟩⦄ := by
  intro s hs
  obtain rfl : s = s₀ := hs
  simp only [wp, PredTrans.apply]
  split
  · rename_i hrun
    exact h.ok hrun
  · rename_i hrun
    exact h.error hrun

/-- A triple from every state is a contract. -/
theorem Meets.of_spec
    (h : ∀ s₀, ⦃fun s => ⌜s = s₀⌝⦄ m ⦃post⟨fun a s => ⌜Q s₀ a s⌝, fun e s => ⌜E s₀ e s⌝⟩⦄) :
    m.Meets Q E := by
  intro s
  have hs := h s s rfl
  simp only [wp, PredTrans.apply] at hs
  split at hs
  · rename_i hrun
    rw [hrun]
    exact hs
  · rename_i hrun
    rw [hrun]
    exact hs

/-! ## Section 2: Parts of a state -/

/-- A routine over a part of a state. -/
def within (part : τ → σ) (put : σ → τ → τ) (m : Routine σ ε α) : Routine τ ε α := fun t =>
  match m.run (part t) with
  | .ok a s => .ok a (put s t)
  | .error e s => .error e (put s t)

/-- The rest of the state is as it was. -/
theorem Meets.within (h : m.Meets Q E) (part : τ → σ) (put : σ → τ → τ) :
    (m.within part put).Meets (fun t a t' => ∃ s, t' = put s t ∧ Q (part t) a s)
      (fun t e t' => ∃ s, t' = put s t ∧ E (part t) e s) := by
  intro t
  cases hrun : m.run (part t) with
  | ok a s =>
    have heq : (m.within part put).run t = .ok a (put s t) := by
      rw [EStateM.run, Routine.within, hrun]
    rw [heq]
    exact ⟨s, rfl, h.ok hrun⟩
  | error e s =>
    have heq : (m.within part put).run t = .error e (put s t) := by
      rw [EStateM.run, Routine.within, hrun]
    rw [heq]
    exact ⟨s, rfl, h.error hrun⟩

/-! ## Section 3: Two routines -/

/-- Both end, the error of the first or else of the second is raised then. -/
def both (m : Routine σ ε α) (n : Routine σ ε β) : Routine σ ε (α × β) := fun s =>
  match m.run s with
  | .ok a s =>
      match n.run s with
      | .ok b s => .ok (a, b) s
      | .error e s => .error e s
  | .error e s =>
      match n.run s with
      | .ok _ s => .error e s
      | .error _ s => .error e s

/-- Both end, whether the first raises or not. -/
theorem Meets.both {n : Routine σ ε β} {R : σ → β → σ → Prop} {F : σ → ε → σ → Prop}
    (h : m.Meets Q E) (h' : n.Meets R F) :
    (m.both n).Meets (fun s r s' => ∃ t, Q s r.1 t ∧ R t r.2 s')
      (fun s e s' => ∃ t, (∃ a, Q s a t ∧ F t e s') ∨
        (E s e t ∧ ((∃ b, R t b s') ∨ ∃ e', F t e' s'))) := by
  intro s
  cases hrun : m.run s with
  | ok a t =>
    cases hrun' : n.run t with
    | ok b s' =>
      have heq : (m.both n).run s = .ok (a, b) s' := by
        rw [EStateM.run, Routine.both, hrun]
        simp only [hrun']
      rw [heq]
      exact ⟨t, h.ok hrun, h'.ok hrun'⟩
    | error e s' =>
      have heq : (m.both n).run s = .error e s' := by
        rw [EStateM.run, Routine.both, hrun]
        simp only [hrun']
      rw [heq]
      exact ⟨t, Or.inl ⟨a, h.ok hrun, h'.error hrun'⟩⟩
  | error e t =>
    cases hrun' : n.run t with
    | ok b s' =>
      have heq : (m.both n).run s = .error e s' := by
        rw [EStateM.run, Routine.both, hrun]
        simp only [hrun']
      rw [heq]
      exact ⟨t, Or.inr ⟨h.error hrun, Or.inl ⟨b, h'.ok hrun'⟩⟩⟩
    | error e' s' =>
      have heq : (m.both n).run s = .error e s' := by
        rw [EStateM.run, Routine.both, hrun]
        simp only [hrun']
      rw [heq]
      exact ⟨t, Or.inr ⟨h.error hrun, Or.inr ⟨e', h'.error hrun'⟩⟩⟩

/-! ## Section 4: Invariants -/

/-- The state that a routine leaves, whether it raises or not. -/
def after (m : Routine σ ε α) (s : σ) : σ :=
  match m.run s with
  | .ok _ s' => s'
  | .error _ s' => s'

theorem Meets.after (h : m.Meets Q E) {s : σ} {P : σ → Prop} (hQ : ∀ a s', Q s a s' → P s')
    (hE : ∀ e s', E s e s' → P s') : P (m.after s) := by
  unfold Routine.after
  cases hrun : m.run s with
  | ok a s' => exact hQ a s' (h.ok hrun)
  | error e s' => exact hE e s' (h.error hrun)

/-- An invariant is kept, whether the routine raises or not. -/
abbrev Keeps (m : Routine σ ε α) (I : σ → Prop) : Prop :=
  m.Meets (fun s _ s' => I s → I s') (fun s _ s' => I s → I s')

theorem Keeps.after {I : σ → Prop} (h : m.Keeps I) {s : σ} (hs : I s) : I (m.after s) :=
  Meets.after h (fun _ _ hI => hI hs) fun _ _ hI => hI hs

end Routine

end Udroid.Unix
