import Mathlib.Control.Monad.Basic

/-!
# Running stateful code

C functions that change a state and may leave the defined behaviour of the language are code in
the state monad over `Option`: `none` is undefined behaviour. A run is taken apart at each bind,
forwards when the first part is known and backwards when the whole run is.
-/

namespace OS537.Code

variable {State α β : Type} {state next : State}

theorem bind_run {code : StateT State Option α} {rest : α → StateT State Option β} {value : α}
    (h : code state = some (value, next)) : (code >>= rest) state = rest value next := by
  simp only [bind, StateT.bind, h, Option.bind_some]

theorem bind_run_none {code : StateT State Option α} {rest : α → StateT State Option β}
    (h : code state = none) : (code >>= rest) state = none := by
  simp only [bind, StateT.bind, h, Option.bind_none]

theorem bind_eq_some {code : StateT State Option α} {rest : α → StateT State Option β}
    {result : β × State} (h : (code >>= rest) state = some result) :
    ∃ value middle, code state = some (value, middle) ∧ rest value middle = some result := by
  cases hcode : code state with
  | none => simp [bind_run_none hcode] at h
  | some pair => exact ⟨pair.1, pair.2, rfl, by rwa [bind_run hcode] at h⟩

@[simp]
theorem pure_run (value : α) :
    (pure value : StateT State Option α) state = some (value, state) := rfl

theorem get_run : (get : StateT State Option State) state = some (state, state) := rfl

/-! ## Pre- and postconditions -/

/-- Partial correctness: a run from a state with `pre` that stays defined ends with `post`. -/
def Triple (pre : State → Prop) (code : StateT State Option α) (post : α → State → Prop) : Prop :=
  ∀ ⦃state⦄, pre state → ∀ ⦃value next⦄, code state = some (value, next) → post value next

variable {pre : State → Prop} {post : α → State → Prop} {last : β → State → Prop}

theorem Triple.pure {value : α} (h : ∀ state, pre state → post value state) :
    Triple pre (pure value) post := by
  rintro state hpre _ _ ⟨⟩
  exact h state hpre

theorem Triple.bind {code : StateT State Option α} {rest : α → StateT State Option β}
    (hcode : Triple pre code post) (hrest : ∀ value, Triple (post value) (rest value) last) :
    Triple pre (code >>= rest) last := by
  intro state hpre value next h
  obtain ⟨result, middle, hmiddle, hnext⟩ := bind_eq_some h
  exact hrest result (hcode hpre hmiddle) hnext

theorem Triple.ite {condition : Prop} [Decidable condition] {code other : StateT State Option α}
    (hcode : Triple pre code post) (hother : Triple pre other post) :
    Triple pre (if condition then code else other) post := by
  split
  · exact hcode
  · exact hother

/-- A part of the precondition that does not depend on the state. -/
theorem Triple.of_and {condition : Prop} {code : StateT State Option α}
    (h : condition → Triple pre code post) :
    Triple (fun state ↦ pre state ∧ condition) code post :=
  fun _ hpre ↦ h hpre.2 hpre.1

/-! ## Invariants -/

/-- A run from a state with the invariant that stays defined ends in a state with the invariant. -/
def Maintains (invariant : State → Prop) (code : StateT State Option α) : Prop :=
  Triple invariant code fun _ ↦ invariant

variable {invariant : State → Prop}

theorem Maintains.pure (value : α) :
    Maintains invariant (Pure.pure value : StateT State Option α) :=
  Triple.pure fun _ h ↦ h

theorem Maintains.get : Maintains invariant (MonadState.get : StateT State Option State) := by
  rintro state h _ _ ⟨⟩
  exact h

theorem Maintains.undefined : Maintains invariant (fun _ ↦ none : StateT State Option α) := by
  rintro state _ _ _ ⟨⟩

theorem Maintains.bind {code : StateT State Option α} {rest : α → StateT State Option β}
    (hcode : Maintains invariant code) (hrest : ∀ value, Maintains invariant (rest value)) :
    Maintains invariant (code >>= rest) :=
  Triple.bind hcode hrest

theorem Maintains.ite {condition : Prop} [Decidable condition]
    {code other : StateT State Option α} (hcode : Maintains invariant code)
    (hother : Maintains invariant other) :
    Maintains invariant (if condition then code else other) :=
  Triple.ite hcode hother

end OS537.Code
