import Mathlib.Data.List.Basic

/-!
# Runs of a partial transition function

A run folds a list of calls over a state. A call may be undefined in a state (`none`): that is
where the modelled program leaves the behaviour its language defines. `Guarded` says that every
call of a run meets a condition on the state it is made in, and `Guarded.run_invariant` turns
what one guarded call preserves into what every guarded run preserves, together with the fact
that such a run is defined to its end.
-/

namespace OS537.Run

variable {State Call : Type*}

/-- The state after the calls of the list, in order. -/
def run (step : State → Call → Option State) : State → List Call → Option State
  | state, [] => some state
  | state, call :: rest => (step state call).bind fun next ↦ run step next rest

/-- Every call of the run meets `ok` in the state in which it is made. -/
def Guarded (step : State → Call → Option State) (ok : State → Call → Prop) :
    State → List Call → Prop
  | _, [] => True
  | state, call :: rest =>
      ok state call ∧ ∀ next, step state call = some next → Guarded step ok next rest

/-- The number of calls of the run that are made in a state in which they count. -/
def tally (step : State → Call → Option State) (counts : State → Call → Bool) :
    State → List Call → ℕ
  | _, [] => 0
  | state, call :: rest =>
    match step state call with
    | none => 0
    | some next => (if counts state call then 1 else 0) + tally step counts next rest

variable {step : State → Call → Option State} {ok : State → Call → Prop}

theorem tally_cons {counts : State → Call → Bool} {state next : State} {call : Call}
    (rest : List Call) (h : step state call = some next) :
    tally step counts state (call :: rest) =
      (if counts state call then 1 else 0) + tally step counts next rest := by
  rw [tally, h]

/-- A condition that can be tested can be tested along a run. -/
instance decidableGuarded [∀ state call, Decidable (ok state call)] :
    (state : State) → (calls : List Call) → Decidable (Guarded step ok state calls)
  | _, [] => isTrue trivial
  | state, call :: rest =>
    match hstep : step state call with
    | none => decidable_of_iff (ok state call) (by simp [Guarded, hstep])
    | some next =>
      have := decidableGuarded next rest
      decidable_of_iff (ok state call ∧ Guarded step ok next rest) (by simp [Guarded, hstep])

@[simp]
theorem run_nil (state : State) : run step state [] = some state := rfl

theorem run_cons_of_step {state next : State} {call : Call} (rest : List Call)
    (h : step state call = some next) : run step state (call :: rest) = run step next rest := by
  rw [run, h, Option.bind_some]

theorem guarded_cons_iff {state next : State} {call : Call} (rest : List Call)
    (h : step state call = some next) :
    Guarded step ok state (call :: rest) ↔ ok state call ∧ Guarded step ok next rest := by
  simp [Guarded, h]

theorem run_append (state : State) (first second : List Call) :
    run step state (first ++ second) = (run step state first).bind fun middle ↦
      run step middle second := by
  induction first generalizing state with
  | nil => rfl
  | cons call rest ih =>
    rw [List.cons_append, run, run, Option.bind_assoc]
    congr 1
    funext next
    exact ih next

/-- The invariant rule: one guarded call is defined and keeps the invariant, so every guarded
run is defined and ends in a state with the invariant. -/
theorem Guarded.run_invariant {invariant : State → Prop}
    (hstep : ∀ state call, invariant state → ok state call →
      ∃ next, step state call = some next ∧ invariant next)
    {state : State} {calls : List Call} (hinit : invariant state)
    (hguarded : Guarded step ok state calls) :
    ∃ final, run step state calls = some final ∧ invariant final := by
  induction calls generalizing state with
  | nil => exact ⟨state, rfl, hinit⟩
  | cons call rest ih =>
    obtain ⟨next, hnext, hinvariant⟩ := hstep state call hinit hguarded.1
    obtain ⟨final, hfinal, hlast⟩ := ih hinvariant (hguarded.2 next hnext)
    exact ⟨final, (run_cons_of_step rest hnext).trans hfinal, hlast⟩

/-- The rule for runs that may stop early: whatever state a guarded run does reach has the
invariant. -/
theorem Guarded.invariant_of_run {invariant : State → Prop}
    (hstep : ∀ state call next, invariant state → ok state call →
      step state call = some next → invariant next)
    {state final : State} {calls : List Call} (hinit : invariant state)
    (hguarded : Guarded step ok state calls) (hrun : run step state calls = some final) :
    invariant final := by
  induction calls generalizing state with
  | nil =>
    cases Option.some.inj hrun
    exact hinit
  | cons call rest ih =>
    obtain ⟨next, hnext, hrest⟩ := Option.bind_eq_some_iff.mp hrun
    exact ih (hstep state call next hinit hguarded.1 hnext) (hguarded.2 next hnext) hrest

/-- The rule for an invariant that every call keeps. -/
theorem invariant_of_run {invariant : State → Prop}
    (hstep : ∀ state call next, invariant state → step state call = some next → invariant next)
    {state final : State} (calls : List Call) (hinit : invariant state)
    (hrun : run step state calls = some final) : invariant final := by
  induction calls generalizing state with
  | nil =>
    cases Option.some.inj hrun
    exact hinit
  | cons call rest ih =>
    obtain ⟨next, hnext, hrest⟩ := Option.bind_eq_some_iff.mp hrun
    exact ih (hstep state call next hinit hnext) hrest

/-- The rule for what a call does: along a guarded run, every call meets what the invariant and
the guard give. -/
theorem Guarded.mono_of_invariant {invariant : State → Prop} {good : State → Call → Prop}
    (hstep : ∀ state call next, invariant state → ok state call →
      step state call = some next → invariant next)
    (hgood : ∀ state call, invariant state → ok state call → good state call)
    {state : State} {calls : List Call} (hinit : invariant state)
    (hguarded : Guarded step ok state calls) : Guarded step good state calls := by
  induction calls generalizing state with
  | nil => trivial
  | cons call rest ih =>
    refine ⟨hgood state call hinit hguarded.1, fun next hnext ↦ ?_⟩
    exact ih (hstep state call next hinit hguarded.1 hnext) (hguarded.2 next hnext)

theorem Guarded.mono {good : State → Call → Prop}
    (hgood : ∀ state call, ok state call → good state call) {state : State} {calls : List Call}
    (hguarded : Guarded step ok state calls) : Guarded step good state calls :=
  hguarded.mono_of_invariant (fun _ _ _ (_ : True) _ _ ↦ trivial)
    (fun state call _ h ↦ hgood state call h) trivial

theorem Guarded.and {good : State → Call → Prop} {state : State} {calls : List Call}
    (h : Guarded step ok state calls) (h' : Guarded step good state calls) :
    Guarded step (fun state call ↦ ok state call ∧ good state call) state calls := by
  induction calls generalizing state with
  | nil => trivial
  | cons call rest ih =>
    exact ⟨⟨h.1, h'.1⟩, fun next hnext ↦ ih (h.2 next hnext) (h'.2 next hnext)⟩

theorem Guarded.append {state : State} {first second : List Call}
    (hfirst : Guarded step ok state first)
    (hsecond : ∀ middle, run step state first = some middle → Guarded step ok middle second) :
    Guarded step ok state (first ++ second) := by
  induction first generalizing state with
  | nil => exact hsecond state rfl
  | cons call rest ih =>
    refine ⟨hfirst.1, fun next hnext ↦ ih (hfirst.2 next hnext) fun middle hmiddle ↦ ?_⟩
    exact hsecond middle ((run_cons_of_step rest hnext).trans hmiddle)

theorem Guarded.of_append {state middle : State} {first second : List Call}
    (hguarded : Guarded step ok state (first ++ second))
    (hrun : run step state first = some middle) :
    Guarded step ok state first ∧ Guarded step ok middle second := by
  induction first generalizing state with
  | nil =>
    cases Option.some.inj hrun
    exact ⟨trivial, hguarded⟩
  | cons call rest ih =>
    obtain ⟨next, hnext, hrest⟩ := Option.bind_eq_some_iff.mp hrun
    have hparts := ih (hguarded.2 next hnext) hrest
    refine ⟨⟨hguarded.1, fun other hother ↦ ?_⟩, hparts.2⟩
    cases hnext.symm.trans hother
    exact hparts.1

end OS537.Run
