import OS537.Base.Run
import OS537.Stride.Window

/-!
# Rounds of the scheduler and their count

A round of the scheduler, in every state of the table and with every value of `current`, and the
count of its rounds that `sys_getusage` returns. The count stands in the table entry, and
`allocproc` leaves it as the last process of the entry had it.
-/

namespace OS537.Stride

open Bytes Threads Run

variable {system next : System} {slot np s : ℕ} {call : Call}

/-! ## One round -/

/-- The round runs the first `RUNNABLE` process with the least pass and adds its stride to its pass
only. -/
def System.Runs (system next : System) (c : ℕ) : Prop :=
  system.FirstLeast nproc c ∧ next.running = some c ∧ (next.proc c).state = .running ∧
    (next.proc c).pass = (system.proc c).pass + (system.proc c).stride ∧
    ∀ p, p ≠ c → next.proc p = system.proc p

/-- Nothing is `RUNNABLE`, and the round runs nothing. -/
def System.Idles (system next : System) : Prop :=
  (∀ p < nproc, (system.proc p).state ≠ .runnable) ∧ next.running = none ∧ next.proc = system.proc

/-- The scheduler keeps to the table exactly if there is a process to run: else the process of the
last round is run again, in whatever state it is. -/
theorem dispatch_runs_iff (hidle : system.running = none)
    (hpass : ∀ p < nproc, 0 ≤ (system.proc p).pass.toInt) :
    (∃ next, system.step .dispatch = some next ∧
        ((∃ c, system.Runs next c) ∨ system.Idles next)) ↔
      ∃ p < nproc, (system.proc p).state = .runnable := by
  have hstep : system.step .dispatch = system.chosen.map system.dispatch :=
    System.step.eq_1 system hidle
  constructor
  · rintro ⟨next, hnext, ⟨c, hleast, -⟩ | ⟨hnone, hrunning, -⟩⟩
    · exact ⟨c, hleast.lt, hleast.runnable⟩
    · -- whatever is chosen, it is running after the round
      obtain ⟨c, -, rfl⟩ := step_dispatch hnext
      cases hrunning
  · rintro ⟨p, hp, hrunnable⟩
    rcases scan_firstLeast fun p hp _ ↦ hpass p hp with ⟨hnone, -⟩ | ⟨c, hleast, hscan⟩
    · exact absurd hrunnable (hnone p hp)
    · have hchosen : system.chosen = some c := by
        unfold System.chosen
        rw [hscan]
      refine ⟨system.dispatch c, by rw [hstep, hchosen, Option.map_some],
        Or.inl ⟨c, hleast, rfl, ?_⟩⟩
      refine ⟨?_, ?_, fun p hp ↦ ?_⟩
      · rw [dispatch_proc, if_pos rfl]
      · rw [dispatch_proc, if_pos rfl]
      · rw [dispatch_proc, if_neg hp]

theorem userinit_dispatch_runs :
    ∃ next, userinit.step .dispatch = some next ∧
      ((∃ c, userinit.Runs next c) ∨ userinit.Idles next) :=
  (dispatch_runs_iff rfl (by decide)).mpr ⟨0, by decide, by decide⟩

/-- The first process has gone to sleep. -/
def allAsleep : System := (run System.step userinit [.dispatch, .sleep 0]).getD userinit

/-- A sleeping process is run. -/
theorem dispatch_sleeping :
    allAsleep.running = none ∧ (∀ p < nproc, 0 ≤ (allAsleep.proc p).pass.toInt) ∧
      (allAsleep.proc 0).state = .sleeping ∧
      ¬ ∃ next, allAsleep.step .dispatch = some next ∧
        ((∃ c, allAsleep.Runs next c) ∨ allAsleep.Idles next) := by
  refine ⟨by decide +kernel, by decide +kernel, by decide +kernel, ?_⟩
  have hnone : ∀ p < nproc, (allAsleep.proc p).state ≠ .runnable := by decide +kernel
  have hstep : (allAsleep.step .dispatch).map System.running = some (some 0) := by decide +kernel
  rintro ⟨next, hnext, ⟨c, hleast, -⟩ | ⟨-, hrunning, -⟩⟩
  · exact hnone c hleast.lt hleast.runnable
  · rw [hnext, Option.map_some, hrunning] at hstep
    cases hstep

/-! ## The count in the table -/

/-- `sys_getusage`, called by the process of the entry. -/
def System.getusage (system : System) (slot : ℕ) : Word := (system.proc slot).usage

theorem usage_set (entry : Proc) (h : entry.usage = (system.proc slot).usage) :
    ((system.set slot entry).proc s).usage = (system.proc s).usage := by
  rw [set_proc]
  split
  next hs => rw [hs, h]
  next => rfl

theorem usage_wakeup1 (system : System) (chan : Option Chan) (s : ℕ) :
    ((system.wakeup1 chan).proc s).usage = (system.proc s).usage := by
  unfold System.wakeup1
  dsimp only
  split
  · rfl
  · rfl

theorem usage_reparent (system : System) (slot s : ℕ) :
    ((system.reparent slot).proc s).usage = (system.proc s).usage := by
  unfold System.reparent
  dsimp only
  split
  · rfl
  · rfl

theorem usage_passChildren (system : System) (slot s : ℕ) :
    ((system.passChildren slot).proc s).usage = (system.proc s).usage := by
  unfold System.passChildren
  dsimp only
  split
  · exact (usage_wakeup1 _ _ s).trans (usage_reparent system slot s)
  · exact usage_reparent system slot s

theorem usage_exit (system : System) (slot s : ℕ) :
    ((system.exit slot).proc s).usage = (system.proc s).usage := by
  let woken := system.wakeup1 ((system.proc slot).parent.map Chan.proc)
  calc ((system.exit slot).proc s).usage
      = ((woken.passChildren slot).proc s).usage := usage_set _ rfl
    _ = (woken.proc s).usage := usage_passChildren woken slot s
    _ = (system.proc s).usage := usage_wakeup1 system _ s

theorem usage_wait (system : System) (slot s : ℕ) :
    ((system.wait slot).proc s).usage = (system.proc s).usage := by
  unfold System.wait
  split
  · exact usage_set _ rfl
  · split
    · rfl
    · exact usage_set _ rfl

theorem usage_kill (system : System) (pid : Word) (s : ℕ) :
    ((system.kill pid).proc s).usage = (system.proc s).usage := by
  unfold System.kill
  split
  · rfl
  · exact usage_set _ rfl

/-- Only the scheduler counts, and nothing takes a count back. -/
theorem usage_step (hcall : call ≠ .dispatch) (hstep : system.step call = some next) (s : ℕ) :
    (next.proc s).usage = (system.proc s).usage := by
  cases hrunning : system.running with
  | none =>
    cases call with
    | dispatch => exact absurd rfl hcall
    | wakeup chan =>
      cases hstep
      exact usage_wakeup1 system _ s
    | _ =>
      rw [System.step.eq_def, hrunning] at hstep
      cases hstep
  | some slot =>
    rw [System.step.eq_def, hrunning] at hstep
    cases call with
    | dispatch => exact absurd rfl hcall
    | allocproc =>
      cases hstep
      cases system.unusedSlot with
      | none => rfl
      | some np => exact usage_set _ rfl
    | settickets tix =>
      obtain ⟨-, hnext⟩ := Option.ite_none_left_eq_some.mp hstep
      cases hnext
      exact usage_set _ rfl
    | start np =>
      obtain ⟨-, hnext⟩ := Option.ite_none_right_eq_some.mp hstep
      cases hnext
      exact usage_set _ rfl
    | giveUp np =>
      obtain ⟨-, hnext⟩ := Option.ite_none_right_eq_some.mp hstep
      cases hnext
      exact usage_set _ rfl
    | yield =>
      cases hstep
      exact usage_set _ rfl
    | sleep addr =>
      cases hstep
      exact usage_set _ rfl
    | exit =>
      obtain ⟨-, hnext⟩ := Option.ite_none_left_eq_some.mp hstep
      cases hnext
      exact usage_exit system slot s
    | wait =>
      cases hstep
      exact usage_wait system slot s
    | kill pid =>
      cases hstep
      exact usage_kill system pid s
    | wakeup chan =>
      cases hstep
      exact usage_wakeup1 system _ s

/-! ## The count of a process -/

/-- How often the process of the entry has been dispatched after a step, if that was `count` before
it: the scheduler counts it, and `allocproc` makes a new process. -/
def recount (s : ℕ) (system : System) (count : ℕ) : Call → ℕ
  | .dispatch => if system.chosen = some s then count + 1 else count
  | .allocproc => if system.unusedSlot = some s then 0 else count
  | _ => count

/-- How often the process that has the entry at the end of the run was dispatched since `allocproc`
made it, or since the start of the run, with `count` times before. -/
def dispatchedSince (s : ℕ) : (count : ℕ) → System → List Call → ℕ
  | count, _, [] => count
  | count, system, call :: rest =>
    match system.step call with
    | none => count
    | some next => dispatchedSince s (recount s system count call) next rest

/-- `allocproc` takes an entry whose process was never dispatched, and the count of the process
that is run stays an `int`. -/
def Fresh (system : System) : Call → Prop
  | .dispatch => ∀ c ∈ system.chosen, (system.proc c).usage.toInt < 2 ^ 31 - 1
  | .allocproc => ∀ np ∈ system.unusedSlot, (system.proc np).usage = 0
  | _ => True

instance (system : System) : (call : Call) → Decidable (Fresh system call)
  | .dispatch => inferInstanceAs (Decidable (∀ c ∈ system.chosen, _ < _))
  | .allocproc => inferInstanceAs (Decidable (∀ np ∈ system.unusedSlot, _ = _))
  | .start _ | .giveUp _ | .settickets _ | .yield | .sleep _ | .exit | .wait | .kill _ |
      .wakeup _ => isTrue trivial

theorem succ_toInt {count : Word} (h : count.toInt < 2 ^ 31 - 1) :
    (count + 1).toInt = count.toInt + 1 := by
  have hlow := BitVec.le_toInt count
  have hone : (1 : Word).toInt = 1 := by decide
  rw [BitVec.toInt_add, hone]
  exact Int.bmod_eq_of_le (by omega) (by omega)

/-- Both counts go on by the same step. -/
theorem usage_step_recount {count : ℕ} (hcount : (system.proc s).usage.toInt = count)
    (hfresh : Fresh system call) (hstep : system.step call = some next) :
    (next.proc s).usage.toInt = recount s system count call := by
  by_cases hcall : call = .dispatch
  · subst hcall
    obtain ⟨c, hchosen, rfl⟩ := step_dispatch hstep
    rw [recount, hchosen, dispatch_proc]
    by_cases hs : s = c
    · subst hs
      have hlimit := hfresh s hchosen
      rw [if_pos rfl, if_pos rfl]
      dsimp only
      rw [succ_toInt hlimit, hcount]
      rfl
    · rw [if_neg hs, if_neg fun hc ↦ hs (Option.some.inj hc).symm, hcount]
  · rw [usage_step hcall hstep, hcount]
    cases call with
    | dispatch => exact absurd rfl hcall
    | allocproc =>
      rw [recount]
      split
      next hunused =>
        -- the entry that is taken has the count of a new process
        rw [hfresh s hunused] at hcount
        exact hcount.symm
      next => rfl
    | _ => rfl

theorem usage_run_dispatchedSince {count : ℕ} {final : System} {calls : List Call}
    (hcount : (system.proc s).usage.toInt = count) (hfresh : Guarded System.step Fresh system calls)
    (hrun : run System.step system calls = some final) :
    (final.proc s).usage.toInt = dispatchedSince s count system calls := by
  induction calls generalizing system count with
  | nil =>
    cases Option.some.inj hrun
    exact hcount
  | cons call rest ih =>
    obtain ⟨next, hnext, hrest⟩ := Option.bind_eq_some_iff.mp hrun
    rw [dispatchedSince, hnext]
    exact ih (usage_step_recount hcount hfresh.1 hnext) (hfresh.2 next hnext) hrest

/-- In every run from boot in which no entry of a process that has run is taken again, the scheduler
and `sys_getusage` agree. -/
theorem getusage_eq_dispatchedSince {calls : List Call} {final : System}
    (hfresh : Guarded System.step Fresh userinit calls)
    (hrun : run System.step userinit calls = some final) (slot : ℕ) :
    (final.getusage slot).toInt = dispatchedSince slot 0 userinit calls := by
  have hboot : (userinit.proc slot).usage = 0 := by
    unfold userinit
    dsimp only
    rw [Function.update_apply]
    split
    · rfl
    · rfl
  have hcount : (userinit.proc slot).usage.toInt = ((0 : ℕ) : ℤ) := by
    rw [hboot]
    rfl
  exact usage_run_dispatchedSince hcount hfresh hrun

/-- The first process starts a second one, and both run. -/
def twoProcesses : List Call :=
  [.dispatch, .allocproc, .start 1, .yield, .dispatch, .yield, .dispatch]

theorem twoProcesses_getusage :
    ∃ final, run System.step userinit twoProcesses = some final ∧
      ∀ slot, (final.getusage slot).toInt = dispatchedSince slot 0 userinit twoProcesses := by
  have hdefined : (run System.step userinit twoProcesses).isSome = true := by decide +kernel
  obtain ⟨final, hrun⟩ := Option.isSome_iff_exists.mp hdefined
  exact ⟨final, hrun, getusage_eq_dispatchedSince (by decide +kernel) hrun⟩

/-- The second process exits, and a third one is started in its entry. -/
def reusedEntry : List Call :=
  [.dispatch, .allocproc, .start 1, .yield, .dispatch, .exit, .dispatch, .wait, .allocproc,
    .start 1, .yield, .dispatch]

/-- The third process has been dispatched once, and is told twice. -/
theorem reusedEntry_getusage :
    ∃ final, run System.step userinit reusedEntry = some final ∧ final.running = some 1 ∧
      (final.getusage 1).toInt = 2 ∧ dispatchedSince 1 0 userinit reusedEntry = 1 := by
  have hvalues : (run System.step userinit reusedEntry).map (fun final ↦
      (final.running, (final.getusage 1).toInt)) = some (some 1, 2) := by decide +kernel
  obtain ⟨final, hrun, hvalue⟩ := Option.map_eq_some_iff.mp hvalues
  obtain ⟨hrunning, husage⟩ := Prod.mk.injEq _ _ _ _ ▸ hvalue
  exact ⟨final, hrun, hrunning, husage, by decide +kernel⟩

end OS537.Stride
