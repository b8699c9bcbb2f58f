import OS537.Stride.Scheduler
import OS537.Threads.Control

/-!
# What the scheduler chooses, and what other steps leave alone

The scan finds a process with the least pass, as long as no pass is negative. Between two rounds
of the scheduler no pass changes but that of an entry that `allocproc` takes, which was `UNUSED`.
-/

namespace OS537.Stride

open Bytes Threads

variable {system next : System} {slot np s : ℕ} {call : Call}

/-! ## The scan -/

theorem scan_skip {p : ℕ} (h : (system.proc p).state ≠ .runnable) :
    system.scan (p + 1) = system.scan p := by
  rw [System.scan]
  exact if_neg fun hboth ↦ h hboth.1

/-- Of the first `count` entries, `c` is the first `RUNNABLE` one that has the least pass. -/
structure System.FirstLeast (system : System) (count c : ℕ) : Prop where
  lt : c < count
  runnable : (system.proc c).state = .runnable
  least : ∀ p < count, (system.proc p).state = .runnable →
    (system.proc c).pass.toInt ≤ (system.proc p).pass.toInt
  first : ∀ p < c, (system.proc p).state = .runnable →
    (system.proc c).pass.toInt < (system.proc p).pass.toInt

/-- The next entry is not `RUNNABLE`, or its pass is not less. -/
theorem System.FirstLeast.keep {count c : ℕ} (h : system.FirstLeast count c)
    (hnext : (system.proc count).state = .runnable →
      (system.proc c).pass.toInt ≤ (system.proc count).pass.toInt) :
    system.FirstLeast (count + 1) c where
  lt := Nat.lt_succ_of_lt h.lt
  runnable := h.runnable
  least p hp hrunnable := by
    rcases Nat.lt_succ_iff_lt_or_eq.mp hp with hlt | rfl
    · exact h.least p hlt hrunnable
    · exact hnext hrunnable
  first := h.first

/-- The next entry has a pass that is less than all before it. -/
theorem firstLeast_succ {count : ℕ} (hrunnable : (system.proc count).state = .runnable)
    (hless : ∀ p < count, (system.proc p).state = .runnable →
      (system.proc count).pass.toInt < (system.proc p).pass.toInt) :
    system.FirstLeast (count + 1) count where
  lt := Nat.lt_succ_self count
  runnable := hrunnable
  least p hp hp' := by
    rcases Nat.lt_succ_iff_lt_or_eq.mp hp with hlt | rfl
    · exact (hless p hlt hp').le
    · exact le_rfl
  first := hless

/-- After `count` entries the scan has its initial values, or the first entry with the least
pass. -/
theorem scan_firstLeast {count : ℕ}
    (hpass : ∀ p < count, (system.proc p).state = .runnable → 0 ≤ (system.proc p).pass.toInt) :
    (∀ p < count, (system.proc p).state ≠ .runnable) ∧ system.scan count = (-1, system.current) ∨
      ∃ c, system.FirstLeast count c ∧ system.scan count = ((system.proc c).pass, some c) := by
  induction count with
  | zero =>
    left
    exact ⟨fun p hp ↦ absurd hp (Nat.not_lt_zero p), rfl⟩
  | succ count ih =>
    have hbefore := ih fun p hp ↦ hpass p (Nat.lt_succ_of_lt hp)
    by_cases hrunnable : (system.proc count).state = .runnable
    · rw [System.scan]
      right
      rcases hbefore with ⟨hnone, hscan⟩ | ⟨c, hleast, hscan⟩
      · rw [hscan]
        refine ⟨count, firstLeast_succ hrunnable fun p hp hp' ↦ absurd hp' (hnone p hp), ?_⟩
        exact if_pos ⟨hrunnable, Or.inl (by decide)⟩
      · have hnonneg := hpass c (Nat.lt_succ_of_lt hleast.lt) hleast.runnable
        rw [hscan]
        dsimp only
        by_cases hless : (system.proc count).pass.toInt < (system.proc c).pass.toInt
        · refine ⟨count, firstLeast_succ hrunnable fun p hp hp' ↦ ?_, ?_⟩
          · exact hless.trans_le (hleast.least p hp hp')
          · exact if_pos ⟨hrunnable, Or.inr hless⟩
        · refine ⟨c, hleast.keep fun _ ↦ not_lt.mp hless, ?_⟩
          exact if_neg fun hboth ↦ hboth.2.elim (not_lt.mpr hnonneg) hless
    · rw [scan_skip hrunnable]
      rcases hbefore with ⟨hnone, hscan⟩ | ⟨c, hleast, hscan⟩
      · refine Or.inl ⟨fun p hp ↦ ?_, hscan⟩
        rcases Nat.lt_succ_iff_lt_or_eq.mp hp with hlt | rfl
        · exact hnone p hlt
        · exact hrunnable
      · exact Or.inr ⟨c, hleast.keep fun hnext ↦ absurd hnext hrunnable, hscan⟩

theorem scan_spec {count : ℕ}
    (hpass : ∀ p < count, (system.proc p).state = .runnable → 0 ≤ (system.proc p).pass.toInt) :
    (∀ p < count, (system.proc p).state ≠ .runnable) ∧ system.scan count = (-1, system.current) ∨
      ∃ c < count, (system.proc c).state = .runnable ∧
        system.scan count = ((system.proc c).pass, some c) ∧
        ∀ p < count, (system.proc p).state = .runnable →
          (system.proc c).pass.toInt ≤ (system.proc p).pass.toInt := by
  rcases scan_firstLeast hpass with hnone | ⟨c, hleast, hscan⟩
  · exact Or.inl hnone
  · exact Or.inr ⟨c, hleast.lt, hleast.runnable, hscan, hleast.least⟩

/-- With a `RUNNABLE` process in the table, one with the least pass is chosen. -/
theorem chosen_spec
    (hpass : ∀ p < nproc, (system.proc p).state = .runnable → 0 ≤ (system.proc p).pass.toInt)
    (hs : s < nproc) (hrunnable : (system.proc s).state = .runnable) :
    ∃ c < nproc, system.chosen = some c ∧ (system.proc c).state = .runnable ∧
      ∀ p < nproc, (system.proc p).state = .runnable →
        (system.proc c).pass.toInt ≤ (system.proc p).pass.toInt := by
  rcases scan_spec hpass with ⟨hnone, -⟩ | ⟨c, hc, hstate, hscan, hleast⟩
  · exact absurd hrunnable (hnone s hs)
  · refine ⟨c, hc, ?_, hstate, hleast⟩
    unfold System.chosen
    rw [hscan]

/-! ## Steps without the scheduler -/

theorem set_proc (entry : Proc) :
    (system.set slot entry).proc s = if s = slot then entry else system.proc s :=
  Function.update_apply _ _ _ _

/-- Passes and strides stay, and no entry comes into use but that of the process that has the
processor. -/
structure Calm (next system : System) : Prop where
  pass : ∀ s, (next.proc s).pass = (system.proc s).pass
  stride : ∀ s, (next.proc s).stride = (system.proc s).stride
  used : ∀ s, (next.proc s).state ≠ .unused →
    (system.proc s).state ≠ .unused ∨ system.running = some s
  current : next.current = system.current
  running : ∀ s, next.running = some s → system.running = some s

theorem Calm.trans {first second third : System} (h : Calm first second) (h' : Calm second third)
    (hrunning : second.running = third.running) : Calm first third where
  pass s := (h.pass s).trans (h'.pass s)
  stride s := (h.stride s).trans (h'.stride s)
  used s hs := (h.used s hs).elim (h'.used s) fun hslot ↦ Or.inr (hrunning ▸ hslot)
  current := h.current.trans h'.current
  running s hs := h'.running s (h.running s hs)

theorem Calm.refl (system : System) : Calm system system :=
  ⟨fun _ ↦ rfl, fun _ ↦ rfl, fun _ hs ↦ Or.inl hs, rfl, fun _ hs ↦ hs⟩

theorem Calm.stop (h : Calm next system) : Calm { next with running := none } system :=
  ⟨h.pass, h.stride, h.used, h.current, fun _ hs ↦ nomatch hs⟩

theorem calm_set (entry : Proc) (hpass : entry.pass = (system.proc slot).pass)
    (hstride : entry.stride = (system.proc slot).stride)
    (hused : entry.state ≠ .unused →
      (system.proc slot).state ≠ .unused ∨ system.running = some slot) :
    Calm (system.set slot entry) system := by
  constructor <;> first | rfl | intro s
  on_goal 4 => exact id
  all_goals
    rw [set_proc]
    split
    next hs =>
      rw [hs]
      assumption
    next => first | rfl | exact Or.inl

theorem calm_leave (hrunning : system.running = some slot) (entry : Proc)
    (hpass : entry.pass = (system.proc slot).pass)
    (hstride : entry.stride = (system.proc slot).stride) :
    Calm (system.leave slot entry) system :=
  (calm_set entry hpass hstride fun _ ↦ Or.inr hrunning).stop

theorem calm_wakeup1 (system : System) (chan : Option Chan) :
    Calm (system.wakeup1 chan) system := by
  have hproc (s : ℕ) : (system.wakeup1 chan).proc s =
      if (system.proc s).state = .sleeping ∧ (system.proc s).chan = chan then
        { system.proc s with state := .runnable } else system.proc s := rfl
  constructor <;> first | rfl | intro s
  on_goal 4 => exact id
  all_goals
    rw [hproc]
    split
    next hsleeping => simp [hsleeping.1]
    next => first | rfl | exact Or.inl

theorem calm_reparent (system : System) (slot : ℕ) : Calm (system.reparent slot) system := by
  have hproc (s : ℕ) : (system.reparent slot).proc s =
      if (system.proc s).parent = some slot then
        { system.proc s with parent := some system.initproc } else system.proc s := rfl
  constructor <;> first | rfl | intro s
  on_goal 4 => exact id
  all_goals
    rw [hproc]
    split
    · first | rfl | exact Or.inl
    · first | rfl | exact Or.inl

theorem passChildren_running (system : System) (slot : ℕ) :
    (system.passChildren slot).running = system.running := by
  unfold System.passChildren
  dsimp only
  split
  · rfl
  · rfl

theorem calm_passChildren (system : System) (slot : ℕ) :
    Calm (system.passChildren slot) system := by
  unfold System.passChildren
  dsimp only
  split
  · exact (calm_wakeup1 _ _).trans (calm_reparent system slot) rfl
  · exact calm_reparent system slot

theorem calm_exit (hrunning : system.running = some slot) : Calm (system.exit slot) system := by
  let woken := system.wakeup1 ((system.proc slot).parent.map Chan.proc)
  have hpassed : Calm (woken.passChildren slot) system :=
    (calm_passChildren woken slot).trans (calm_wakeup1 system _) rfl
  have hkept : (woken.passChildren slot).running = system.running := passChildren_running woken slot
  have hleft := calm_leave (hkept.trans hrunning)
    { (woken.passChildren slot).proc slot with state := .zombie } rfl rfl
  exact hleft.trans hpassed hkept

theorem calm_wait (hrunning : system.running = some slot) : Calm (system.wait slot) system := by
  unfold System.wait
  split
  · exact calm_set _ rfl rfl fun hunused ↦ absurd rfl hunused
  · split
    · exact Calm.refl system
    · exact calm_leave hrunning _ rfl rfl

theorem calm_kill (system : System) (pid : Word) : Calm (system.kill pid) system := by
  unfold System.kill
  split
  · exact Calm.refl system
  · refine calm_set _ rfl rfl fun hused ↦ Or.inl ?_
    dsimp only at hused
    split at hused
    next hsleeping =>
      rw [hsleeping]
      decide
    next => exact hused

/-! ## Processes that stay

A process that is `RUNNABLE` at one round of the scheduler and at the next has kept its entry
between them: it can only exit by itself, and then no other process runs before the next round.
-/

/-- The entry is in use by a process that may become `RUNNABLE`, or by one that has just exited. -/
def Alive (system : System) (s : ℕ) : Prop :=
  (system.proc s).state.active = true ∨ (system.proc s).state = .zombie ∧ system.running = none

theorem Alive.active (h : Alive system s) (hrunning : system.running = some slot) :
    (system.proc s).state.active = true := by
  refine h.resolve_right fun hzombie ↦ ?_
  rw [hzombie.2] at hrunning
  cases hrunning

theorem Alive.ne_of_embryo (h : Alive system s) (hembryo : (system.proc np).state = .embryo) :
    s ≠ np := by
  rintro rfl
  unfold Alive at h
  rw [hembryo] at h
  simp [ProcState.active] at h

theorem Alive.ne_of_unused (h : Alive system s) (hunused : (system.proc np).state = .unused) :
    s ≠ np := by
  rintro rfl
  unfold Alive at h
  rw [hunused] at h
  simp [ProcState.active] at h

theorem Alive.set (h : Alive system s) {entry : Proc}
    (hentry : s = slot → entry.state.active = true) : Alive (system.set slot entry) s := by
  unfold Alive
  rw [set_proc]
  split
  next hs => exact Or.inl (hentry hs)
  next => exact h

theorem Alive.wakeup1 (h : Alive system s) (chan : Option Chan) :
    Alive (system.wakeup1 chan) s := by
  have hproc : (system.wakeup1 chan).proc s =
      if (system.proc s).state = .sleeping ∧ (system.proc s).chan = chan then
        { system.proc s with state := .runnable } else system.proc s := rfl
  unfold Alive
  rw [hproc]
  split
  · exact Or.inl rfl
  · exact h

/-- The process that has the processor leaves it, in a state in which it may become `RUNNABLE` or
as a zombie. -/
theorem Alive.leave (h : Alive system s) (hrunning : system.running = some slot) {entry : Proc}
    (hentry : entry.state.active = true ∨ entry.state = .zombie) :
    Alive (system.leave slot entry) s := by
  have hproc : (system.leave slot entry).proc s = if s = slot then entry else system.proc s :=
    set_proc entry
  unfold Alive
  rw [hproc]
  split
  · exact hentry.imp_right fun hzombie ↦ ⟨hzombie, rfl⟩
  · exact Or.inl (h.active hrunning)

theorem passChildren_state_active (hactive : (system.proc s).state.active = true) :
    ((system.passChildren slot).proc s).state.active = true := by
  have hreparent : ((system.reparent slot).proc s).state = (system.proc s).state := by
    change (if _ then _ else _ : Proc).state = _
    split
    · rfl
    · rfl
  unfold System.passChildren
  dsimp only
  split
  · change (if _ then _ else _ : Proc).state.active = true
    split
    · rfl
    · rw [hreparent]
      exact hactive
  · rw [hreparent]
    exact hactive

theorem Alive.exit (h : Alive system s) (hrunning : system.running = some slot) :
    Alive (system.exit slot) s := by
  have hwoken := h.wakeup1 ((system.proc slot).parent.map Chan.proc)
  have hpassed : Alive ((system.wakeup1 ((system.proc slot).parent.map Chan.proc)).passChildren
      slot) s := Or.inl (passChildren_state_active (hwoken.active hrunning))
  exact hpassed.leave ((passChildren_running _ slot).trans hrunning) (Or.inr rfl)

theorem Alive.wait (h : Alive system s) (hrunning : system.running = some slot) :
    Alive (system.wait slot) s := by
  unfold System.wait
  split
  next p hfound =>
    obtain ⟨-, hhit, -⟩ := Scan.first_eq_some_iff.mp hfound
    have hzombie := (of_decide_eq_true hhit).2
    refine h.set fun hs ↦ ?_
    have hactive := h.active hrunning
    rw [hs, hzombie] at hactive
    cases hactive
  next =>
    split
    · exact h
    · exact h.leave hrunning (Or.inl rfl)

theorem Alive.kill (h : Alive system s) (hrunning : system.running = some slot) (pid : Word) :
    Alive (system.kill pid) s := by
  unfold System.kill
  split
  · exact h
  next found _ =>
    refine h.set fun hs ↦ ?_
    have hactive := h.active hrunning
    rw [hs] at hactive
    dsimp only
    split
    · rfl
    · exact hactive

/-! ## One step -/

/-- What one step can do: a round of the scheduler, an entry taken, tickets set, or nothing to
passes and strides. -/
theorem step_cases (hstep : system.step call = some next) :
    (call = .dispatch ∧ system.running = none ∧
      ∃ c, system.chosen = some c ∧ next = system.dispatch c) ∨
    (call = .allocproc ∧ ∃ np, system.unusedSlot = some np ∧ next = system.allocproc np) ∨
    (∃ slot tix, call = .settickets tix ∧ system.running = some slot ∧ tix ≠ 0 ∧
      next = system.settickets slot tix) ∨
    (call ≠ .dispatch ∧ Calm next system ∧ ∀ s, Alive system s → Alive next s) := by
  cases hrunning : system.running with
  | none =>
    cases call with
    | dispatch =>
      rw [System.step.eq_1 system hrunning] at hstep
      obtain ⟨c, hchosen, hnext⟩ := Option.map_eq_some_iff.mp hstep
      exact Or.inl ⟨rfl, rfl, c, hchosen, hnext.symm⟩
    | wakeup chan =>
      cases hstep
      exact Or.inr (Or.inr (Or.inr ⟨by simp, calm_wakeup1 _ _, fun s h ↦ h.wakeup1 _⟩))
    | _ =>
      rw [System.step.eq_def, hrunning] at hstep
      cases hstep
  | some slot =>
    cases call with
    | dispatch =>
      rw [System.step.eq_def, hrunning] at hstep
      cases hstep
    | allocproc =>
      rw [System.step.eq_3 system slot hrunning] at hstep
      cases hunused : system.unusedSlot with
      | none =>
        rw [hunused] at hstep
        cases hstep
        exact Or.inr (Or.inr (Or.inr ⟨by simp, Calm.refl system, fun s h ↦ h⟩))
      | some np =>
        rw [hunused] at hstep
        cases hstep
        exact Or.inr (Or.inl ⟨rfl, np, rfl, rfl⟩)
    | settickets tix =>
      rw [System.step.eq_def, hrunning] at hstep
      obtain ⟨htix, hnext⟩ := Option.ite_none_left_eq_some.mp hstep
      cases hnext
      exact Or.inr (Or.inr (Or.inl ⟨slot, tix, rfl, rfl, htix, rfl⟩))
    | start np | giveUp np =>
      rw [System.step.eq_def, hrunning] at hstep
      obtain ⟨hembryo, hnext⟩ := Option.ite_none_right_eq_some.mp hstep
      cases hnext
      refine Or.inr (Or.inr (Or.inr ⟨by simp, ?_, fun s h ↦ ?_⟩))
      · exact calm_set _ rfl rfl fun _ ↦ Or.inl (by simp [hembryo])
      · exact h.set fun hs ↦ absurd hs (h.ne_of_embryo hembryo)
    | yield =>
      rw [System.step.eq_def, hrunning] at hstep
      cases hstep
      exact Or.inr (Or.inr (Or.inr ⟨by simp, calm_leave hrunning _ rfl rfl,
        fun s h ↦ h.leave hrunning (Or.inl rfl)⟩))
    | sleep addr =>
      rw [System.step.eq_def, hrunning] at hstep
      cases hstep
      exact Or.inr (Or.inr (Or.inr ⟨by simp, calm_leave hrunning _ rfl rfl,
        fun s h ↦ h.leave hrunning (Or.inl rfl)⟩))
    | exit =>
      rw [System.step.eq_def, hrunning] at hstep
      obtain ⟨-, hnext⟩ := Option.ite_none_left_eq_some.mp hstep
      cases hnext
      exact Or.inr (Or.inr (Or.inr ⟨by simp, calm_exit hrunning, fun s h ↦ h.exit hrunning⟩))
    | wait =>
      rw [System.step.eq_def, hrunning] at hstep
      cases hstep
      exact Or.inr (Or.inr (Or.inr ⟨by simp, calm_wait hrunning, fun s h ↦ h.wait hrunning⟩))
    | kill pid =>
      rw [System.step.eq_def, hrunning] at hstep
      cases hstep
      exact Or.inr (Or.inr (Or.inr ⟨by simp, calm_kill system pid,
        fun s h ↦ h.kill hrunning pid⟩))
    | wakeup chan =>
      cases hstep
      exact Or.inr (Or.inr (Or.inr ⟨by simp, calm_wakeup1 _ _, fun s h ↦ h.wakeup1 _⟩))

theorem step_dispatch (hstep : system.step .dispatch = some next) :
    ∃ c, system.chosen = some c ∧ next = system.dispatch c := by
  rcases step_cases hstep with ⟨-, -, hround⟩ | ⟨hcall, -⟩ | ⟨_, _, hcall, -⟩ | ⟨hcall, -⟩
  · exact hround
  · cases hcall
  · cases hcall
  · exact absurd rfl hcall

theorem step_allocproc (hunused : system.unusedSlot = some np)
    (hstep : system.step .allocproc = some next) : next = system.allocproc np := by
  cases hrunning : system.running with
  | none =>
    rw [System.step.eq_def, hrunning] at hstep
    cases hstep
  | some slot =>
    rw [System.step.eq_3 system slot hrunning, hunused] at hstep
    exact (Option.some.inj hstep).symm

theorem unusedSlot_spec (h : system.unusedSlot = some np) :
    (system.proc np).state = .unused :=
  of_decide_eq_true (Scan.first_eq_some_iff.mp h).2.1

/-- A process that is `RUNNABLE` when the scheduler runs keeps its entry. -/
theorem Alive.step (h : Alive system s)
    (hactive : call = .dispatch → (system.proc s).state.active = true)
    (hstep : system.step call = some next) : Alive next s := by
  rcases step_cases hstep with ⟨hcall, -, c, -, rfl⟩ | ⟨-, np, hunused, rfl⟩ |
    ⟨slot, tix, -, hrunning, -, rfl⟩ | ⟨-, -, halive⟩
  · left
    change ((system.set c _).proc s).state.active = true
    rw [set_proc]
    split
    · rfl
    · exact hactive hcall
  · exact h.set fun hs ↦ absurd hs (h.ne_of_unused (unusedSlot_spec hunused))
  · refine h.set fun hs ↦ ?_
    rw [← hs]
    exact h.active hrunning
  · exact halive s h

/-- Only the scheduler changes a pass, and `allocproc` that of an entry it takes. -/
theorem step_pass (hcall : call ≠ .dispatch)
    (hkept : call = .allocproc → system.unusedSlot ≠ some s)
    (hstep : system.step call = some next) : (next.proc s).pass = (system.proc s).pass := by
  rcases step_cases hstep with ⟨hdispatch, -⟩ | ⟨halloc, np, hunused, rfl⟩ |
    ⟨slot, tix, -, -, -, rfl⟩ | ⟨-, hcalm, -⟩
  · exact absurd hdispatch hcall
  · have hs : s ≠ np := by
      rintro rfl
      exact hkept halloc hunused
    change ((system.set np _).proc s).pass = _
    rw [set_proc, if_neg hs]
  · unfold System.settickets
    rw [set_proc]
    split
    next hs => rw [hs]
    next => rfl
  · exact hcalm.pass s

theorem Alive.unusedSlot_ne (h : Alive system s) : system.unusedSlot ≠ some s :=
  fun hunused ↦ h.ne_of_unused (unusedSlot_spec hunused) rfl

theorem dispatch_proc (c : ℕ) : (system.dispatch c).proc s =
    if s = c then { system.proc c with
      pass := (system.proc c).pass + (system.proc c).stride
      state := .running
      usage := (system.proc c).usage + 1 } else system.proc s :=
  set_proc _

end OS537.Stride
