import Mathlib.Data.Rat.Floor
import Mathlib.Tactic.Ring
import OS537.Base.Run
import OS537.Stride.Window

/-!
# Shares of the processor

Two processes that wait for the processor are run in proportion to their tickets, whatever others
do. A process that comes late is run with the pass it has, so it can be far behind: a new one
starts from zero.
-/

namespace OS537.Stride

open Bytes Run Threads

variable {system next : System} {p q c : ℕ} {call : Call}

/-- The number of rounds of the scheduler in which `s` is chosen. -/
def dispatches (s : ℕ) : System → List Call → ℕ :=
  tally System.step fun system call ↦ call = .dispatch ∧ system.chosen = some s

/-- No pass of a `RUNNABLE` process is negative, and the round does not make one wrap around. -/
structure InRange (system : System) : Prop where
  nonneg : ∀ s < nproc, (system.proc s).state = .runnable → 0 ≤ (system.proc s).pass.toInt
  addition : ∀ c, system.chosen = some c →
    (system.proc c).pass.toInt + (system.proc c).stride.toInt < 2 ^ 31

/-- A process waits for the processor with the given stride. -/
def Waits (system : System) (s : ℕ) (stride : ℤ) : Prop :=
  (system.proc s).state = .runnable ∧ (system.proc s).stride.toInt = stride

instance : Decidable (InRange system) :=
  decidable_of_iff
    ((∀ s < nproc, (system.proc s).state = .runnable → 0 ≤ (system.proc s).pass.toInt) ∧
      ∀ c, system.chosen = some c →
        (system.proc c).pass.toInt + (system.proc c).stride.toInt < 2 ^ 31)
    ⟨fun h ↦ ⟨h.1, h.2⟩, fun h ↦ ⟨h.nonneg, h.addition⟩⟩

instance (s : ℕ) (stride : ℤ) : Decidable (Waits system s stride) := instDecidableAnd

theorem Waits.alive {s : ℕ} {stride : ℤ} (h : Waits system s stride) : Alive system s := by
  left
  rw [h.1]
  rfl

/-- The round adds the stride to the pass of the chosen process, which was the least. -/
theorem InRange.round (h : InRange system) {s : ℕ} (hs : s < nproc)
    (hrunnable : (system.proc s).state = .runnable) (hchosen : system.chosen = some c) :
    (∀ s < nproc, (system.proc s).state = .runnable →
      (system.proc c).pass.toInt ≤ (system.proc s).pass.toInt) ∧
    ((system.dispatch c).proc c).pass.toInt =
      (system.proc c).pass.toInt + (system.proc c).stride.toInt := by
  obtain ⟨least, hlt, hleast, hstate, hmin⟩ := chosen_spec h.nonneg hs hrunnable
  cases hleast.symm.trans hchosen
  refine ⟨hmin, ?_⟩
  have hnonneg := h.nonneg c hlt hstate
  have hsum := h.addition c hchosen
  have hstride := BitVec.le_toInt (system.proc c).stride
  rw [dispatch_proc, if_pos rfl]
  change ((system.proc c).pass + (system.proc c).stride).toInt = _
  rw [BitVec.toInt_add]
  exact Int.bmod_eq_of_le (by omega) (by omega)

/-- At every round in the window both processes wait, with the given strides. -/
def Window (p q : ℕ) (strideP strideQ : ℤ) (system : System) (call : Call) : Prop :=
  call = .dispatch → InRange system ∧ Waits system p strideP ∧ Waits system q strideQ

instance (strideP strideQ : ℤ) : Decidable (Window p q strideP strideQ system call) :=
  inferInstanceAs (Decidable (_ → _))

theorem Window.symm {strideP strideQ : ℤ} (h : Window p q strideP strideQ system call) :
    Window q p strideQ strideP system call :=
  fun hcall ↦ ⟨(h hcall).1, (h hcall).2.2, (h hcall).2.1⟩

theorem InRange.round_pass (h : InRange system) (hp : p < nproc) {stride : ℤ}
    (hwaits : Waits system p stride) (hchosen : system.chosen = some c) :
    ((system.dispatch c).proc p).pass.toInt =
      (system.proc p).pass.toInt + if c = p then stride else 0 := by
  split
  next hc =>
    rw [← hwaits.2, ← hc]
    exact (h.round hp hwaits.1 hchosen).2
  next hc => rw [dispatch_proc, if_neg (Ne.symm hc), Int.add_zero]

/-! ## Proportional share -/

/-- The induction is on the run. In a round that chooses `p`, the bound drops by the stride of `p`
because the pass of `p` is the least; in one that chooses `q`, it grows by no more than the stride
of `q`. -/
theorem share_le {strideP strideQ : ℤ} (hp : p < nproc) (hq : q < nproc) (hstrideQ : 1 ≤ strideQ)
    {calls : List Call} (haliveP : Alive system p) (haliveQ : Alive system q)
    (hwindow : Guarded System.step (Window p q strideP strideQ) system calls) :
    dispatches p system calls * strideP - dispatches q system calls * strideQ ≤
      max 0 (strideP - ((system.proc p).pass.toInt - (system.proc q).pass.toInt)) := by
  induction calls generalizing system with
  | nil => simp [dispatches, tally]
  | cons call rest ih =>
    cases hstep : system.step call with
    | none => simp [dispatches, tally, hstep]
    | some next =>
      have hactive {s : ℕ} {stride : ℤ} (h : call = .dispatch → Waits system s stride)
          (hcall : call = .dispatch) : (system.proc s).state.active = true := by
        rw [(h hcall).1]
        rfl
      have hrest := ih (haliveP.step (hactive fun hcall ↦ (hwindow.1 hcall).2.1) hstep)
        (haliveQ.step (hactive fun hcall ↦ (hwindow.1 hcall).2.2) hstep) (hwindow.2 next hstep)
      unfold dispatches at hrest ⊢
      rw [tally_cons rest hstep, tally_cons rest hstep]
      by_cases hcall : call = .dispatch
      · obtain ⟨hrange, hwaitsP, hwaitsQ⟩ := hwindow.1 hcall
        subst hcall
        obtain ⟨c, hchosen, rfl⟩ := step_dispatch hstep
        have hleast := (hrange.round hp hwaitsP.1 hchosen).1 q hq hwaitsQ.1
        rw [hrange.round_pass hp hwaitsP hchosen, hrange.round_pass hq hwaitsQ hchosen] at hrest
        simp only [hchosen, true_and, Option.some.injEq, decide_eq_true_eq]
        push_cast
        rw [add_mul, add_mul]
        by_cases hcp : c = p
        · subst hcp
          by_cases hcq : c = q
          · subst hcq
            have hsame : strideP = strideQ := hwaitsP.2.symm.trans hwaitsQ.2
            simp only [if_true] at hrest ⊢
            omega
          · simp only [if_true, if_neg hcq] at hrest ⊢
            omega
        · simp only [if_neg hcp] at hrest ⊢
          split_ifs at hrest ⊢
          · omega
          · omega
      · rw [step_pass hcall (fun _ ↦ haliveP.unusedSlot_ne) hstep,
          step_pass hcall (fun _ ↦ haliveQ.unusedSlot_ne) hstep] at hrest
        simpa [hcall] using hrest

/-- In a window of any length in which both processes wait at every round, neither is run more
than its share by more than the lead it has and one stride. -/
theorem proportional_share {strideP strideQ : ℤ} (hp : p < nproc) (hq : q < nproc)
    (hstrideP : 1 ≤ strideP) (hstrideQ : 1 ≤ strideQ)
    (hwaitsP : Waits system p strideP) (hwaitsQ : Waits system q strideQ) {calls : List Call}
    (hwindow : Guarded System.step (Window p q strideP strideQ) system calls) :
    dispatches p system calls * strideP - dispatches q system calls * strideQ ≤
        max 0 (strideP - ((system.proc p).pass.toInt - (system.proc q).pass.toInt)) ∧
      dispatches q system calls * strideQ - dispatches p system calls * strideP ≤
        max 0 (strideQ - ((system.proc q).pass.toInt - (system.proc p).pass.toInt)) := by
  refine ⟨share_le hp hq hstrideQ hwaitsP.alive hwaitsQ.alive hwindow, ?_⟩
  exact share_le hq hp hstrideP hwaitsQ.alive hwaitsP.alive (hwindow.mono fun _ _ h ↦ h.symm)

/-- `initproc` forks, and the child takes four tickets. -/
def afterFork : System :=
  (run System.step userinit
    [.dispatch, .allocproc, .start 1, .yield, .dispatch, .settickets 4, .yield]).getD userinit

def rounds (count : ℕ) : List Call := (List.replicate count [.dispatch, .yield]).flatten

/-- Ten rounds: two of the parent and eight of the child. -/
theorem proportional_share_afterFork :
    dispatches 0 afterFork (rounds 10) = 2 ∧ dispatches 1 afterFork (rounds 10) = 8 ∧
    ((dispatches 0 afterFork (rounds 10) : ℤ) * 10000 - dispatches 1 afterFork (rounds 10) * 2500 ≤
        max 0 (10000 - ((afterFork.proc 0).pass.toInt - (afterFork.proc 1).pass.toInt)) ∧
      (dispatches 1 afterFork (rounds 10) : ℤ) * 2500 - dispatches 0 afterFork (rounds 10) * 10000 ≤
        max 0 (2500 - ((afterFork.proc 1).pass.toInt - (afterFork.proc 0).pass.toInt))) := by
  refine ⟨by decide +kernel, by decide +kernel, ?_⟩
  exact proportional_share (by decide) (by decide) (by decide) (by decide) (by decide +kernel)
    (by decide +kernel) (by decide +kernel)

/-! ## Newcomers

A process that was not queued when `p` was run joins the queue with the pass it has kept. If that is
not below the pass `p` had, the process is run no more than its share before `p` is run again.
-/

/-- The process waits for the processor or has it. -/
def Queued (system : System) (s : ℕ) : Prop :=
  (system.proc s).state = .runnable ∨
    (system.proc s).state = .running ∧ system.running = some s

instance (s : ℕ) : Decidable (Queued system s) := instDecidableOr

/-- At every round `p` waits and another process is chosen, with a stride that valid tickets give.
-/
def Pending (p : ℕ) (system : System) (call : Call) : Prop :=
  call = .dispatch → InRange system ∧ (system.proc p).state = .runnable ∧
    system.chosen ≠ some p ∧ ∀ c, system.chosen = some c → 1 ≤ (system.proc c).stride.toInt

/-- The entry stays with its process, which is run with the given stride. -/
def Keeps (q : ℕ) (stride : ℤ) (system : System) (call : Call) : Prop :=
  (call = .allocproc → system.unusedSlot ≠ some q) ∧
    (call = .dispatch → system.chosen = some q → (system.proc q).stride.toInt = stride)

/-- If the step makes the process join the queue, its pass is at least `bound`. -/
def JoinsLevel (q : ℕ) (bound : ℤ) (system : System) (call : Call) : Prop :=
  ¬ Queued system q → ∀ next, system.step call = some next → Queued next q →
    bound ≤ (system.proc q).pass.toInt

/-- The pass is at least `level`, or the process has not joined yet and `level` is where it may. -/
def AtLevel (q : ℕ) (bound level : ℤ) (system : System) : Prop :=
  level ≤ (system.proc q).pass.toInt ∨ level = bound ∧ ¬ Queued system q

instance : Decidable (Pending p system call) := inferInstanceAs (Decidable (_ → _))

instance (stride : ℤ) : Decidable (Keeps q stride system call) := instDecidableAnd

instance (bound : ℤ) : Decidable (JoinsLevel q bound system call) :=
  inferInstanceAs (Decidable (_ → ∀ next, system.step call = some next → _))

/-- What holds while `p` waits to be run again with the pass `last`. -/
structure Waiting (p q : ℕ) (last bound level : ℤ) (system : System) : Prop where
  alive : Alive system p
  pass : (system.proc p).pass.toInt = last
  level : AtLevel q bound level system

theorem AtLevel.of_pass_eq {bound level : ℤ} (h : AtLevel q bound level system)
    (hpass : (next.proc q).pass = (system.proc q).pass) (hstep : system.step call = some next)
    (hjoins : JoinsLevel q bound system call) : AtLevel q bound level next := by
  rcases h with hlevel | ⟨rfl, hqueued⟩
  · left
    rw [hpass]
    exact hlevel
  · by_cases hnext : Queued next q
    · left
      rw [hpass]
      exact hjoins hqueued next hstep hnext
    · exact Or.inr ⟨rfl, hnext⟩

/-- A step in which `q` is not run and keeps its entry. -/
theorem Waiting.step_other {last bound level : ℤ} (h : Waiting p q last bound level system)
    (hpending : Pending p system call) (hjoins : JoinsLevel q bound system call)
    (hother : call = .dispatch → system.chosen ≠ some q)
    (hkept : call = .allocproc → system.unusedSlot ≠ some q)
    (hstep : system.step call = some next) : Waiting p q last bound level next := by
  have halive : Alive next p := by
    refine h.alive.step (fun hcall ↦ ?_) hstep
    rw [(hpending hcall).2.1]
    rfl
  by_cases hcall : call = .dispatch
  · subst hcall
    obtain ⟨c, hchosen, rfl⟩ := step_dispatch hstep
    have hcp : p ≠ c := by
      rintro rfl
      exact (hpending rfl).2.2.1 hchosen
    have hcq : q ≠ c := by
      rintro rfl
      exact hother rfl hchosen
    refine ⟨halive, ?_, h.level.of_pass_eq ?_ hstep hjoins⟩
    · rw [dispatch_proc, if_neg hcp]
      exact h.pass
    · rw [dispatch_proc, if_neg hcq]
  · refine ⟨halive, ?_, h.level.of_pass_eq (step_pass hcall hkept hstep) hstep hjoins⟩
    rw [step_pass hcall (fun _ ↦ h.alive.unusedSlot_ne) hstep]
    exact h.pass

/-- A round in which `q` is run: its pass was at most that of `p`, and moves on by its stride. -/
theorem Waiting.step_chosen {last bound level : ℤ} (h : Waiting p q last bound level system)
    (hp : p < nproc) (hpq : p ≠ q) (hpending : Pending p system .dispatch)
    (hchosen : system.chosen = some q) (hstep : system.step .dispatch = some next) :
    level ≤ last ∧ Waiting p q last bound (level + (system.proc q).stride.toInt) next := by
  obtain ⟨hrange, hrunnable, -, -⟩ := hpending rfl
  obtain ⟨c, hround, rfl⟩ := step_dispatch hstep
  cases hchosen.symm.trans hround
  obtain ⟨least, -, hleast, hstate, -⟩ := chosen_spec hrange.nonneg hp hrunnable
  cases hleast.symm.trans hchosen
  obtain ⟨hmin, hpass⟩ := hrange.round hp hrunnable hchosen
  have hlevel : level ≤ (system.proc q).pass.toInt :=
    h.level.resolve_right fun hnot ↦ hnot.2 (Or.inl hstate)
  refine ⟨hlevel.trans ((hmin p hp hrunnable).trans h.pass.le), ?_, ?_, Or.inl ?_⟩
  · refine h.alive.step (fun _ ↦ ?_) hstep
    rw [hrunnable]
    rfl
  · rw [dispatch_proc, if_neg hpq]
    exact h.pass
  · rw [hpass]
    exact Int.add_le_add_right hlevel _

theorem AtLevel.mono {bound level : ℤ} (h : AtLevel q bound level system) (hle : bound ≤ level) :
    AtLevel q bound bound system :=
  h.imp hle.trans fun hnot ↦ ⟨rfl, hnot.2⟩

/-- Whoever uses the entry of `q`, it is at the level at which `p` was run. -/
theorem Waiting.step {last bound : ℤ} (h : Waiting p q last bound bound system)
    (hp : p < nproc) (hpq : p ≠ q) (hpending : Pending p system call)
    (hjoins : JoinsLevel q bound system call) (hstep : system.step call = some next) :
    Waiting p q last bound bound next := by
  by_cases hround : call = .dispatch ∧ system.chosen = some q
  · obtain ⟨rfl, hchosen⟩ := hround
    have hstride := (hpending rfl).2.2.2 q hchosen
    have hnext := (h.step_chosen hp hpq hpending hchosen hstep).2
    exact ⟨hnext.alive, hnext.pass, hnext.level.mono (by omega)⟩
  · by_cases htaken : call = .allocproc ∧ system.unusedSlot = some q
    · obtain ⟨rfl, hunused⟩ := htaken
      have hcall : Call.allocproc ≠ .dispatch := by simp
      have hpass := step_pass hcall (fun _ ↦ h.alive.unusedSlot_ne) hstep
      refine ⟨h.alive.step (fun h ↦ absurd h hcall) hstep, hpass ▸ h.pass, Or.inr ⟨rfl, ?_⟩⟩
      have hembryo : (next.proc q).state = .embryo := by
        rw [step_allocproc hunused hstep]
        change ((system.set q _).proc q).state = _
        rw [set_proc, if_pos rfl]
      unfold Queued
      rw [hembryo]
      simp
    · exact h.step_other hpending hjoins (fun hcall hchosen ↦ hround ⟨hcall, hchosen⟩)
        (fun hcall hunused ↦ htaken ⟨hcall, hunused⟩) hstep

theorem dispatches_mul_le {last bound level stride : ℤ} (hp : p < nproc) (hpq : p ≠ q)
    (hstride : 1 ≤ stride) {calls : List Call} (h : Waiting p q last bound level system)
    (hguarded : Guarded System.step (fun system call ↦ Pending p system call ∧
      JoinsLevel q bound system call ∧ Keeps q stride system call) system calls) :
    dispatches q system calls * stride ≤ max 0 (last - level + stride) := by
  induction calls generalizing system level with
  | nil => simp [dispatches, tally]
  | cons call rest ih =>
    cases hstep : system.step call with
    | none => simp [dispatches, tally, hstep]
    | some next =>
      obtain ⟨hpending, hjoins, hkeeps⟩ := hguarded.1
      unfold dispatches at ih ⊢
      rw [tally_cons rest hstep]
      by_cases hround : call = .dispatch ∧ system.chosen = some q
      · obtain ⟨rfl, hchosen⟩ := hround
        obtain ⟨hle, hnext⟩ := h.step_chosen hp hpq hpending hchosen hstep
        rw [hkeeps.2 rfl hchosen] at hnext
        have hrest := ih hnext (hguarded.2 next hstep)
        rw [if_pos (decide_eq_true ⟨rfl, hchosen⟩)]
        push_cast
        rw [add_mul]
        omega
      · rw [if_neg (mt of_decide_eq_true hround), Nat.zero_add]
        exact ih (h.step_other hpending hjoins (fun hcall hchosen ↦ hround ⟨hcall, hchosen⟩)
          hkeeps.1 hstep) (hguarded.2 next hstep)

/-- What `start` and the run after it must be for `p` to be run in `start`, and for another process
`q` to use its entry after the calls of `before`. -/
structure Interval (p q : ℕ) (strideQ : ℤ) (start middle : System) (before calls : List Call) :
    Prop where
  range : InRange start
  runnable : (start.proc p).state = .runnable
  chosen : start.chosen = some p
  strideP : 1 ≤ (start.proc p).stride.toInt
  pending : Guarded System.step (Pending p) (start.dispatch p) (before ++ calls)
  reaches : run System.step (start.dispatch p) before = some middle
  keeps : Guarded System.step (Keeps q strideQ) middle calls

theorem Interval.waiting {strideQ : ℤ} {start middle : System} {before calls : List Call}
    (h : Interval p q strideQ start middle before calls) (hp : p < nproc) (hq : q < nproc)
    (hpq : p ≠ q) : Waiting p q
      ((start.proc p).pass.toInt + (start.proc p).stride.toInt) (start.proc p).pass.toInt
      (start.proc p).pass.toInt (start.dispatch p) := by
  obtain ⟨hmin, hpass⟩ := h.range.round hp h.runnable h.chosen
  refine ⟨Or.inl ?_, hpass, ?_⟩
  · rw [dispatch_proc, if_pos rfl]
    rfl
  · unfold AtLevel Queued
    rw [dispatch_proc, if_neg hpq.symm]
    by_cases hrunnable : (start.proc q).state = .runnable
    · exact Or.inl (hmin q hq hrunnable)
    · refine Or.inr ⟨rfl, fun hqueued ↦ ?_⟩
      exact hpq (Option.some.inj (hqueued.resolve_left hrunnable).2)

/-- Between two rounds in which `p` is run, another process is run at most `⌈strideP / strideQ⌉ + 1`
times, if it does not join the queue with a smaller pass than `p` had. -/
theorem dispatches_le_of_joinsLevel {strideQ : ℤ} {start middle : System} {before calls : List Call}
    (hp : p < nproc) (hq : q < nproc) (hpq : p ≠ q) (hstrideQ : 1 ≤ strideQ)
    (h : Interval p q strideQ start middle before calls)
    (hjoins : Guarded System.step (JoinsLevel q (start.proc p).pass.toInt) (start.dispatch p)
      (before ++ calls)) :
    (dispatches q middle calls : ℤ) ≤ ⌈((start.proc p).stride.toInt : ℚ) / strideQ⌉ + 1 := by
  have hpendings := h.pending.of_append h.reaches
  have hlevels := hjoins.of_append h.reaches
  have hwaiting : Waiting p q ((start.proc p).pass.toInt + (start.proc p).stride.toInt)
      (start.proc p).pass.toInt (start.proc p).pass.toInt middle :=
    (hpendings.1.and hlevels.1).invariant_of_run
      (fun _ _ _ hw hok hstep ↦ hw.step hp hpq hok.1 hok.2 hstep) (h.waiting hp hq hpq) h.reaches
  have hmul := dispatches_mul_le hp hpq hstrideQ hwaiting
    (hpendings.2.and (hlevels.2.and h.keeps))
  have hstrideP := h.strideP
  have hbound : (dispatches q middle calls : ℤ) * strideQ ≤
      (start.proc p).stride.toInt + strideQ := by omega
  have hpos : (0 : ℚ) < strideQ := by exact_mod_cast hstrideQ
  have hceil : ((dispatches q middle calls : ℤ) - 1 : ℚ) ≤
      (start.proc p).stride.toInt / strideQ := by
    rw [le_div_iff₀ hpos, sub_mul, one_mul, sub_le_iff_le_add]
    exact_mod_cast hbound
  have hle : ((dispatches q middle calls : ℤ) - 1 : ℤ) ≤
      ⌈((start.proc p).stride.toInt : ℚ) / strideQ⌉ := by
    have htrans := hceil.trans (Int.le_ceil _)
    exact_mod_cast htrans
  omega

/-- The parent is run once; then the child, with four tickets, is run four times. -/
theorem dispatches_le_afterFork :
    dispatches 1 (afterFork.dispatch 0) (.yield :: rounds 4) = 4 ∧
      (dispatches 1 (afterFork.dispatch 0) (.yield :: rounds 4) : ℤ) ≤
        ⌈((afterFork.proc 0).stride.toInt : ℚ) / (2500 : ℤ)⌉ + 1 := by
  refine ⟨by decide +kernel, ?_⟩
  have hinterval : Interval 0 1 2500 afterFork (afterFork.dispatch 0) [] (.yield :: rounds 4) := by
    refine ⟨?_, ?_, ?_, ?_, ?_, rfl, ?_⟩
    all_goals decide +kernel
  refine dispatches_le_of_joinsLevel (by decide) (by decide) (by decide) (by decide) hinterval ?_
  decide +kernel

/-- `initproc` has been run twice. -/
def beforeThird : System := (run System.step userinit (rounds 2)).getD userinit

/-- In its third round `initproc` forks; the child is run three times before `initproc` is run
again, although their strides are equal. -/
theorem newcomer_not_dispatches_le :
    run System.step userinit (rounds 2) = some beforeThird ∧
      Interval 0 1 10000 beforeThird ((beforeThird.dispatch 0).allocproc 1) [.allocproc]
        (.start 1 :: .yield :: rounds 3) ∧
      ¬ (dispatches 1 ((beforeThird.dispatch 0).allocproc 1) (.start 1 :: .yield :: rounds 3) : ℤ) ≤
        ⌈((beforeThird.proc 0).stride.toInt : ℚ) / (10000 : ℤ)⌉ + 1 := by
  have hcount : dispatches 1 ((beforeThird.dispatch 0).allocproc 1)
      (.start 1 :: .yield :: rounds 3) = 3 := by decide +kernel
  have hstride : (beforeThird.proc 0).stride.toInt = 10000 := by decide +kernel
  have hunused : (beforeThird.dispatch 0).unusedSlot = some 1 := by decide +kernel
  refine ⟨?_, ⟨?_, ?_, ?_, ?_, ?_, ?_, ?_⟩, ?_⟩
  · have hsome : (run System.step userinit (rounds 2)).isSome = true := by decide +kernel
    obtain ⟨state, hrun⟩ := Option.isSome_iff_exists.mp hsome
    unfold beforeThird
    rw [hrun]
    rfl
  · decide +kernel
  · decide +kernel
  · decide +kernel
  · decide +kernel
  · decide +kernel
  · have hrunning : (beforeThird.dispatch 0).running = some 0 := rfl
    rw [run, System.step.eq_3 _ 0 hrunning, hunused]
    rfl
  · decide +kernel
  · rw [hcount, hstride]
    norm_num

end OS537.Stride
