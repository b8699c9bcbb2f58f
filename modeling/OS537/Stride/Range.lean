import OS537.Base.Run
import OS537.Stride.Window

/-!
# Ranges of passes and strides

`sys_settickets` does not look at its argument: it divides by it. With between 1 and 10000 tickets,
and as long as no pass reaches `2 ^ 31`, strides are between 1 and 10000 and passes are not
negative, so that a negative `minPass` in the scan means that no process has been seen.
-/

namespace OS537.Stride

open Bytes Run Threads

variable {system next : System} {s slot np c : ℕ} {call : Call}

/-- The divisor of the division that a call makes. -/
def Call.divisor : Call → Option Word
  | .allocproc => some 1
  | .settickets tix => some tix
  | _ => none

/-- The process that has the processor divides by zero. -/
def DividesByZero (system : System) (call : Call) : Prop :=
  system.running.isSome = true ∧ call.divisor = some 0

/-- Strides and passes are in range, and a negative `minPass` means that no process was seen. -/
structure Bounded (system : System) : Prop where
  stride : ∀ s < nproc, (system.proc s).state ≠ .unused →
    1 ≤ (system.proc s).stride.toInt ∧ (system.proc s).stride.toInt ≤ 10000
  pass : ∀ s < nproc, (system.proc s).state ≠ .unused → 0 ≤ (system.proc s).pass.toInt
  marker : ∀ count ≤ nproc, (system.scan count).1.toInt < 0 →
    ∀ p < count, (system.proc p).state ≠ .runnable

/-- Between 1 and 10000 tickets are set, and no pass reaches `2 ^ 31`. -/
def Moderate (system : System) (call : Call) : Prop :=
  (∀ tix, call = .settickets tix → 1 ≤ tix.toInt ∧ tix.toInt ≤ 10000) ∧
    (call = .dispatch → ∀ c, system.chosen = some c →
      (system.proc c).pass.toInt + (system.proc c).stride.toInt < 2 ^ 31)

instance : Decidable (Moderate system call) :=
  match call with
  | .settickets tix => decidable_of_iff (1 ≤ tix.toInt ∧ tix.toInt ≤ 10000) (by simp [Moderate])
  | .dispatch => decidable_of_iff (∀ c, system.chosen = some c →
      (system.proc c).pass.toInt + (system.proc c).stride.toInt < 2 ^ 31) (by simp [Moderate])
  | .allocproc | .start _ | .giveUp _ | .yield | .sleep _ | .exit | .wait | .kill _ | .wakeup _ =>
    isTrue (by simp [Moderate])

/-! ## The invariant -/

/-- The values of an entry are in range. -/
def Proc.Ranged (entry : Proc) : Prop :=
  1 ≤ entry.stride.toInt ∧ entry.stride.toInt ≤ 10000 ∧ 0 ≤ entry.pass.toInt

/-- An entry in use, or one the scheduler may run again without a look at its state. -/
def System.Counted (system : System) (s : ℕ) : Prop :=
  (system.proc s).state ≠ .unused ∨ system.current = some s

structure Kept (system : System) : Prop where
  ranged : ∀ s, system.Counted s → (system.proc s).Ranged
  running : ∀ s, system.running = some s → system.current = some s

theorem Kept.marker (h : Kept system) {count : ℕ} (hnegative : (system.scan count).1.toInt < 0)
    (p : ℕ) (hp : p < count) : (system.proc p).state ≠ .runnable := by
  have hpass (s : ℕ) (hs : (system.proc s).state = .runnable) : 0 ≤ (system.proc s).pass.toInt :=
    (h.ranged s (Or.inl (by simp [hs]))).2.2
  rcases scan_spec (fun s _ hs ↦ hpass s hs) with ⟨hnone, -⟩ | ⟨c, -, hstate, hscan, -⟩
  · exact hnone p hp
  · rw [hscan] at hnegative
    exact absurd hnegative (not_lt.mpr (hpass c hstate))

theorem Kept.bounded (h : Kept system) : Bounded system where
  stride s _ hs := ⟨(h.ranged s (Or.inl hs)).1, (h.ranged s (Or.inl hs)).2.1⟩
  pass s _ hs := (h.ranged s (Or.inl hs)).2.2
  marker _ _ := h.marker

/-- The scheduler runs a `RUNNABLE` process, or the one it ran before. -/
theorem Kept.chosen_counted (h : Kept system) (hchosen : system.chosen = some c) :
    system.Counted c := by
  have hpass (s : ℕ) (_ : s < nproc) (hs : (system.proc s).state = .runnable) :
      0 ≤ (system.proc s).pass.toInt := (h.ranged s (Or.inl (by simp [hs]))).2.2
  unfold System.chosen at hchosen
  rcases scan_spec hpass with ⟨-, hscan⟩ | ⟨least, -, hstate, hscan, -⟩
  · rw [hscan] at hchosen
    exact Or.inr hchosen
  · rw [hscan] at hchosen
    cases hchosen
    left
    simp [hstate]

/-! ## One step -/

theorem stride_range {tix : Word} (hlow : 1 ≤ tix.toInt) (hhigh : tix.toInt ≤ 10000) :
    1 ≤ ((10000 : Word).sdiv tix).toInt ∧ ((10000 : Word).sdiv tix).toInt ≤ 10000 := by
  have hvalue : (10000 : Word).toInt = 10000 := by decide
  rw [BitVec.toInt_sdiv_of_ne_or_ne _ _ (Or.inl (by decide)), hvalue]
  constructor
  · rw [Int.tdiv_eq_ediv_of_nonneg (by decide)]
    exact (Int.le_ediv_iff_mul_le hlow).mpr (by omega)
  · exact Int.tdiv_le_self tix.toInt (by decide)

/-- One entry is changed, to values in range. -/
theorem Kept.set (h : Kept system) {entry : Proc}
    (hproc : ∀ s, next.proc s = if s = slot then entry else system.proc s) (hentry : entry.Ranged)
    (hcurrent : ∀ s, next.current = some s → s ≠ slot → system.Counted s)
    (hrunning : ∀ s, next.running = some s → next.current = some s) : Kept next where
  ranged s hs := by
    rw [hproc]
    split
    · exact hentry
    next hne =>
      refine h.ranged s ?_
      rcases hs with hused | hcur
      · rw [hproc, if_neg hne] at hused
        exact Or.inl hused
      · exact hcurrent s hcur hne
  running := hrunning

theorem Kept.dispatch (h : Kept system) (hchosen : system.chosen = some c)
    (hsum : (system.proc c).pass.toInt + (system.proc c).stride.toInt < 2 ^ 31) :
    Kept (system.dispatch c) := by
  obtain ⟨hlow, hhigh, hpass⟩ := h.ranged c (h.chosen_counted hchosen)
  have hadd : ((system.proc c).pass + (system.proc c).stride).toInt =
      (system.proc c).pass.toInt + (system.proc c).stride.toInt := by
    rw [BitVec.toInt_add]
    exact Int.bmod_eq_of_le (by omega) (by omega)
  refine h.set (fun s ↦ dispatch_proc c) ⟨hlow, hhigh, ?_⟩ (fun s hs hne ↦ ?_) (fun s hs ↦ hs)
  · dsimp only
    omega
  · exact absurd (Option.some.inj hs).symm hne

theorem Kept.allocproc (h : Kept system) (np : ℕ) : Kept (system.allocproc np) := by
  have hstride : ((10000 : Word).sdiv 1).toInt = 10000 := by decide
  refine h.set (fun s ↦ set_proc _) ⟨?_, ?_, le_rfl⟩ (fun s hs _ ↦ Or.inr hs) h.running
  · rw [hstride]
    decide
  · exact hstride.le

theorem Kept.settickets (h : Kept system) (hrunning : system.running = some slot) {tix : Word}
    (hlow : 1 ≤ tix.toInt) (hhigh : tix.toInt ≤ 10000) : Kept (system.settickets slot tix) := by
  have hstride := stride_range hlow hhigh
  have hpass := (h.ranged slot (Or.inr (h.running slot hrunning))).2.2
  exact h.set (fun s ↦ set_proc _) ⟨hstride.1, hstride.2, hpass⟩ (fun s hs _ ↦ Or.inr hs) h.running

theorem Kept.calm (h : Kept system) (hcalm : Calm next system) : Kept next where
  ranged s hs := by
    unfold Proc.Ranged
    rw [hcalm.stride, hcalm.pass]
    refine h.ranged s ?_
    rcases hs with hused | hcurrent
    · exact (hcalm.used s hused).imp_right (h.running s)
    · exact Or.inr (hcalm.current ▸ hcurrent)
  running s hs := by
    rw [hcalm.current]
    exact h.running s (hcalm.running s hs)

theorem Kept.step (h : Kept system) (hmoderate : Moderate system call)
    (hstep : system.step call = some next) : Kept next := by
  rcases step_cases hstep with ⟨hcall, -, c, hchosen, rfl⟩ | ⟨-, np, -, rfl⟩ |
    ⟨slot, tix, hcall, hrunning, -, rfl⟩ | ⟨-, hcalm, -⟩
  · exact h.dispatch hchosen (hmoderate.2 hcall c hchosen)
  · exact h.allocproc np
  · obtain ⟨hlow, hhigh⟩ := hmoderate.1 tix hcall
    exact h.settickets hrunning hlow hhigh
  · exact h.calm hcalm

theorem Moderate.not_dividesByZero (h : Moderate system call) : ¬ DividesByZero system call := by
  rintro ⟨-, hzero⟩
  cases call with
  | settickets tix =>
    cases hzero
    exact absurd (h.1 0 rfl).1 (by decide)
  | allocproc => exact absurd hzero (by decide)
  | _ => cases hzero

/-! ## Runs -/

theorem userinit_kept : Kept userinit where
  ranged s hs := by
    by_cases hzero : s = 0
    · subst hzero
      exact ⟨by decide, by decide, by decide⟩
    · have hproc : userinit.proc s = emptyProc := by simp [userinit, Function.update_of_ne hzero]
      rcases hs with hused | hcurrent
      · rw [hproc] at hused
        exact absurd rfl hused
      · cases hcurrent
  running s hs := nomatch hs

/-- In every run from boot in which tickets are between 1 and 10000 and no pass reaches `2 ^ 31`, no
step divides by zero and every state is in range. -/
theorem bounded_of_run {calls : List Call}
    (hguarded : Guarded System.step Moderate userinit calls) :
    Guarded System.step (fun system call ↦ ¬ DividesByZero system call) userinit calls ∧
      ∀ final, run System.step userinit calls = some final → Bounded final := by
  constructor
  · exact hguarded.mono fun _ _ h ↦ h.not_dividesByZero
  · intro final hrun
    have hkept : Kept final :=
      hguarded.invariant_of_run (fun _ _ _ h hok hstep ↦ h.step hok hstep) userinit_kept hrun
    exact hkept.bounded

/-- A process takes ten tickets and is run again. -/
theorem bounded_of_run_tenTickets :
    (run System.step userinit [.dispatch, .settickets 10, .yield, .dispatch]).isSome = true ∧
      (Guarded System.step (fun system call ↦ ¬ DividesByZero system call) userinit
          [.dispatch, .settickets 10, .yield, .dispatch] ∧
        ∀ final, run System.step userinit [.dispatch, .settickets 10, .yield, .dispatch] =
          some final → Bounded final) :=
  ⟨by decide +kernel, bounded_of_run (by decide +kernel)⟩

/-- The first process may divide by zero, and it may take so many tickets that its stride is zero.
-/
theorem settickets_not_bounded :
    (∃ system, run System.step userinit [.dispatch] = some system ∧
      DividesByZero system (.settickets 0)) ∧
    ∃ final, run System.step userinit [.dispatch, .settickets 20000] = some final ∧
      ¬ Bounded final := by
  constructor
  · have hrunning : (run System.step userinit [.dispatch]).map (fun system ↦
        system.running.isSome) = some true := by decide +kernel
    obtain ⟨system, hrun, hsome⟩ := Option.map_eq_some_iff.mp hrunning
    exact ⟨system, hrun, hsome, rfl⟩
  · have hvalues : (run System.step userinit [.dispatch, .settickets 20000]).map (fun final ↦
        ((final.proc 0).state, (final.proc 0).stride)) = some (.running, 0) := by decide +kernel
    obtain ⟨final, hrun, hentry⟩ := Option.map_eq_some_iff.mp hvalues
    obtain ⟨hstate, hstride⟩ := Prod.mk.injEq _ _ _ _ ▸ hentry
    refine ⟨final, hrun, fun hbounded ↦ ?_⟩
    have hlow := (hbounded.stride 0 (by decide) (by simp [hstate])).1
    rw [hstride] at hlow
    exact absurd hlow (by decide)

end OS537.Stride
