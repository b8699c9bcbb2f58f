import OS537.Base.Bytes
import OS537.Base.Interleave
import Mathlib.Data.Fintype.Basic

/-!
# Counting system calls

`trap` of `1b/xv6/trap.c` reads `syscall_count` into a local variable at its entry and writes it
back, plus one, after the test of `killed`. The gate of `T_SYSCALL` leaves interrupts on, so other
processes may run in between, and each part is an atomic step here. A timer interrupt that comes
inside `trap` takes no step of its own: all it does to this code is to let another process run.
-/

namespace OS537.Traps

open Bytes Interleave Run

abbrev tSyscall : Word := 64

/-- The traps that have a case in the `switch`: timer, keyboard, serial port, the spurious ones and
the disk. Any other trap makes `proc->killed` true. -/
def interrupts : List Word := [32, 33, 36, 39, 46, 47, 63]

/-- Where a process is in `trap`: outside, after `int counter = syscall_count`, or in
`syscall()`. -/
inductive TrapPoint where
  | user
  | entered (trapno counter : Word)
  | handling
  | exited
deriving DecidableEq

structure Process where
  killed : Bool
  point : TrapPoint

/-- What may happen to a process: a trap in user mode, the next part of `trap`, the call of `exit`
from `syscall()`, or another process kills it. -/
inductive TrapAction where
  | trap (trapno : Word)
  | proceed
  | exit
  | kill
deriving DecidableEq

/-- `if(proc->killed) exit(); return;` -/
def Process.leave (process : Process) : Process :=
  { process with point := if process.killed then .exited else .user }

/-- The part of `trap` after the read, up to the call of `syscall()` or to the end, and the part
after `syscall()`. -/
def proceed (syscallCount : Word) (process : Process) : Option (Word × Process) :=
  match process.point with
  | .entered trapno counter =>
    if trapno = tSyscall then
      if process.killed then some (syscallCount, { process with point := .exited })
      else some (counter + 1, { process with point := .handling })
    else
      let process := { process with killed := process.killed || trapno ∉ interrupts }
      some (syscallCount, process.leave)
  | .handling => some (syscallCount, process.leave)
  | .user => none
  | .exited => none

def trap (syscallCount : Word) (process : Process) : TrapAction → Option (Word × Process)
  | .trap trapno =>
    if process.point = .user then
      some (syscallCount, { process with point := .entered trapno syscallCount })
    else none
  | .proceed => proceed syscallCount process
  | .exit =>
    if process.point = .handling then some (syscallCount, { process with point := .exited })
    else none
  | .kill => some (syscallCount, { process with killed := true })

def sysGetcount (syscallCount : Word) : ℤ :=
  if 0 ≤ syscallCount.toInt then syscallCount.toInt else -1

section Counting

variable {Pid : Type} [DecidableEq Pid]

abbrev Kernel (Pid : Type) := System Pid Word Process

/-- The counter with which this step executes `syscall_count = counter+1`. -/
def assigns (process : Process) (action : TrapAction) : Option Word :=
  match process.point, action with
  | .entered trapno counter, .proceed =>
    if trapno = tSyscall ∧ process.killed = false then some counter else none
  | _, _ => none

def counts (kernel : Kernel Pid) (move : Pid × TrapAction) : Bool :=
  (assigns (kernel.locals move.1) move.2).isSome

/-- No assignment has come between the process's entry of `trap` and its own: `syscall_count` is
what it has read. -/
def Undisturbed (kernel : Kernel Pid) (move : Pid × TrapAction) : Prop :=
  ∀ counter ∈ assigns (kernel.locals move.1) move.2, counter = kernel.shared

instance (kernel : Kernel Pid) (move : Pid × TrapAction) : Decidable (Undisturbed kernel move) :=
  Option.decidableForallMem (assigns (kernel.locals move.1) move.2)

/-! ## One step -/

variable {count count' : Word} {process process' : Process} {action : TrapAction}

theorem Process.leave_point (process : Process) (trapno counter : Word) :
    process.leave.point ≠ .entered trapno counter := by
  unfold Process.leave
  cases process.killed <;> simp

theorem proceed_cases (h : proceed count process = some (count', process')) :
    (∃ counter, assigns process .proceed = some counter ∧ count' = counter + 1 ∧
        (∃ trapno, process.point = .entered trapno counter) ∧ process'.point = .handling) ∨
      assigns process .proceed = none ∧ count' = count ∧
        ∀ trapno counter, process'.point ≠ .entered trapno counter := by
  unfold proceed at h
  unfold assigns
  cases hpoint : process.point with
  | user => simp [hpoint] at h
  | exited => simp [hpoint] at h
  | handling =>
    simp only [hpoint, Option.some.injEq, Prod.mk.injEq] at h
    obtain ⟨rfl, rfl⟩ := h
    exact .inr ⟨rfl, rfl, process.leave_point⟩
  | entered trapno counter =>
    simp only [hpoint] at h
    by_cases hsyscall : trapno = tSyscall
    · rw [if_pos hsyscall] at h
      cases hkilled : process.killed with
      | true =>
        rw [if_pos hkilled] at h
        obtain ⟨rfl, rfl⟩ := Prod.mk.inj (Option.some.inj h)
        exact .inr ⟨by simp, rfl, by simp⟩
      | false =>
        rw [if_neg (by simp [hkilled])] at h
        obtain ⟨rfl, rfl⟩ := Prod.mk.inj (Option.some.inj h)
        exact .inl ⟨counter, by simp [hsyscall], rfl, ⟨trapno, rfl⟩, rfl⟩
    · rw [if_neg hsyscall] at h
      obtain ⟨rfl, rfl⟩ := Prod.mk.inj (Option.some.inj h)
      exact .inr ⟨if_neg fun hboth ↦ hsyscall hboth.1, rfl, Process.leave_point _⟩

/-- The assignment is the only step that changes `syscall_count`, and a process inside `trap` has
the counter it had or has just read it. -/
theorem trap_cases (h : trap count process action = some (count', process')) :
    (∃ counter, assigns process action = some counter ∧ count' = counter + 1 ∧
        (∃ trapno, process.point = .entered trapno counter) ∧ process'.point = .handling) ∨
      assigns process action = none ∧ count' = count ∧
        ∀ trapno counter, process'.point = .entered trapno counter →
          process.point = .entered trapno counter ∨ counter = count := by
  cases action with
  | trap trapno =>
    rw [trap] at h
    by_cases huser : process.point = .user
    · rw [if_pos huser] at h
      obtain ⟨rfl, rfl⟩ := Prod.mk.inj (Option.some.inj h)
      refine .inr ⟨by simp [assigns, huser], rfl, fun trapno' counter hpoint ↦ .inr ?_⟩
      exact (TrapPoint.entered.inj hpoint).2.symm
    · rw [if_neg huser] at h
      contradiction
  | proceed =>
    refine (proceed_cases h).imp_right fun hcases ↦ ⟨hcases.1, hcases.2.1, ?_⟩
    exact fun trapno counter hpoint ↦ absurd hpoint (hcases.2.2 trapno counter)
  | exit =>
    rw [trap] at h
    by_cases hhandling : process.point = .handling
    · rw [if_pos hhandling] at h
      obtain ⟨rfl, rfl⟩ := Prod.mk.inj (Option.some.inj h)
      exact .inr ⟨by simp [assigns], rfl, by simp⟩
    · rw [if_neg hhandling] at h
      contradiction
  | kill =>
    obtain ⟨rfl, rfl⟩ := Prod.mk.inj (Option.some.inj h)
    exact .inr ⟨by simp [assigns], rfl, fun _ _ hpoint ↦ .inl hpoint⟩

/-! ## Runs -/

/-- After `n` assignments `syscall_count` has grown by `grown`, at most `n`, and by `n` exactly as
long as no assignment was disturbed. A process inside `trap` has read less than `n`, or the
present count. -/
structure Tracked (init : Word) (kernel : Kernel Pid) (n grown : ℕ) (good : Prop) : Prop where
  le : grown ≤ n
  count : kernel.shared = init + BitVec.ofNat 32 grown
  exact : grown = n ↔ good
  read : ∀ pid trapno counter, (kernel.locals pid).point = .entered trapno counter →
    ∃ value, counter = init + BitVec.ofNat 32 value ∧ (value < n ∨ value = grown)

variable {init : Word} {kernel next : Kernel Pid} {n grown : ℕ} {good : Prop}
  {move : Pid × TrapAction}

/-- Numbers below 2^31 are told apart by their words. -/
theorem add_ofNat_inj {first second : ℕ} (hfirst : first < 2 ^ 31) (hsecond : second < 2 ^ 31) :
    init + BitVec.ofNat 32 first = init + BitVec.ofNat 32 second ↔ first = second := by
  rw [BitVec.add_right_inj, BitVec.toNat_eq, BitVec.toNat_ofNat, BitVec.toNat_ofNat]
  omega

theorem Tracked.step (h : Tracked init kernel n grown good)
    (hfew : n + (if counts kernel move then 1 else 0) < 2 ^ 31)
    (hstep : kernel.step trap move = some next) :
    ∃ grown, Tracked init next (n + if counts kernel move then 1 else 0) grown
      (good ∧ Undisturbed kernel move) := by
  obtain ⟨count', process', hcode, rfl⟩ := System.step_eq_some hstep
  unfold counts at hfew ⊢
  unfold Undisturbed
  rcases trap_cases hcode with ⟨counter, hassigns, rfl, ⟨trapno, hpoint⟩, hhandling⟩ |
    ⟨hassigns, rfl, hentered⟩
  · obtain ⟨value, rfl, hvalue⟩ := h.read move.1 trapno counter hpoint
    have hle := h.le
    rw [hassigns, Option.isSome_some, if_pos rfl] at hfew
    simp only [hassigns, Option.isSome_some, if_true, Option.mem_def, Option.some.injEq,
      forall_eq']
    refine ⟨value + 1, by omega, ?_, ?_, ?_⟩
    · rw [BitVec.ofNat_add, BitVec.add_assoc]
      rfl
    · rw [h.count, add_ofNat_inj (by omega) (by omega), ← h.exact]
      omega
    · intro pid
      refine forall_update (fun _ (own : Process) ↦ ∀ trapno counter,
        own.point = .entered trapno counter → ∃ value, counter = init + BitVec.ofNat 32 value ∧
          (value < n + 1 ∨ value = _)) ?_ ?_ pid
      · simp [hhandling]
      · intro other _ trapno counter hother
        obtain ⟨value', hcounter, hvalue'⟩ := h.read other trapno counter hother
        exact ⟨value', hcounter, by omega⟩
  · simp only [hassigns, Option.isSome_none, Bool.false_eq_true, if_false, Nat.add_zero,
      Option.mem_def, reduceCtorEq, false_imp_iff, implies_true, and_true]
    refine ⟨grown, h.le, h.count, h.exact, fun pid ↦ ?_⟩
    refine forall_update (fun _ (own : Process) ↦ ∀ trapno counter,
      own.point = .entered trapno counter → ∃ value, counter = init + BitVec.ofNat 32 value ∧
        (value < n ∨ value = grown)) ?_ (fun other _ ↦ h.read other) pid
    intro trapno counter hpoint
    rcases hentered trapno counter hpoint with hbefore | hcount
    · exact h.read move.1 trapno counter hbefore
    · exact ⟨grown, hcount.trans h.count, .inr rfl⟩

theorem Tracked.run {final : Kernel Pid} (h : Tracked init kernel n grown good)
    (moves : List (Pid × TrapAction)) (hrun : Run.run (System.step trap) kernel moves = some final)
    (hfew : n + tally (System.step trap) counts kernel moves < 2 ^ 31) :
    ∃ grown, Tracked init final (n + tally (System.step trap) counts kernel moves) grown
      (good ∧ Guarded (System.step trap) Undisturbed kernel moves) := by
  induction moves generalizing kernel n grown good with
  | nil =>
    cases Option.some.inj hrun
    simp only [tally, Guarded, Nat.add_zero, and_true]
    exact ⟨grown, h⟩
  | cons move rest ih =>
    obtain ⟨next, hnext, hrest⟩ := Option.bind_eq_some_iff.mp hrun
    rw [tally_cons rest hnext, ← Nat.add_assoc] at hfew ⊢
    rw [guarded_cons_iff rest hnext, ← and_assoc]
    obtain ⟨grown', htracked⟩ := h.step (by omega) hnext
    exact ih htracked hrest hfew

/-- `syscall_count` is exact, and so is what `sys_getcount` returns, if and only if no assignment
was disturbed. -/
theorem syscall_count_exact_iff_undisturbed (kernel final : Kernel Pid)
    (huser : ∀ pid, (kernel.locals pid).point = .user) (moves : List (Pid × TrapAction))
    (hrun : Run.run (System.step trap) kernel moves = some final)
    (hfew : tally (System.step trap) counts kernel moves < 2 ^ 31) :
    (final.shared =
        kernel.shared + BitVec.ofNat 32 (tally (System.step trap) counts kernel moves) ∧
      (kernel.shared = 0 →
        sysGetcount final.shared = tally (System.step trap) counts kernel moves)) ↔
      Guarded (System.step trap) Undisturbed kernel moves := by
  have hstart : Tracked kernel.shared kernel 0 0 True :=
    ⟨le_rfl, by simp, by simp, by simp [huser]⟩
  obtain ⟨grown, htracked⟩ := hstart.run moves hrun (by omega)
  have hle := htracked.le
  have hexact := htracked.exact
  rw [Nat.zero_add] at hle hexact
  rw [true_and] at hexact
  rw [← hexact, htracked.count, add_ofNat_inj (by omega) hfew, and_iff_left_iff_imp]
  intro heq hzero
  have hvalue : (kernel.shared + BitVec.ofNat 32 grown).toInt = grown := by
    rw [hzero, zero_add, BitVec.toInt_eq_toNat_of_lt, BitVec.toNat_ofNat,
      Nat.mod_eq_of_lt (by omega)]
    rw [BitVec.toNat_ofNat]
    omega
  unfold sysGetcount
  rw [hvalue, if_pos (by omega), heq]

end Counting

/-! ## Two processes -/

local instance neZeroProcesses : NeZero 2 := ⟨by decide⟩

/-- Two processes in user mode on a machine that has just booted. -/
def booted : Kernel (Fin 2) := ⟨0, fun _ ↦ ⟨false, .user⟩⟩

/-- One system call after the other. -/
def inTurn : List (Fin 2 × TrapAction) :=
  [(0, .trap 64), (0, .proceed), (1, .trap 64), (1, .proceed)]

theorem inTurn_counted : ∃ final, Run.run (System.step trap) booted inTurn = some final ∧
    sysGetcount final.shared = 2 := by
  have hdefined : (Run.run (System.step trap) booted inTurn).isSome := by decide +kernel
  have htally : tally (System.step trap) counts booted inTurn = 2 := by decide +kernel
  have hundisturbed : Guarded (System.step trap) Undisturbed booted inTurn := by decide +kernel
  obtain ⟨final, hfinal⟩ := Option.isSome_iff_exists.mp hdefined
  have hcount := (syscall_count_exact_iff_undisturbed booted final (fun _ ↦ rfl) inTurn hfinal
    (by rw [htally]; decide)).mpr hundisturbed
  rw [htally] at hcount
  exact ⟨final, hfinal, hcount.2 rfl⟩

/-- Both processes enter `trap` before one of them assigns. -/
def switched : List (Fin 2 × TrapAction) :=
  [(0, .trap 64), (1, .trap 64), (1, .proceed), (0, .proceed)]

/-- Two system calls are counted as one. -/
theorem switched_lost : ∃ final, Run.run (System.step trap) booted switched = some final ∧
    (∀ pid, (final.locals pid).point = .handling) ∧
    tally (System.step trap) counts booted switched = 2 ∧ final.shared = 1 ∧
    sysGetcount final.shared ≠ 2 := by
  have hpoints : ∀ pid, (Run.run (System.step trap) booted switched).map
      (fun final ↦ (final.locals pid).point) = some .handling := by
    decide +kernel
  have hshared : (Run.run (System.step trap) booted switched).map (·.shared) = some 1 := by
    decide +kernel
  obtain ⟨final, hfinal, hcount⟩ := Option.map_eq_some_iff.mp hshared
  refine ⟨final, hfinal, fun pid ↦ ?_, by decide +kernel, hcount, by rw [hcount]; decide⟩
  have hpoint := hpoints pid
  rwa [hfinal, Option.map_some, Option.some.injEq] at hpoint

end OS537.Traps
