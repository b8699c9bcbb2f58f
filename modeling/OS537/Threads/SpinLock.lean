import OS537.Base.Bytes
import OS537.Base.Interleave

/-!
# The user-level spin lock

`lock_init`, `lock_acquire` and `lock_release` of `4/xv6/change/thread.c`, as `counter_inc` of
`threadtest.c` uses them. Each `xchg` is one atomic step, and so are the load and the store of
`counter++`; what a thread does with its own variables only is a step of its own as well.
-/

namespace OS537.Threads

open Bytes Interleave Run

/-- The lock's flag and the counter. -/
structure Memory where
  flag : Word
  counter : Word

/-- `xchg(&lock->flag, newval)` returns the old flag. -/
def xchg (memory : Memory) (newval : Word) : Word × Memory :=
  (memory.flag, { memory with flag := newval })

def lockInit (memory : Memory) : Memory := (xchg memory 0).2

/-- Where a thread is in the loop of `counter_inc`. -/
inductive LoopPoint where
  | test
  | acquire
  | load
  | store
  | release
  | next
  | finished
deriving DecidableEq

/-- A thread in `counter_inc`, with its argument, its loop variable and the register that holds the
counter during `counter++`. -/
structure Incrementer where
  a : Word
  i : Word
  value : Word
  point : LoopPoint

/-- One step of `counter_inc`. -/
def counterInc (memory : Memory) (thread : Incrementer) (_ : Unit) :
    Option (Memory × Incrementer) :=
  match thread.point with
  | .test =>
    if thread.i.toInt < thread.a.toInt then some (memory, { thread with point := .acquire })
    else some (memory, { thread with point := .finished })
  | .acquire =>
    -- `while(xchg(&lock->flag, 1) == 1)`
    let (old, memory) := xchg memory 1
    if old = 1 then some (memory, thread) else some (memory, { thread with point := .load })
  | .load => some (memory, { thread with value := memory.counter, point := .store })
  | .store => some ({ memory with counter := thread.value + 1 }, { thread with point := .release })
  | .release => some ((xchg memory 0).2, { thread with point := .next })
  | .next => some (memory, { thread with i := thread.i + 1, point := .test })
  | .finished => none

/-- The thread is between its successful acquire and its release. -/
def Incrementer.Inside (thread : Incrementer) : Prop :=
  thread.point = .load ∨ thread.point = .store ∨ thread.point = .release

/-- The number of iterations of `for(i = 0; i < (int)a; i++)`. -/
def iterations (a : Word) : ℕ := a.toInt.toNat

/-- The threads at the start of `counter_inc`, after `lock_init`. -/
def started {Thread : Type} (memory : Memory) (args : Thread → Word) :
    System Thread Memory Incrementer :=
  ⟨lockInit memory, fun thread ↦ ⟨args thread, 0, 0, .test⟩⟩

/-! ## The loop of one thread -/

/-- The increments that a thread has stored. -/
def Incrementer.stored (thread : Incrementer) : ℕ :=
  if thread.point = .release ∨ thread.point = .next then thread.i.toNat + 1 else thread.i.toNat

/-- The loop variable counts the iterations: it is below the bound inside the body, and at the bound
at the end. -/
def Incrementer.Bounded (thread : Incrementer) : Prop :=
  match thread.point with
  | .test => thread.i.toNat ≤ iterations thread.a
  | .finished => thread.i.toNat = iterations thread.a
  | _ => thread.i.toNat < iterations thread.a

theorem iterations_lt (a : Word) : iterations a < 2 ^ 31 := by
  have hlt := BitVec.toInt_lt (x := a)
  unfold iterations
  omega

theorem toInt_eq_of_le {a i : Word} (h : i.toNat ≤ iterations a) : i.toInt = i.toNat := by
  have hlt := iterations_lt a
  apply BitVec.toInt_eq_toNat_of_lt
  omega

theorem succ_toNat_of_lt {a i : Word} (h : i.toNat < iterations a) :
    (i + 1).toNat = i.toNat + 1 := by
  have hlt := iterations_lt a
  have hone : (1 : Word).toNat = 1 := rfl
  rw [BitVec.toNat_add, hone, Nat.mod_eq_of_lt (by omega)]

/-- What one step can do. -/
inductive Moves (memory : Memory) (thread : Incrementer) : Memory → Incrementer → Prop where
  | enter (hpoint : thread.point = .test) (hlt : thread.i.toInt < thread.a.toInt) :
      Moves memory thread memory { thread with point := .acquire }
  | finish (hpoint : thread.point = .test) (hle : thread.a.toInt ≤ thread.i.toInt) :
      Moves memory thread memory { thread with point := .finished }
  | spin (hpoint : thread.point = .acquire) (hflag : memory.flag = 1) :
      Moves memory thread memory thread
  | take (hpoint : thread.point = .acquire) (hflag : memory.flag ≠ 1) :
      Moves memory thread { memory with flag := 1 } { thread with point := .load }
  | load (hpoint : thread.point = .load) :
      Moves memory thread memory { thread with value := memory.counter, point := .store }
  | store (hpoint : thread.point = .store) :
      Moves memory thread { memory with counter := thread.value + 1 }
        { thread with point := .release }
  | release (hpoint : thread.point = .release) :
      Moves memory thread { memory with flag := 0 } { thread with point := .next }
  | again (hpoint : thread.point = .next) :
      Moves memory thread memory { thread with i := thread.i + 1, point := .test }

theorem counterInc_moves {memory memory' : Memory} {thread thread' : Incrementer}
    (h : counterInc memory thread () = some (memory', thread')) :
    Moves memory thread memory' thread' := by
  unfold counterInc at h
  cases hpoint : thread.point with
  | test =>
    rw [hpoint] at h
    by_cases hlt : thread.i.toInt < thread.a.toInt
    · simp only [if_pos hlt, Option.some.injEq, Prod.mk.injEq] at h
      obtain ⟨rfl, rfl⟩ := h
      exact .enter hpoint hlt
    · simp only [if_neg hlt, Option.some.injEq, Prod.mk.injEq] at h
      obtain ⟨rfl, rfl⟩ := h
      exact .finish hpoint (not_lt.mp hlt)
  | acquire =>
    rw [hpoint] at h
    by_cases hflag : memory.flag = 1
    · change (if memory.flag = 1 then _ else _) = _ at h
      rw [if_pos hflag] at h
      obtain ⟨rfl, rfl⟩ := Prod.mk.inj (Option.some.inj h)
      have hsame : ({ flag := 1, counter := memory.counter } : Memory) = memory := by
        rw [← hflag]
      rw [hsame]
      exact .spin hpoint hflag
    · change (if memory.flag = 1 then _ else _) = _ at h
      rw [if_neg hflag] at h
      obtain ⟨rfl, rfl⟩ := Prod.mk.inj (Option.some.inj h)
      exact .take hpoint hflag
  | load =>
    rw [hpoint] at h
    obtain ⟨rfl, rfl⟩ := Prod.mk.inj (Option.some.inj h)
    exact .load hpoint
  | store =>
    rw [hpoint] at h
    obtain ⟨rfl, rfl⟩ := Prod.mk.inj (Option.some.inj h)
    exact .store hpoint
  | release =>
    rw [hpoint] at h
    obtain ⟨rfl, rfl⟩ := Prod.mk.inj (Option.some.inj h)
    exact .release hpoint
  | next =>
    rw [hpoint] at h
    obtain ⟨rfl, rfl⟩ := Prod.mk.inj (Option.some.inj h)
    exact .again hpoint
  | finished =>
    rw [hpoint] at h
    contradiction

section Moves

variable {memory memory' : Memory} {thread thread' : Incrementer}

theorem Moves.arg (h : Moves memory thread memory' thread') : thread'.a = thread.a := by
  cases h <;> rfl

theorem Moves.bounded (h : Moves memory thread memory' thread') (hbounded : thread.Bounded) :
    thread'.Bounded := by
  unfold Incrementer.Bounded at hbounded ⊢
  cases h with
  | enter hpoint hlt =>
    simp only [hpoint] at hbounded ⊢
    rw [toInt_eq_of_le hbounded] at hlt
    unfold iterations
    omega
  | finish hpoint hle =>
    simp only [hpoint] at hbounded ⊢
    rw [toInt_eq_of_le hbounded] at hle
    unfold iterations at hbounded ⊢
    omega
  | again hpoint =>
    simp only [hpoint] at hbounded ⊢
    rw [succ_toNat_of_lt hbounded]
    exact hbounded
  | spin hpoint | take hpoint | load hpoint | store hpoint | release hpoint =>
    simp only [hpoint] at hbounded ⊢
    exact hbounded

/-- Only the store adds to the counter, and it adds one to the register. -/
theorem Moves.stored (h : Moves memory thread memory' thread') (hbounded : thread.Bounded) :
    thread'.stored = thread.stored ∧ memory'.counter = memory.counter ∨
      thread.point = .store ∧ thread'.stored = thread.stored + 1 ∧
        memory'.counter = thread.value + 1 := by
  unfold Incrementer.Bounded at hbounded
  cases h with
  | store hpoint => exact .inr ⟨hpoint, by simp [Incrementer.stored, hpoint], rfl⟩
  | again hpoint =>
    simp only [hpoint] at hbounded
    have hsucc := succ_toNat_of_lt hbounded
    exact .inl ⟨by simp only [Incrementer.stored, hpoint, hsucc, reduceCtorEq, or_true, or_false,
      if_true, if_false], rfl⟩
  | enter hpoint | finish hpoint | spin hpoint | take hpoint | load hpoint | release hpoint =>
    exact .inl ⟨by simp [Incrementer.stored, hpoint], rfl⟩

/-- A step leaves the lock alone, or takes it while the flag is not 1, or gives it back. -/
theorem Moves.lock (h : Moves memory thread memory' thread') :
    (thread'.Inside → thread.Inside) ∧ memory'.flag = memory.flag ∨
      memory.flag ≠ 1 ∧ memory'.flag = 1 ∨
      thread.Inside ∧ ¬ thread'.Inside := by
  cases h with
  | take hpoint hflag => exact .inr (.inl ⟨hflag, rfl⟩)
  | release hpoint => exact .inr (.inr ⟨by simp [Incrementer.Inside, hpoint],
      by simp [Incrementer.Inside]⟩)
  | enter hpoint | finish hpoint | spin hpoint | load hpoint | store hpoint | again hpoint =>
    exact .inl ⟨by simp [Incrementer.Inside, hpoint], rfl⟩

theorem Moves.fresh (h : Moves memory thread memory' thread') (hpoint : thread'.point = .store) :
    thread'.value = memory'.counter := by
  cases h with
  | load => rfl
  | spin hacquire => simp [hacquire] at hpoint
  | enter | finish | take | store | release | again => contradiction

end Moves

/-! ## All threads -/

section Threads

variable {Thread : Type} [Fintype Thread] [DecidableEq Thread]

/-- A thread inside holds the lock, alone; before its store it has the current counter in its
register; and the counter is the sum of all increments. -/
structure Consistent (counter : Word) (args : Thread → Word)
    (system : System Thread Memory Incrementer) : Prop where
  arg : ∀ thread, (system.locals thread).a = args thread
  bounded : ∀ thread, (system.locals thread).Bounded
  locked : ∀ thread, (system.locals thread).Inside → system.shared.flag = 1
  exclusive : ∀ first second, (system.locals first).Inside → (system.locals second).Inside →
    first = second
  fresh : ∀ thread, (system.locals thread).point = .store →
    (system.locals thread).value = system.shared.counter
  total : system.shared.counter =
    counter + BitVec.ofNat 32 (∑ thread, (system.locals thread).stored)

variable {counter : Word} {args : Thread → Word} {system : System Thread Memory Incrementer}
  {memory : Memory} {own : Incrementer} {thread : Thread}

theorem Consistent.locked_step (h : Consistent counter args system)
    (hmoves : Moves system.shared (system.locals thread) memory own) :
    ∀ other, (Function.update system.locals thread own other).Inside → memory.flag = 1 := by
  apply forall_update fun _ (own : Incrementer) ↦ own.Inside → memory.flag = 1
  · intro hinside
    rcases hmoves.lock with ⟨hbefore, hflag⟩ | ⟨-, hflag⟩ | ⟨-, houtside⟩
    · exact hflag.trans (h.locked thread (hbefore hinside))
    · exact hflag
    · exact absurd hinside houtside
  · intro other hother hinside
    have hheld := h.locked other hinside
    rcases hmoves.lock with ⟨-, hflag⟩ | ⟨-, hflag⟩ | ⟨hthread, -⟩
    · exact hflag.trans hheld
    · exact hflag
    · exact absurd (h.exclusive other thread hinside hthread) hother

theorem Consistent.exclusive_step (h : Consistent counter args system)
    (hmoves : Moves system.shared (system.locals thread) memory own) :
    ∀ first second, (Function.update system.locals thread own first).Inside →
      (Function.update system.locals thread own second).Inside → first = second := by
  apply exclusive_update h.exclusive
  intro hinside other hother hinsideOther
  rcases hmoves.lock with ⟨hbefore, -⟩ | ⟨hfree, -⟩ | ⟨-, houtside⟩
  · exact hother (h.exclusive other thread hinsideOther (hbefore hinside))
  · exact hfree (h.locked other hinsideOther)
  · exact houtside hinside

/-- The counter moves only under a store, and then every other thread is outside. -/
theorem Consistent.fresh_step (h : Consistent counter args system)
    (hmoves : Moves system.shared (system.locals thread) memory own) :
    ∀ other, (Function.update system.locals thread own other).point = .store →
      (Function.update system.locals thread own other).value = memory.counter := by
  apply forall_update fun _ (own : Incrementer) ↦ own.point = .store → own.value = memory.counter
  · exact hmoves.fresh
  · intro other hother hpoint
    rcases hmoves.stored (h.bounded thread) with ⟨-, hcounter⟩ | ⟨hstore, -⟩
    · exact (h.fresh other hpoint).trans hcounter.symm
    · have hsame := h.exclusive other thread (.inr (.inl hpoint)) (.inr (.inl hstore))
      exact absurd hsame hother

theorem Consistent.total_step (h : Consistent counter args system)
    (hmoves : Moves system.shared (system.locals thread) memory own) :
    memory.counter = counter + BitVec.ofNat 32
      (∑ other, (Function.update system.locals thread own other).stored) := by
  have hsum := sum_update Incrementer.stored system.locals thread own
  rcases hmoves.stored (h.bounded thread) with ⟨hstored, hcounter⟩ | ⟨hstore, hstored, hcounter⟩
  · rw [hstored, Nat.add_right_cancel_iff] at hsum
    rw [hcounter, hsum, h.total]
  · have hsucc : ∑ other, (Function.update system.locals thread own other).stored =
        (∑ other, (system.locals other).stored) + 1 := by omega
    rw [hcounter, h.fresh thread hstore, h.total, hsucc, BitVec.ofNat_add, BitVec.add_assoc]
    rfl

theorem Consistent.step {next : System Thread Memory Incrementer} {move : Thread × Unit}
    (h : Consistent counter args system) (hstep : system.step counterInc move = some next) :
    Consistent counter args next := by
  obtain ⟨memory, own, hcode, rfl⟩ := System.step_eq_some hstep
  have hmoves := counterInc_moves hcode
  refine ⟨?_, ?_, h.locked_step hmoves, h.exclusive_step hmoves, h.fresh_step hmoves,
    h.total_step hmoves⟩
  · exact forall_update (fun thread (own : Incrementer) ↦ own.a = args thread)
      (hmoves.arg.trans (h.arg move.1)) fun other _ ↦ h.arg other
  · exact forall_update (fun _ (own : Incrementer) ↦ own.Bounded)
      (hmoves.bounded (h.bounded move.1))
      fun other _ ↦ h.bounded other

omit [DecidableEq Thread] in
theorem started_consistent (memory : Memory) (args : Thread → Word) :
    Consistent memory.counter args (started memory args) := by
  refine ⟨fun _ ↦ rfl, fun _ ↦ Nat.zero_le _, ?_, ?_, ?_, ?_⟩
  · simp [started, Incrementer.Inside]
  · simp [started, Incrementer.Inside]
  · simp [started]
  · simp [started, Incrementer.stored, lockInit, xchg]

/-- In every interleaving at most one thread is between its acquire and its release, and when all
threads have finished, the counter has grown by the sum of their iterations. -/
theorem counter_inc_exclusive_exact (memory : Memory) (args : Thread → Word)
    (schedule : List (Thread × Unit)) (final : System Thread Memory Incrementer)
    (hrun : run (System.step counterInc) (started memory args) schedule = some final) :
    (∀ first second, (final.locals first).Inside → (final.locals second).Inside →
        first = second) ∧
      ((∀ thread, (final.locals thread).point = .finished) →
        final.shared.counter = memory.counter +
          BitVec.ofNat 32 (∑ thread, iterations (args thread))) := by
  have hconsistent : Consistent memory.counter args final :=
    invariant_of_run (fun _ _ _ h hstep ↦ h.step hstep) schedule
      (started_consistent memory args) hrun
  refine ⟨hconsistent.exclusive, fun hfinished ↦ ?_⟩
  have hsum : ∑ thread, (final.locals thread).stored = ∑ thread, iterations (args thread) := by
    apply Finset.sum_congr rfl
    intro thread _
    have hbounded := hconsistent.bounded thread
    simp only [Incrementer.Bounded, hfinished thread] at hbounded
    simp [Incrementer.stored, hfinished thread, hbounded, hconsistent.arg]
  rw [hconsistent.total, hsum]

end Threads

/-- Two threads with two iterations and one, which spin on each other's lock. -/
def contended : List (Fin 2 × Unit) :=
  [0, 1, 0, 1, 0, 1, 0, 0, 1, 0, 1, 0, 0, 1, 1, 0, 1, 1, 0, 0, 0, 0, 0].map (·, ())

def contenders : System (Fin 2) Memory Incrementer :=
  started ⟨7, 40⟩ fun thread ↦ if thread = 0 then 2 else 1

/-- The three increments of the contending threads are all counted. -/
theorem contended_counter : ∃ final,
    run (System.step counterInc) contenders contended = some final ∧
      (∀ thread, (final.locals thread).point = .finished) ∧ final.shared.counter = 43 := by
  have hdefined : (run (System.step counterInc) contenders contended).isSome := by
    decide +kernel
  have hpoints : ∀ thread, (run (System.step counterInc) contenders contended).map
      (fun final ↦ (final.locals thread).point) = some .finished := by
    decide +kernel
  obtain ⟨final, hfinal⟩ := Option.isSome_iff_exists.mp hdefined
  have hfinished : ∀ thread, (final.locals thread).point = .finished := by
    intro thread
    have hpoint := hpoints thread
    rwa [hfinal, Option.map_some, Option.some.injEq] at hpoint
  have hcounter := (counter_inc_exclusive_exact _ _ contended final hfinal).2 hfinished
  have hsum : (40 : Word) + BitVec.ofNat 32
      (∑ thread : Fin 2, iterations (if thread = 0 then 2 else 1)) = 43 := by
    decide
  exact ⟨final, hfinal, hfinished, hcounter.trans hsum⟩

end OS537.Threads
