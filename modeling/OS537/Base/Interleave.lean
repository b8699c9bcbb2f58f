import OS537.Base.Run
import Mathlib.Algebra.BigOperators.Group.Finset.Basic

/-!
# Interleavings

Any number of threads run the same code over a shared state, one atomic step at a time. A step of
one thread leaves the local states of all others alone; this is said once, for statements about
every thread, about two threads at once, and about sums over all threads.
-/

namespace OS537.Interleave

open Run

variable {Thread Shared Local Action : Type*} [DecidableEq Thread]

structure System (Thread Shared Local : Type*) where
  shared : Shared
  locals : Thread → Local

/-- One atomic step of one thread; `none` where the thread cannot take this step. -/
def System.step (code : Shared → Local → Action → Option (Shared × Local))
    (system : System Thread Shared Local) (move : Thread × Action) :
    Option (System Thread Shared Local) :=
  (code system.shared (system.locals move.1) move.2).map fun result ↦
    ⟨result.1, Function.update system.locals move.1 result.2⟩

variable {code : Shared → Local → Action → Option (Shared × Local)}
  {system next : System Thread Shared Local} {thread : Thread} {action : Action}

theorem System.step_eq_some (h : system.step code (thread, action) = some next) :
    ∃ shared own, code system.shared (system.locals thread) action = some (shared, own) ∧
      next = ⟨shared, Function.update system.locals thread own⟩ := by
  obtain ⟨⟨shared, own⟩, hcode, rfl⟩ := Option.map_eq_some_iff.mp h
  exact ⟨shared, own, hcode, rfl⟩

/-- A statement about every thread: the thread that moved, and the others under the new shared
state. -/
theorem forall_update (holds : Thread → Local → Prop) {locals : Thread → Local} {own : Local}
    (hown : holds thread own) (hothers : ∀ other ≠ thread, holds other (locals other)) :
    ∀ other, holds other (Function.update locals thread own other) := by
  intro other
  by_cases hother : other = thread
  · rwa [hother, Function.update_self]
  · rw [Function.update_of_ne hother]
    exact hothers other hother

/-- At most one thread is in a section: it stays so if the thread that moved is outside, or all
others are. -/
theorem exclusive_update {inside : Local → Prop} {locals : Thread → Local} {own : Local}
    (hexclusive : ∀ first second, inside (locals first) → inside (locals second) → first = second)
    (hown : inside own → ∀ other ≠ thread, ¬ inside (locals other)) :
    ∀ first second, inside (Function.update locals thread own first) →
      inside (Function.update locals thread own second) → first = second := by
  intro first second hfirst hsecond
  by_cases hf : first = thread
  · by_cases hs : second = thread
    · rw [hf, hs]
    · rw [hf, Function.update_self] at hfirst
      rw [Function.update_of_ne hs] at hsecond
      exact absurd hsecond (hown hfirst second hs)
  · rw [Function.update_of_ne hf] at hfirst
    by_cases hs : second = thread
    · rw [hs, Function.update_self] at hsecond
      exact absurd hfirst (hown hsecond first hf)
    · rw [Function.update_of_ne hs] at hsecond
      exact hexclusive first second hfirst hsecond

/-- A step changes the sum over all threads by what it changes in one of them. -/
theorem sum_update [Fintype Thread] {Weight : Type*} [AddCommMonoid Weight]
    (weight : Local → Weight) (locals : Thread → Local) (thread : Thread) (own : Local) :
    (∑ other, weight (Function.update locals thread own other)) + weight (locals thread) =
      (∑ other, weight (locals other)) + weight own := by
  have hrest : ∑ other ∈ Finset.univ.erase thread,
      weight (Function.update locals thread own other) =
        ∑ other ∈ Finset.univ.erase thread, weight (locals other) := by
    apply Finset.sum_congr rfl
    intro other hother
    rw [Function.update_of_ne (Finset.ne_of_mem_erase hother)]
  rw [← Finset.add_sum_erase _ _ (Finset.mem_univ thread), hrest, Function.update_self,
    ← Finset.add_sum_erase _ (fun other ↦ weight (locals other)) (Finset.mem_univ thread)]
  rw [add_comm (weight own), add_comm (weight (locals thread)) (∑ _ ∈ _, _), add_right_comm]

end OS537.Interleave
