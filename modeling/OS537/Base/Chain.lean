import Mathlib.Data.List.Nodup
import Mathlib.Data.List.Perm.Basic

/-!
# Singly linked lists

A list in memory is a function `next` that gives the successor of each node. `Path next a nodes b`
says that the walk from `a` visits `nodes` in order and arrives at `b`. A change of `next` is known
by its values at the nodes it touches; everywhere else the new function agrees with the old one.
-/

namespace OS537.Chain

variable {α : Type}

/-- The walk along `next` from the first node visits the list and ends at the last argument. -/
def Path (next : α → α) : α → List α → α → Prop
  | start, [], finish => start = finish
  | start, node :: rest, finish => start = node ∧ Path next (next node) rest finish

instance Path.decidable [DecidableEq α] (next : α → α) :
    (start : α) → (nodes : List α) → (finish : α) → Decidable (Path next start nodes finish)
  | start, [], finish => inferInstanceAs (Decidable (start = finish))
  | start, node :: rest, finish =>
    have := Path.decidable next (next node) rest finish
    inferInstanceAs (Decidable (start = node ∧ Path next (next node) rest finish))

variable {next next' : α → α} {start finish : α} {first second : List α} {node : α}

theorem path_append :
    Path next start (first ++ second) finish ↔
      ∃ middle, Path next start first middle ∧ Path next middle second finish := by
  induction first generalizing start with
  | nil =>
    constructor
    · intro h
      exact ⟨start, rfl, h⟩
    · rintro ⟨middle, rfl, h⟩
      exact h
  | cons node rest ih =>
    constructor
    · rintro ⟨hstart, hrest⟩
      obtain ⟨middle, hfirst, hsecond⟩ := ih.mp hrest
      exact ⟨middle, ⟨hstart, hfirst⟩, hsecond⟩
    · rintro ⟨middle, ⟨hstart, hfirst⟩, hsecond⟩
      exact ⟨hstart, ih.mpr ⟨middle, hfirst, hsecond⟩⟩

theorem Path.congr (h : Path next start first finish)
    (hnext : ∀ node ∈ first, next' node = next node) : Path next' start first finish := by
  induction first generalizing start with
  | nil => exact h
  | cons node rest ih =>
    refine ⟨h.1, ?_⟩
    rw [hnext node List.mem_cons_self]
    exact ih h.2 fun other hother ↦ hnext other (List.mem_cons_of_mem node hother)

/-- A node is put in front of the list. -/
theorem Path.push (h : Path next start first finish)
    (hnext : ∀ node ∈ first, next' node = next node) (hnode : next' node = start) :
    Path next' node (node :: first) finish := by
  refine ⟨rfl, ?_⟩
  rw [hnode]
  exact h.congr hnext

end OS537.Chain
