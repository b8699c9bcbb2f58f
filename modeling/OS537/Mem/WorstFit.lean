import OS537.Base.Chain
import OS537.Mem.Allocator

/-!
# The search for the worst fit

The loop of `getWorstFit` over a free list of any nodes and any sizes. It ends with the first node
whose size is maximal, and with the node before that one in `listPrev`, which `chunkNode` relies on.
A list without a cycle is one whose walk from `headFree` comes to `NULL`.
-/

namespace OS537.Mem

open Bytes Chain Code

variable {heap : Heap} {nodes visited rest before after : List Ptr} {node other worst start : Ptr}

/-- `node->size` -/
def sizeIn (heap : Heap) (node : Ptr) : ℤ := (load32 heap.mem node.toNat).toInt

/-- `node->next` -/
def nextIn (heap : Heap) (node : Ptr) : Ptr := load64 heap.mem (node.toNat + 8)

/-- The free list consists of these nodes, in order. -/
structure IsList (heap : Heap) (nodes : List Ptr) : Prop where
  path : Path (nextIn heap) heap.headFree nodes 0
  not_null : ∀ node ∈ nodes, node ≠ 0

def Heap.setPrev (heap : Heap) (prev : Ptr) : Heap := { heap with listPrev := prev }

/-- The last node, or `NULL`. -/
def lastNode (nodes : List Ptr) : Ptr := nodes.getLast?.getD 0

theorem lastNode_concat (nodes : List Ptr) (node : Ptr) : lastNode (nodes ++ [node]) = node := by
  simp [lastNode]

/-- `worst` is the first node of maximal size, and stands between `before` and `after`. -/
structure FirstMax (heap : Heap) (nodes before after : List Ptr) (worst : Ptr) : Prop where
  split : nodes = before ++ worst :: after
  largest : ∀ node ∈ nodes, sizeIn heap node ≤ sizeIn heap worst
  first : ∀ node ∈ before, sizeIn heap node < sizeIn heap worst

/-- A larger node takes the place of the first maximum. -/
theorem firstMax_concat_of_lt (h : ∀ other ∈ nodes, sizeIn heap other < sizeIn heap node) :
    FirstMax heap (nodes ++ [node]) nodes [] node := by
  refine ⟨rfl, fun other hother ↦ ?_, h⟩
  rcases List.mem_append.mp hother with hold | hnew
  · exact (h other hold).le
  · rw [List.mem_singleton.mp hnew]

/-- A node that is not larger leaves the first maximum alone. -/
theorem FirstMax.concat_of_le (h : FirstMax heap nodes before after worst)
    (hle : sizeIn heap node ≤ sizeIn heap worst) :
    FirstMax heap (nodes ++ [node]) before (after ++ [node]) worst := by
  refine ⟨by rw [h.split]; simp, fun other hother ↦ ?_, h.first⟩
  rcases List.mem_append.mp hother with hold | hnew
  · exact h.largest other hold
  · rw [List.mem_singleton.mp hnew]
    exact hle

theorem FirstMax.mem (h : FirstMax heap nodes before after worst) : worst ∈ nodes := by
  rw [h.split]
  exact List.mem_append_right _ List.mem_cons_self

/-! ## One round -/

theorem isWorse_null (node : Ptr) : isWorse node 0 heap = some (true, heap) := rfl

theorem isWorse_iff (hnode : node ≠ 0) (hworst : worst ≠ 0) :
    isWorse node worst heap =
      some (decide (sizeIn heap worst < sizeIn heap node), heap) := by
  have hread {pointer : Ptr} (hne : pointer ≠ 0) :
      getSize pointer heap = some (load32 heap.mem pointer.toNat, heap) := if_neg hne
  unfold isWorse
  rw [if_neg hworst, bind_run (hread hnode), bind_run (hread hworst)]
  rfl

theorem getNext_setPrev (hnode : node ≠ 0) (prev : Ptr) :
    getNext node (heap.setPrev prev) = some (nextIn heap node, heap.setPrev prev) :=
  if_neg hnode

/-- A node that is worse becomes the worst one, and the node before it `listPrev`. -/
theorem worstFitLoop_of_worse {fuel : ℕ} {prev last : Ptr} (hnode : node ≠ 0)
    (hworse : isWorse node worst (heap.setPrev prev) = some (true, heap.setPrev prev)) :
    worstFitLoop (fuel + 1) worst node last (heap.setPrev prev) =
      worstFitLoop fuel node (nextIn heap node) node (heap.setPrev last) := by
  have hset : setListPrev last (heap.setPrev prev) = some ((), heap.setPrev last) := rfl
  rw [worstFitLoop, if_neg hnode, bind_run hworse, if_pos rfl, bind_run hset,
    bind_run (getNext_setPrev hnode last)]

theorem worstFitLoop_of_not_worse {fuel : ℕ} {prev last : Ptr} (hnode : node ≠ 0)
    (hworse : isWorse node worst (heap.setPrev prev) = some (false, heap.setPrev prev)) :
    worstFitLoop (fuel + 1) worst node last (heap.setPrev prev) =
      worstFitLoop fuel worst (nextIn heap node) node (heap.setPrev prev) := by
  rw [worstFitLoop, if_neg hnode, bind_run hworse, if_neg Bool.false_ne_true,
    bind_run (getNext_setPrev hnode prev)]

/-! ## The loop -/

/-- The loop, after it has visited some nodes. -/
theorem worstFitLoop_rest {fuel : ℕ} (h : FirstMax heap visited before after worst)
    (hpath : Path (nextIn heap) start rest 0) (hnull : ∀ node ∈ visited ++ rest, node ≠ 0)
    (hfuel : rest.length < fuel) :
    ∃ before' after' worst', FirstMax heap (visited ++ rest) before' after' worst' ∧
      worstFitLoop fuel worst start (lastNode visited) (heap.setPrev (lastNode before)) =
        some (worst', heap.setPrev (lastNode before')) := by
  induction rest generalizing visited before after worst start fuel with
  | nil =>
    obtain ⟨fuel, rfl⟩ := Nat.exists_eq_succ_of_ne_zero (Nat.ne_of_gt hfuel)
    have hstart : start = 0 := hpath
    refine ⟨before, after, worst, ?_, ?_⟩
    · rwa [List.append_nil]
    · rw [worstFitLoop, if_pos hstart]
      rfl
  | cons node rest ih =>
    obtain ⟨fuel, rfl⟩ := Nat.exists_eq_succ_of_ne_zero (Nat.ne_zero_of_lt hfuel)
    obtain ⟨rfl, htail⟩ := hpath
    have happend : visited ++ start :: rest = visited ++ [start] ++ rest := by simp
    rw [happend] at hnull ⊢
    have hnode : start ≠ 0 := hnull start (by simp)
    have hworst : worst ≠ 0 := hnull worst (by simp [h.mem])
    have hworse : isWorse start worst (heap.setPrev (lastNode before)) =
        some (decide (sizeIn heap worst < sizeIn heap start), heap.setPrev (lastNode before)) :=
      isWorse_iff hnode hworst
    by_cases hlt : sizeIn heap worst < sizeIn heap start
    · rw [decide_eq_true hlt] at hworse
      rw [worstFitLoop_of_worse hnode hworse]
      have hmax : FirstMax heap (visited ++ [start]) visited [] start :=
        firstMax_concat_of_lt fun other hother ↦ (h.largest other hother).trans_lt hlt
      have hrest := ih hmax htail hnull (Nat.lt_of_succ_lt_succ hfuel)
      rwa [lastNode_concat] at hrest
    · rw [decide_eq_false hlt] at hworse
      rw [worstFitLoop_of_not_worse hnode hworse]
      have hrest := ih (h.concat_of_le (not_lt.mp hlt)) htail hnull (Nat.lt_of_succ_lt_succ hfuel)
      rwa [lastNode_concat] at hrest

/-- The loop ends with the first node of maximal size and the node before it. -/
theorem worstFitLoop_run {fuel : ℕ} (h : IsList heap nodes) (hne : nodes ≠ [])
    (hfuel : nodes.length < fuel) :
    ∃ before after worst, FirstMax heap nodes before after worst ∧
      worstFitLoop fuel 0 heap.headFree 0 heap = some (worst, heap.setPrev (lastNode before)) := by
  obtain ⟨node, rest, rfl⟩ := List.exists_cons_of_ne_nil hne
  obtain ⟨fuel, rfl⟩ := Nat.exists_eq_succ_of_ne_zero (Nat.ne_zero_of_lt hfuel)
  obtain ⟨hstart, htail⟩ := h.path
  have hnode : node ≠ 0 := h.not_null node List.mem_cons_self
  have hfirst : worstFitLoop (fuel + 1) 0 heap.headFree 0 heap =
      worstFitLoop fuel node (nextIn heap node) node (heap.setPrev 0) := by
    have hworse : isWorse node 0 (heap.setPrev heap.listPrev) =
        some (true, heap.setPrev heap.listPrev) := isWorse_null node
    rw [hstart]
    exact worstFitLoop_of_worse hnode hworse
  have hmax : FirstMax heap [node] [] [] node :=
    firstMax_concat_of_lt fun other hother ↦ absurd hother List.not_mem_nil
  rw [hfirst]
  exact worstFitLoop_rest hmax htail h.not_null (Nat.lt_of_succ_lt_succ hfuel)

/-- The predecessor of the first maximum is `NULL` exactly if that is the head of the list. -/
theorem FirstMax.lastNode_eq_zero_iff (h : FirstMax heap nodes before after worst)
    (hlist : IsList heap nodes) : lastNode before = 0 ↔ worst = heap.headFree := by
  have hpath := hlist.path
  rw [h.split] at hpath
  cases before using List.reverseRecOn with
  | nil =>
    refine iff_of_true rfl ?_
    exact hpath.1.symm
  | append_singleton init last =>
    rw [lastNode_concat]
    have hlast : last ∈ nodes := by
      rw [h.split]
      simp
    refine iff_of_false (hlist.not_null last hlast) fun heq ↦ ?_
    have hhead : heap.headFree ∈ init ++ [last] := by
      cases init with
      | nil => exact List.mem_singleton.mpr hpath.1
      | cons first init =>
        rw [hpath.1]
        exact List.mem_cons_self
    have hlt := h.first _ hhead
    rw [heq] at hlt
    exact lt_irrefl _ hlt

/-- `getWorstFit` finds the first chunk of maximal size and its predecessor, in every list without a
cycle and whatever `listPrev` was, and does not change the list. -/
theorem worst_fit_and_predecessor {fuel : ℕ} (h : IsList heap nodes) (hne : nodes ≠ [])
    (hfuel : nodes.length < fuel) :
    ∃ before after worst heap', worstFitLoop fuel 0 heap.headFree 0 heap = some (worst, heap') ∧
      nodes = before ++ worst :: after ∧
      (∀ node ∈ nodes, sizeIn heap node ≤ sizeIn heap worst) ∧
      (∀ node ∈ before, sizeIn heap node < sizeIn heap worst) ∧
      heap'.listPrev = lastNode before ∧ (heap'.listPrev = 0 ↔ worst = heap.headFree) ∧
      heap' = { heap with listPrev := heap'.listPrev } ∧ IsList heap' nodes := by
  obtain ⟨before, after, worst, hmax, hrun⟩ := worstFitLoop_run h hne hfuel
  exact ⟨before, after, worst, heap.setPrev (lastNode before), hrun, hmax.split, hmax.largest,
    hmax.first, rfl, hmax.lastNode_eq_zero_iff h, rfl, ⟨h.path, h.not_null⟩⟩

/-- A heap whose free list is the nodes at 64, 96 and 128, of sizes 5, 9 and 9. -/
def threeChunks : Heap where
  mem := fun i ↦ if i = 64 then 5 else if i = 96 ∨ i = 128 then 9 else if i = 72 then 96
    else if i = 104 then 128 else 0
  headFree := 64
  listPrev := 128
  init := 0
  mError := 0

/-- Of two chunks of the same size the first one is taken, and the stale `listPrev` is replaced. -/
theorem second_chunk_found : ∃ heap', worstFitLoop 4 0 threeChunks.headFree 0 threeChunks =
    some (96, heap') ∧ heap'.listPrev = 64 ∧ IsList heap' [64, 96, 128] := by
  have hlist : IsList threeChunks [64, 96, 128] := ⟨by decide +kernel, by simp⟩
  have hfuel : [64, 96, (128 : Ptr)].length < 4 := by decide
  obtain ⟨before, after, worst, heap', hrun, -, -, -, -, -, -, hlist'⟩ :=
    worst_fit_and_predecessor hlist (by decide) hfuel
  have hresult : (worstFitLoop 4 0 threeChunks.headFree 0 threeChunks).map
      (fun result ↦ (result.1, result.2.listPrev)) = some (96, 64) := by decide +kernel
  rw [hrun, Option.map_some, Option.some.injEq, Prod.mk.injEq] at hresult
  obtain ⟨rfl, hprev⟩ := hresult
  exact ⟨heap', hrun, hprev, hlist'⟩

end OS537.Mem
