import OS537.Base.Bytes
import OS537.Base.Code

/-!
# The allocator

`3a/libmem.c`, one definition for each function. The heap is its memory, byte by byte, and the
globals of the file; a `struct Node` has its `int size` at offset 0 and its pointer `next` at
offset 8, 16 bytes in all. `none` is undefined behaviour: a null pointer that is dereferenced, a
store behind the memory of the process, or a loop that takes more rounds than the given fuel.
-/

namespace OS537.Mem

open Bytes

structure Heap where
  mem : Store
  headFree : Ptr
  listPrev : Ptr
  init : Word
  mError : Word

abbrev HeapM := StateT Heap Option

abbrev eNoSpace : Word := 1
abbrev eBadArgs : Word := 4

/-- `sizeof(struct Node)` -/
abbrev nodeSize : ℕ := 16

def undefined {α : Type} : HeapM α := fun _ ↦ none

/-- The bytes at the node are below `limit`, the end of the memory. All nodes but the rest of a
chunk have been read when something is stored to them. -/
def inMemory (limit : ℕ) (node : Ptr) (bytes : ℕ) : HeapM Unit := fun heap ↦
  if node.toNat + bytes ≤ limit then some ((), heap) else none

/-! ## Nodes -/

/-- `node->size` -/
def getSize (node : Ptr) : HeapM Word := fun heap ↦
  if node = 0 then none else some (load32 heap.mem node.toNat, heap)

/-- `node->next` -/
def getNext (node : Ptr) : HeapM Ptr := fun heap ↦
  if node = 0 then none else some (load64 heap.mem (node.toNat + 8), heap)

/-- `node->size = size` -/
def setSize (node : Ptr) (size : Word) : HeapM Unit := fun heap ↦
  if node = 0 then none else some ((), { heap with mem := store32 heap.mem node.toNat size })

/-- `node->next = next` -/
def setNext (node next : Ptr) : HeapM Unit := fun heap ↦
  if node = 0 then none else some ((), { heap with mem := store64 heap.mem (node.toNat + 8) next })

/-- `headFree = node` -/
def setHeadFree (node : Ptr) : HeapM Unit := fun heap ↦ some ((), { heap with headFree := node })

/-- `listPrev = node` -/
def setListPrev (node : Ptr) : HeapM Unit := fun heap ↦ some ((), { heap with listPrev := node })

/-- `m_error = code` -/
def setError (code : Word) : HeapM Unit := fun heap ↦ some ((), { heap with mError := code })

def addSizeToNode (node : Ptr) (val : Word) : Ptr := node + val.signExtend 64

/-! ## Initialisation -/

/-- `Mem_Init`, with the page size and what `mmap` returns for a length; `none` is `MAP_FAILED`,
after which the process exits. -/
def memInit (pageSize : Word) (mmap : Word → Option Ptr) (sizeOfRegion : Word) : HeapM ℤ := do
  if sizeOfRegion.toInt ≤ 0 ∨ (← get).init = 0 then
    setError eBadArgs
    return -1
  let sizeOfRegion :=
    if sizeOfRegion.srem pageSize ≠ 0 then
      sizeOfRegion + (sizeOfRegion - sizeOfRegion.srem pageSize)
    else sizeOfRegion
  match mmap sizeOfRegion with
  | none => undefined
  | some freeNode =>
    setSize freeNode sizeOfRegion
    setNext freeNode 0
    setHeadFree freeNode
    modify fun heap ↦ { heap with init := 0 }
    return 0

/-! ## Allocation -/

/-- The size of a block with its header, for a request of `size` bytes. -/
def blockSize (size : Word) : Word :=
  if size.srem 8 = 0 then size + 16
  else (size.sdiv 8 + 1) * 8 + 16

/-- The assignments of `chunkNode` to the list, for the remainder `node` of the chunk `newNode`. -/
def chunkLink (newNode node next : Ptr) : HeapM Unit := do
  let listPrev := (← get).listPrev
  if (← getSize node) = 0 ∧ listPrev ≠ 0 then
    setNext listPrev next
  else if (← getSize node) = 0 ∧ listPrev = 0 then
    setHeadFree 0
  else
    if listPrev ≠ 0 then setNext listPrev node
    setNext node next
  if (← get).headFree = newNode then setHeadFree node

def chunkNode (limit : ℕ) (newNode : Ptr) (size : Word) : HeapM Ptr := do
  let size := blockSize size
  let sizeOfRegion ← getSize newNode
  let next ← getNext newNode
  let node := addSizeToNode newNode size
  -- of an empty rest only the size is stored
  inMemory limit node (if sizeOfRegion = size then 4 else nodeSize)
  setSize node (sizeOfRegion - size)
  chunkLink newNode node next
  setSize newNode size
  setNext newNode 0
  return newNode + 16

/-- `worst == NULL || node->size > worst->size` -/
def isWorse (node worst : Ptr) : HeapM Bool := do
  if worst = 0 then return true
  return decide ((← getSize node).toInt > (← getSize worst).toInt)

/-- The loop of `getWorstFit`. -/
def worstFitLoop : (fuel : ℕ) → (worst node prev : Ptr) → HeapM Ptr
  | 0, _, _, _ => undefined
  | fuel + 1, worst, node, prev => do
    if node = 0 then return worst
    if ← isWorse node worst then
      setListPrev prev
      worstFitLoop fuel node (← getNext node) node
    else
      worstFitLoop fuel worst (← getNext node) node

/-- `getWorstFit`; the comparison is one of `unsigned long`s. -/
def getWorstFit (fuel : ℕ) (size : Word) : HeapM Ptr := do
  let worst ← worstFitLoop fuel 0 (← get).headFree 0
  if (← getSize worst).signExtend 64 ≥ size.signExtend 64 + 16 then return worst
  return 0

def memAlloc (limit fuel : ℕ) (size : Word) : HeapM Ptr := do
  let worstFit ← getWorstFit fuel size
  if worstFit = 0 then
    setError eNoSpace
    return 0
  chunkNode limit worstFit size

/-! ## Release -/

/-- The locals of `findNeighborNode`. -/
structure Walk where
  node : Ptr
  curr : Ptr
  prev : Ptr
  coalesced : Bool

/-- The node begins where the list element `curr` ends. The result is a return or the locals at the
end of the round. -/
def joinBefore (walk : Walk) : HeapM (Ptr ⊕ Walk) := do
  setSize walk.curr ((← getSize walk.curr) + (← getSize walk.node))
  if !walk.coalesced then
    if walk.curr ≠ (← get).headFree then
      setNext walk.prev (← getNext walk.curr)
      setNext walk.curr (← get).headFree
      setHeadFree walk.curr
      return .inr { walk with node := walk.curr, curr := walk.prev, coalesced := true }
    return .inr { walk with node := walk.curr, coalesced := true }
  setNext walk.prev (← getNext walk.curr)
  setNext walk.curr (← getNext walk.node)
  setHeadFree walk.curr
  return .inl walk.curr

/-- The node ends where the list element `curr` begins. -/
def joinAfter (walk : Walk) : HeapM (Ptr ⊕ Walk) := do
  setSize walk.node ((← getSize walk.node) + (← getSize walk.curr))
  if !walk.coalesced then
    if walk.curr ≠ (← get).headFree then
      setNext walk.prev (← getNext walk.curr)
      setNext walk.node (← get).headFree
      setHeadFree walk.node
      return .inr { walk with curr := walk.prev, coalesced := true }
    setNext walk.node (← getNext walk.curr)
    setHeadFree walk.node
    return .inr { walk with curr := walk.node, coalesced := true }
  setNext walk.prev (← getNext walk.curr)
  return .inl walk.node

/-- One round of the loop of `findNeighborNode`, up to the advance to the next element. -/
def neighborRound (walk : Walk) : HeapM (Ptr ⊕ Walk) := do
  if walk.node = addSizeToNode walk.curr (← getSize walk.curr) then joinBefore walk
  else if walk.curr = addSizeToNode walk.node (← getSize walk.node) then joinAfter walk
  else return .inr walk

/-- The end of `findNeighborNode`, when the list is exhausted. -/
def neighborEnd (walk : Walk) : HeapM Ptr := do
  if !walk.coalesced then
    setNext walk.node (← get).headFree
    setHeadFree walk.node
  return walk.node

def neighborLoop : (fuel : ℕ) → Walk → HeapM Ptr
  | 0, _ => undefined
  | fuel + 1, walk => do
    if walk.curr = 0 then neighborEnd walk
    else
      match ← neighborRound walk with
      | .inl node => return node
      | .inr walk => neighborLoop fuel { walk with prev := walk.curr, curr := ← getNext walk.curr }

def findNeighborNode (fuel : ℕ) (node : Ptr) : HeapM Ptr := do
  neighborLoop fuel ⟨node, (← get).headFree, 0, false⟩

def memFree (fuel : ℕ) (ptr : Ptr) : HeapM ℤ := do
  if ptr = 0 then return 0
  let _ ← findNeighborNode fuel (ptr - 16)
  return 0

end OS537.Mem
