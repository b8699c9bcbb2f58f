import OS537.Mem.FreeList

/-!
# Moves of the free list

The allocator changes the list by a few moves: it takes a chunk out of the list, puts one in front,
and lets one of two neighbours take in the other. Each move keeps the headers in order, with the
chunk in hand counted among the blocks that are not on the list.
-/

namespace OS537.Mem

open Blocks Bytes Chain Code

variable {heap : Heap} {held free before after : List Block} {block other chunk prev : Block}

/-! ## The place in the list -/

/-- The address of the last block, or `NULL`. -/
def lastAddr (blocks : List Block) : ℕ :=
  (blocks.getLast?.map Block.addr).getD 0

theorem lastAddr_concat (blocks : List Block) (block : Block) :
    lastAddr (blocks ++ [block]) = block.addr := by
  simp [lastAddr]

/-- The address of the first block, or `NULL`. -/
def headAddr (blocks : List Block) : ℕ :=
  (blocks.head?.map Block.addr).getD 0

theorem path_start {next : ℕ → ℕ} {start : ℕ} {blocks : List Block}
    (h : Path next start (blocks.map Block.addr) 0) : start = headAddr blocks := by
  cases blocks with
  | nil => exact h
  | cons block rest => exact h.1

theorem FreeList.headFree_eq (h : FreeList heap free) : heap.headFree = ptr (headAddr free) := by
  rw [← path_start h.path, ptr_toNat]

theorem FreeList.path_after (h : FreeList heap (before ++ chunk :: after)) :
    Path (nextAt heap) (nextAt heap chunk.addr) (after.map Block.addr) 0 := by
  have hpath := h.path
  rw [List.map_append, List.map_cons, path_append] at hpath
  obtain ⟨middle, -, -, hrest⟩ := hpath
  exact hrest

theorem FreeList.nextAt_eq (h : FreeList heap (before ++ chunk :: after)) :
    nextAt heap chunk.addr = headAddr after :=
  path_start h.path_after

/-! ## Moves -/

/-- A chunk of the list counted among the blocks in hand. -/
theorem Linked.hold_nodes (h : Linked heap held (before ++ chunk :: after)) :
    Nodes (chunk :: held ++ (before ++ after)) := by
  have hnodes := h.nodes
  rwa [← List.append_assoc, nodes_middle, List.append_assoc] at hnodes

/-- An assignment to a `next` field leaves all sizes. -/
theorem sizeAt_putNext_of_nodes {blocks : List Block} (h : Nodes (block :: blocks))
    (hother : other ∈ block :: blocks) (next : ℕ) :
    sizeAt (heap.putNext block.addr next) other.addr = sizeAt heap other.addr := by
  apply sizeAt_putNext
  rcases List.mem_cons.mp hother with rfl | hmem
  · exact Or.inl rfl
  · exact Or.inr (h.head_apart other hmem)

/-- The link to the chunk behind `before`: the head of the list, or the `next` of the last block. -/
def Heap.putLink (heap : Heap) (before : List Block) (next : ℕ) : Heap :=
  match before.getLast? with
  | none => heap.putHead next
  | some last => heap.putNext last.addr next

theorem putLink_concat (before : List Block) (last : Block) (next : ℕ) :
    heap.putLink (before ++ [last]) next = heap.putNext last.addr next := by
  simp [Heap.putLink]

theorem sizeAt_putLink {addr : ℕ}
    (h : ∀ last ∈ before, last.addr = addr ∨ HeadersApart last.addr addr) (next : ℕ) :
    sizeAt (heap.putLink before next) addr = sizeAt heap addr := by
  rcases List.eq_nil_or_concat' before with rfl | ⟨init, last, rfl⟩
  · rfl
  · rw [putLink_concat, sizeAt_putNext (h last (by simp))]

theorem nextAt_putLink {addr : ℕ} (h : ∀ last ∈ before, HeadersApart last.addr addr) (next : ℕ) :
    nextAt (heap.putLink before next) addr = nextAt heap addr := by
  rcases List.eq_nil_or_concat' before with rfl | ⟨init, last, rfl⟩
  · rfl
  · rw [putLink_concat, nextAt_putNext_other (h last (by simp))]

section Link

variable (h : Linked heap held (before ++ chunk :: after))

include h

theorem Linked.apart_before (hblock : block ∈ before) (hother : other ∈ held ++ chunk :: after) :
    HeadersApart block.addr other.addr := by
  obtain ⟨-, hfree, hheld⟩ := List.pairwise_append.mp h.nodes.apart
  rcases List.mem_append.mp hother with hmem | hmem
  · exact (hheld other hmem block (List.mem_append_left _ hblock)).symm
  · exact (List.pairwise_append.mp hfree).2.2 block hblock other hmem

theorem Linked.sizeAt_putLink (hother : other ∈ held ++ (before ++ chunk :: after)) (next : ℕ) :
    sizeAt (heap.putLink before next) other.addr = sizeAt heap other.addr := by
  apply Mem.sizeAt_putLink
  intro last hlast
  by_cases heq : last = other
  · exact Or.inl (congrArg Block.addr heq)
  · exact Or.inr (h.nodes.apart.forall (by simp [hlast]) hother heq)

/-- The walk over the blocks before the chunk goes where the link leads. -/
theorem Linked.path_putLink {next : ℕ} (hlt : next < 2 ^ 64) :
    Path (nextAt (heap.putLink before next)) (heap.putLink before next).headFree.toNat
      (before.map Block.addr) next := by
  rcases List.eq_nil_or_concat' before with rfl | ⟨init, last, rfl⟩
  · exact toNat_ptr hlt
  · rw [List.append_assoc] at h
    have hpath := h.list.path
    rw [List.map_append] at hpath
    obtain ⟨middle, hinit, hlast, -⟩ := path_append.mp hpath
    rw [putLink_concat, List.map_append]
    refine path_append.mpr ⟨middle, hinit.congr ?_, hlast, nextAt_putNext_same hlt⟩
    intro addr hmem
    obtain ⟨other, hother, rfl⟩ := List.mem_map.mp hmem
    exact nextAt_putNext_other (h.apart_before hother (by simp)).symm _

/-- The chunk is taken out of the list. -/
theorem Linked.unlink :
    Linked (heap.putLink before (nextAt heap chunk.addr)) (chunk :: held) (before ++ after) := by
  refine ⟨h.hold_nodes, ⟨?_, ?_⟩, ?_⟩
  · rw [List.map_append]
    refine path_append.mpr ⟨_, h.path_putLink (BitVec.isLt _), h.list.path_after.congr ?_⟩
    intro addr hmem
    obtain ⟨other, hother, rfl⟩ := List.mem_map.mp hmem
    exact nextAt_putLink (fun last hlast ↦ h.apart_before hlast (by simp [hother])) _
  · intro other hother
    have hmem : other ∈ before ++ chunk :: after := by
      simp only [List.mem_append, List.mem_cons] at hother ⊢
      tauto
    rw [h.sizeAt_putLink (List.mem_append_right _ hmem)]
    exact h.list.size other hmem
  · intro other hother
    rcases List.mem_cons.mp hother with rfl | hheld
    · rw [h.sizeAt_putLink (by simp)]
      exact h.list.size other (by simp)
    · rw [h.sizeAt_putLink (List.mem_append_left _ hheld)]
      exact h.held_size other hheld

/-- Only the first chunk is the head of the list. -/
theorem Linked.headFree_eq_iff : heap.headFree = ptr chunk.addr ↔ before = [] := by
  rw [h.list.headFree_eq]
  cases before with
  | nil => exact iff_of_true rfl rfl
  | cons first rest =>
    refine iff_of_false (fun heq ↦ ?_) (List.cons_ne_nil _ _)
    have hfirst := (h.free_node first (by simp)).valid.2
    have hchunk := (h.free_node chunk (by simp)).valid.2
    exact (h.apart_before List.mem_cons_self (by simp)).ne ((ptr_inj hfirst hchunk).mp heq)

end Link

/-- A block in hand is put in front of the list. -/
theorem Linked.push (h : Linked heap (block :: held) free) :
    Linked ((heap.putNext block.addr heap.headFree.toNat).putHead block.addr) held
      (block :: free) := by
  have hnodes : Nodes (block :: (held ++ free)) := h.nodes
  have hvalid := (hnodes.each block List.mem_cons_self).valid
  have hapart := hnodes.head_apart
  have hsize {other : Block} (hother : other ∈ block :: (held ++ free)) :
      sizeAt ((heap.putNext block.addr heap.headFree.toNat).putHead block.addr) other.addr =
        sizeAt heap other.addr := sizeAt_putNext_of_nodes hnodes hother _
  refine ⟨nodes_middle.mpr hnodes, ⟨?_, ?_⟩, ?_⟩
  · change Path _ (ptr block.addr).toNat _ 0
    rw [toNat_ptr hvalid.2]
    apply h.list.path.push
    · intro addr hmem
      obtain ⟨other, hother, rfl⟩ := List.mem_map.mp hmem
      exact nextAt_putNext_other (hapart other (by simp [hother])) _
    · exact nextAt_putNext_same (BitVec.isLt _)
  · intro other hother
    rcases List.mem_cons.mp hother with rfl | hfree
    · rw [hsize List.mem_cons_self]
      exact h.held_size other List.mem_cons_self
    · rw [hsize (by simp [hfree])]
      exact h.list.size other hfree
  · intro other hother
    rw [hsize (by simp [hother])]
    exact h.held_size other (List.mem_cons_of_mem block hother)

/-- A block in hand takes in another one that follows it. -/
theorem Linked.join (h : Linked heap (block :: other :: held) free)
    (hnext : block.limit = other.addr) (hlt : block.size + other.size < 2 ^ 31) :
    Linked (heap.putSize block.addr (block.size + other.size))
      (⟨block.addr, block.size + other.size⟩ :: held) free := by
  have hnodes : Nodes (block :: other :: (held ++ free)) := h.nodes
  have hapart := hnodes.head_apart
  refine ⟨nodes_join hnodes hnext hlt, h.list.congr ?_ rfl, ?_⟩
  · exact fun listed hlisted ↦ sameHeader_putSize (hapart listed (by simp [hlisted])) _
  · intro listed hlisted
    rcases List.mem_cons.mp hlisted with rfl | hheld
    · exact sizeAt_putSize_same (by omega)
    · rw [sizeAt_putSize_other (hapart listed (by simp [hheld]))]
      exact h.held_size listed (by simp [hheld])

/-- A chunk of the list takes in a block in hand that follows it. -/
theorem Linked.absorb (h : Linked heap (block :: held) (before ++ chunk :: after))
    (hnext : chunk.limit = block.addr) (hlt : chunk.size + block.size < 2 ^ 31) :
    Linked (heap.putSize chunk.addr (chunk.size + block.size)) held
      (before ++ ⟨chunk.addr, chunk.size + block.size⟩ :: after) := by
  have hnodes : Nodes (chunk :: block :: (held ++ (before ++ after))) := h.hold_nodes
  have hapart := hnodes.head_apart
  have hpath := h.list.path
  refine ⟨?_, ⟨?_, ?_⟩, ?_⟩
  · rw [← List.append_assoc, nodes_middle, List.append_assoc]
    exact nodes_join hnodes hnext hlt
  · rw [List.map_append, List.map_cons] at hpath ⊢
    apply hpath.congr
    intro addr hmem
    rw [← List.map_cons, ← List.map_append] at hmem
    obtain ⟨listed, hlisted, rfl⟩ := List.mem_map.mp hmem
    rw [List.mem_append, List.mem_cons] at hlisted
    apply nextAt_putSize
    rcases hlisted with hbefore | rfl | hafter
    · exact Or.inr (hapart listed (by simp [hbefore]))
    · exact Or.inl rfl
    · exact Or.inr (hapart listed (by simp [hafter]))
  · intro listed hlisted
    rw [List.mem_append, List.mem_cons] at hlisted
    rcases hlisted with hbefore | rfl | hafter
    · rw [sizeAt_putSize_other (hapart listed (by simp [hbefore]))]
      exact h.list.size listed (by simp [hbefore])
    · exact sizeAt_putSize_same (by omega)
    · rw [sizeAt_putSize_other (hapart listed (by simp [hafter]))]
      exact h.list.size listed (by simp [hafter])
  · intro listed hheld
    rw [sizeAt_putSize_other (hapart listed (by simp [hheld]))]
    exact h.held_size listed (by simp [hheld])

/-- Assignments to the size of one header and the `next` of the same or another one commute. -/
theorem putSize_putNext_comm {addr other : ℕ} (h : addr + 4 ≤ other + 8 ∨ other + 8 + 8 ≤ addr)
    (size next : ℕ) :
    (heap.putSize addr size).putNext other next = (heap.putNext other next).putSize addr size := by
  simp only [Heap.putSize, Heap.putNext, store32, store64, splice_comm _ _ _ h]

/-- The order of the blocks in hand is of no account. -/
theorem Linked.perm_held {others : List Block} (h : Linked heap held free)
    (hperm : held.Perm others) : Linked heap others free where
  nodes := h.nodes.perm (hperm.append_right free)
  list := h.list
  held_size listed hlisted := h.held_size listed (hperm.mem_iff.mpr hlisted)

theorem Linked.swap (h : Linked heap (block :: other :: held) free) :
    Linked heap (other :: block :: held) free :=
  h.perm_held (List.Perm.swap _ _ _)

/-- The test for a chunk that ends where a block begins. -/
theorem eq_addSizeToNode_iff (hblock : IsNode block) (hchunk : IsNode chunk) :
    ptr block.addr = addSizeToNode (ptr chunk.addr) (word chunk.size) ↔
      chunk.limit = block.addr := by
  have hlimit : chunk.addr + chunk.size < 2 ^ 64 := hchunk.limit_lt
  rw [addSizeToNode_ptr hchunk.size_lt, ptr_inj hblock.valid.2 hlimit]
  exact eq_comm

end OS537.Mem
