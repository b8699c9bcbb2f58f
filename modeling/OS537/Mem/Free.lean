import OS537.Base.Neighbours
import OS537.Mem.Alloc

/-!
# Release

The loop of `findNeighborNode`. Before it has found a neighbour the released block is in hand;
afterwards it is the head of the list, joined with that neighbour. Each branch of a round is a
sequence of moves, up to the order of assignments to different fields. The whole call does to the
list in memory what `coalesce` does to a list of blocks.
-/

namespace OS537.Mem

open Blocks Bytes Chain Code

variable {region : Region} {heap : Heap} {live held visited rest : List Block}
  {block chunk prev : Block}

/-! ## The assignments of each branch -/

section Branches

variable (hblock : Valid block.addr) (hchunk : Valid chunk.addr) (hprev : Valid prev.addr)
  (hsize : sizeAt heap block.addr = block.size) (hchunkSize : sizeAt heap chunk.addr = chunk.size)

include hblock hchunk hsize hchunkSize

/-- The neighbour before the block is the head of the list. -/
theorem joinBefore_head (hhead : heap.headFree = ptr chunk.addr) (before : Ptr) :
    joinBefore ⟨ptr block.addr, ptr chunk.addr, before, false⟩ heap =
      some (.inr ⟨ptr chunk.addr, ptr chunk.addr, before, true⟩,
        heap.putSize chunk.addr (chunk.size + block.size)) := by
  unfold joinBefore
  dsimp only
  rw [bind_run (getSize_run hchunk), bind_run (getSize_run hblock), hsize, hchunkSize, word_add,
    bind_run (setSize_run hchunk _), if_pos Bool.not_false, bind_run get_run, putSize_headFree,
    hhead, if_neg (by simp)]
  rfl

/-- The neighbour after the block is the head of the list. -/
theorem joinAfter_head (hhead : heap.headFree = ptr chunk.addr)
    (hnext : nextAt (heap.putSize block.addr (block.size + chunk.size)) chunk.addr =
      nextAt heap chunk.addr) (before : Ptr) :
    joinAfter ⟨ptr block.addr, ptr chunk.addr, before, false⟩ heap =
      some (.inr ⟨ptr block.addr, ptr block.addr, before, true⟩,
        ((heap.putSize block.addr (block.size + chunk.size)).putNext block.addr
          (nextAt heap chunk.addr)).putHead block.addr) := by
  unfold joinAfter
  dsimp only
  rw [bind_run (getSize_run hblock), bind_run (getSize_run hchunk), hsize, hchunkSize, word_add,
    bind_run (setSize_run hblock _), if_pos Bool.not_false, bind_run get_run, putSize_headFree,
    hhead, if_neg (by simp), bind_run (getNext_run hchunk), hnext, bind_run (setNext_run hblock _),
    bind_run (setHeadFree_run _)]
  rfl

include hprev

/-- The neighbour before the block goes from behind `prev` to the head of the list. -/
theorem joinBefore_inner (hhead : heap.headFree ≠ ptr chunk.addr) :
    joinBefore ⟨ptr block.addr, ptr chunk.addr, ptr prev.addr, false⟩ heap =
      some (.inr ⟨ptr chunk.addr, ptr prev.addr, ptr prev.addr, true⟩,
        (((heap.putSize chunk.addr (chunk.size + block.size)).putNext prev.addr
          (nextAt heap chunk.addr)).putNext chunk.addr heap.headFree.toNat).putHead
            chunk.addr) := by
  have hnext : nextAt (heap.putSize chunk.addr (chunk.size + block.size)) chunk.addr =
      nextAt heap chunk.addr := nextAt_putSize (Or.inl rfl) _
  unfold joinBefore
  dsimp only
  rw [bind_run (getSize_run hchunk), bind_run (getSize_run hblock), hsize, hchunkSize, word_add,
    bind_run (setSize_run hchunk _), if_pos Bool.not_false, bind_run get_run, putSize_headFree,
    if_pos hhead.symm, bind_run (getNext_run hchunk), hnext, bind_run (setNext_run hprev _),
    bind_run get_run, putNext_headFree, putSize_headFree]
  nth_rewrite 1 [← ptr_toNat heap.headFree]
  rw [bind_run (setNext_run hchunk _), bind_run (setHeadFree_run _)]
  rfl

/-- The neighbour after the block is taken out of the list and the block is its new head. -/
theorem joinAfter_inner (hhead : heap.headFree ≠ ptr chunk.addr)
    (hnext : nextAt (heap.putSize block.addr (block.size + chunk.size)) chunk.addr =
      nextAt heap chunk.addr) :
    joinAfter ⟨ptr block.addr, ptr chunk.addr, ptr prev.addr, false⟩ heap =
      some (.inr ⟨ptr block.addr, ptr prev.addr, ptr prev.addr, true⟩,
        (((heap.putSize block.addr (block.size + chunk.size)).putNext prev.addr
          (nextAt heap chunk.addr)).putNext block.addr heap.headFree.toNat).putHead
            block.addr) := by
  unfold joinAfter
  dsimp only
  rw [bind_run (getSize_run hblock), bind_run (getSize_run hchunk), hsize, hchunkSize, word_add,
    bind_run (setSize_run hblock _), if_pos Bool.not_false, bind_run get_run, putSize_headFree,
    if_pos hhead.symm, bind_run (getNext_run hchunk), hnext, bind_run (setNext_run hprev _),
    bind_run get_run, putNext_headFree, putSize_headFree]
  nth_rewrite 1 [← ptr_toNat heap.headFree]
  rw [bind_run (setNext_run hblock _), bind_run (setHeadFree_run _)]
  rfl

/-- A second neighbour, before the block at the head of the list. -/
theorem joinBefore_again :
    joinBefore ⟨ptr block.addr, ptr chunk.addr, ptr prev.addr, true⟩ heap =
      some (.inl (ptr chunk.addr),
        (((heap.putSize chunk.addr (chunk.size + block.size)).putNext prev.addr
          (nextAt heap chunk.addr)).putNext chunk.addr
            (nextAt ((heap.putSize chunk.addr (chunk.size + block.size)).putNext prev.addr
              (nextAt heap chunk.addr)) block.addr)).putHead chunk.addr) := by
  have hnext : nextAt (heap.putSize chunk.addr (chunk.size + block.size)) chunk.addr =
      nextAt heap chunk.addr := nextAt_putSize (Or.inl rfl) _
  unfold joinBefore
  dsimp only
  rw [bind_run (getSize_run hchunk), bind_run (getSize_run hblock), hsize, hchunkSize, word_add,
    bind_run (setSize_run hchunk _), if_neg (by simp), bind_run (getNext_run hchunk), hnext,
    bind_run (setNext_run hprev _), bind_run (getNext_run hblock), bind_run (setNext_run hchunk _),
    bind_run (setHeadFree_run _)]
  rfl

/-- A second neighbour, after the block at the head of the list. -/
theorem joinAfter_again
    (hnext : nextAt (heap.putSize block.addr (block.size + chunk.size)) chunk.addr =
      nextAt heap chunk.addr) :
    joinAfter ⟨ptr block.addr, ptr chunk.addr, ptr prev.addr, true⟩ heap =
      some (.inl (ptr block.addr), (heap.putSize block.addr (block.size + chunk.size)).putNext
        prev.addr (nextAt heap chunk.addr)) := by
  unfold joinAfter
  dsimp only
  rw [bind_run (getSize_run hblock), bind_run (getSize_run hchunk), hsize, hchunkSize, word_add,
    bind_run (setSize_run hblock _), if_neg (by simp), bind_run (getNext_run hchunk), hnext,
    bind_run (setNext_run hprev _)]
  rfl

end Branches

/-! ## The moves of each branch -/

section Moves

variable {init : List Block}

theorem Linked.joinBefore_inner
    (h : Linked heap (block :: held) (init ++ [prev] ++ chunk :: rest))
    (hnext : chunk.limit = block.addr) (hlt : chunk.size + block.size < 2 ^ 31) :
    Linked
      ((((heap.putSize chunk.addr (chunk.size + block.size)).putNext prev.addr
        (nextAt heap chunk.addr)).putNext chunk.addr heap.headFree.toNat).putHead chunk.addr) held
      (⟨chunk.addr, chunk.size + block.size⟩ :: (init ++ [prev] ++ rest)) := by
  have hkept : nextAt (heap.putSize chunk.addr (chunk.size + block.size)) chunk.addr =
      nextAt heap chunk.addr := nextAt_putSize (Or.inl rfl) _
  have hpushed := (h.absorb hnext hlt).unlink.push
  rw [hkept, putLink_concat] at hpushed
  exact hpushed

theorem Linked.joinAfter_head (h : Linked heap (block :: held) (chunk :: rest))
    (hnext : block.limit = chunk.addr) (hlt : block.size + chunk.size < 2 ^ 31) :
    Linked
      (((heap.putSize block.addr (block.size + chunk.size)).putNext block.addr
        (nextAt heap chunk.addr)).putHead block.addr) held
      (⟨block.addr, block.size + chunk.size⟩ :: rest) := by
  have hlist : Linked heap (block :: held) ([] ++ chunk :: rest) := h
  have hpushed := (hlist.unlink.swap.join hnext hlt).push
  have hhead : (ptr (nextAt heap chunk.addr)).toNat = nextAt heap chunk.addr :=
    toNat_ptr (BitVec.isLt _)
  change Linked ((((heap.putHead (nextAt heap chunk.addr)).putSize block.addr
    (block.size + chunk.size)).putNext block.addr
      (ptr (nextAt heap chunk.addr)).toNat).putHead block.addr) held _ at hpushed
  rw [hhead, putSize_putHead, putNext_putHead, putHead_putHead] at hpushed
  exact hpushed

theorem Linked.joinAfter_inner
    (h : Linked heap (block :: held) (init ++ [prev] ++ chunk :: rest))
    (hnext : block.limit = chunk.addr) (hlt : block.size + chunk.size < 2 ^ 31)
    (hapart : HeadersApart block.addr prev.addr) :
    Linked
      ((((heap.putSize block.addr (block.size + chunk.size)).putNext prev.addr
        (nextAt heap chunk.addr)).putNext block.addr heap.headFree.toNat).putHead block.addr) held
      (⟨block.addr, block.size + chunk.size⟩ :: (init ++ [prev] ++ rest)) := by
  have hpushed := (h.unlink.swap.join hnext hlt).push
  rw [putLink_concat, ← putSize_putNext_comm (by unfold HeadersApart at hapart; omega)] at hpushed
  exact hpushed

section Again

variable (h : Linked heap held (block :: visited ++ chunk :: rest))
  (hsplit : block :: visited = init ++ [prev])

include h hsplit

theorem Linked.unlink_again :
    Linked (heap.putNext prev.addr (nextAt heap chunk.addr)) (chunk :: held)
      (block :: (visited ++ rest)) := by
  have hunlinked := h.unlink
  rw [hsplit, putLink_concat, ← hsplit] at hunlinked
  exact hunlinked

theorem Linked.apart_again :
    HeadersApart chunk.addr prev.addr ∧ HeadersApart chunk.addr block.addr := by
  have hapart := h.hold_nodes.head_apart
  have hprev : prev ∈ block :: visited := by
    rw [hsplit]
    simp
  exact ⟨hapart prev (List.mem_append_right _ (List.mem_append_left _ hprev)),
    hapart block (by simp)⟩

theorem Linked.joinBefore_again (hnext : chunk.limit = block.addr)
    (hlt : chunk.size + block.size < 2 ^ 31) :
    Linked
      ((((heap.putSize chunk.addr (chunk.size + block.size)).putNext prev.addr
        (nextAt heap chunk.addr)).putNext chunk.addr
          (nextAt ((heap.putSize chunk.addr (chunk.size + block.size)).putNext prev.addr
            (nextAt heap chunk.addr)) block.addr)).putHead chunk.addr) held
      (⟨chunk.addr, chunk.size + block.size⟩ :: (visited ++ rest)) := by
  obtain ⟨hprev, hblock⟩ := h.apart_again hsplit
  rw [putSize_putNext_comm (by unfold HeadersApart at hprev; omega), nextAt_putSize (Or.inr hblock)]
  exact (h.unlink_again hsplit).joinAfter_head hnext hlt

theorem Linked.joinAfter_again (hnext : block.limit = chunk.addr)
    (hlt : block.size + chunk.size < 2 ^ 31)
    (hapart : block.addr = prev.addr ∨ HeadersApart block.addr prev.addr) :
    Linked
      ((heap.putSize block.addr (block.size + chunk.size)).putNext prev.addr
        (nextAt heap chunk.addr)) held
      (⟨block.addr, block.size + chunk.size⟩ :: (visited ++ rest)) := by
  have hunlinked : Linked (heap.putNext prev.addr (nextAt heap chunk.addr)) (chunk :: held)
      ([] ++ block :: (visited ++ rest)) := h.unlink_again hsplit
  rw [putSize_putNext_comm (by unfold HeadersApart at hapart; omega)]
  exact hunlinked.absorb hnext hlt

end Again

end Moves

/-! ## The loop -/

/-- The locals of the loop while the block is in hand. -/
def openWalk (block : Block) (visited rest : List Block) : Walk :=
  ⟨ptr block.addr, ptr (headAddr rest), ptr (lastAddr visited), false⟩

/-- The locals of the loop when the block is the head of the list. -/
def closedWalk (block : Block) (visited rest : List Block) : Walk :=
  ⟨ptr block.addr, ptr (headAddr rest), ptr (lastAddr (block :: visited)), true⟩

/-- The loop goes on after a round. -/
theorem neighborLoop_next {fuel addr : ℕ} {walk advanced after : Walk} {next : Heap}
    (hcurr : walk.curr ≠ 0) (hround : neighborRound walk heap = some (.inr advanced, next))
    (haddr : advanced.curr = ptr addr) (hvalid : Valid addr)
    (hafter : after = ⟨advanced.node, ptr (nextAt next addr), ptr addr, advanced.coalesced⟩) :
    neighborLoop (fuel + 1) walk heap = neighborLoop fuel after next := by
  rw [neighborLoop, if_neg hcurr, bind_run hround]
  dsimp only
  rw [haddr, bind_run (getNext_run hvalid), hafter]

theorem neighborLoop_return {fuel : ℕ} {walk : Walk} {next : Heap} {result : Ptr}
    (hcurr : walk.curr ≠ 0) (hround : neighborRound walk heap = some (.inl result, next)) :
    neighborLoop (fuel + 1) walk heap = some (result, next) := by
  rw [neighborLoop, if_neg hcurr, bind_run hround]
  rfl

/-- The tests of a round. -/
theorem neighborRound_run (hblock : IsNode block) (hchunk : IsNode chunk)
    (hsize : sizeAt heap block.addr = block.size)
    (hchunkSize : sizeAt heap chunk.addr = chunk.size) (before : Ptr) (coalesced : Bool) :
    neighborRound ⟨ptr block.addr, ptr chunk.addr, before, coalesced⟩ heap =
      if chunk.limit = block.addr then
        joinBefore ⟨ptr block.addr, ptr chunk.addr, before, coalesced⟩ heap
      else if block.limit = chunk.addr then
        joinAfter ⟨ptr block.addr, ptr chunk.addr, before, coalesced⟩ heap
      else some (.inr ⟨ptr block.addr, ptr chunk.addr, before, coalesced⟩, heap) := by
  unfold neighborRound
  dsimp only
  rw [bind_run (getSize_run hchunk.valid), hchunkSize]
  by_cases hbefore : chunk.limit = block.addr
  · rw [if_pos hbefore, if_pos ((eq_addSizeToNode_iff hblock hchunk).mpr hbefore)]
  · rw [if_neg hbefore, if_neg (mt (eq_addSizeToNode_iff hblock hchunk).mp hbefore),
      bind_run (getSize_run hblock.valid), hsize]
    by_cases hafter : block.limit = chunk.addr
    · rw [if_pos hafter, if_pos ((eq_addSizeToNode_iff hchunk hblock).mpr hafter)]
    · rw [if_neg hafter, if_neg (mt (eq_addSizeToNode_iff hchunk hblock).mp hafter)]
      rfl

/-- The call returns the merged chunk, which is the head of the list. -/
def Releases (held : List Block) (merged : Block) (others : List Block)
    (run : Option (Ptr × Heap)) : Prop :=
  ∃ next, run = some (ptr merged.addr, next) ∧ Linked next held (merged :: others)

theorem exists_last (block : Block) (visited : List Block) :
    ∃ init last, block :: visited = init ++ [last] ∧ lastAddr (block :: visited) = last.addr := by
  rcases List.eq_nil_or_concat' (block :: visited) with hnil | ⟨init, last, hconcat⟩
  · cases hnil
  · exact ⟨init, last, hconcat, by rw [hconcat, lastAddr_concat]⟩

theorem neighborLoop_closed {fuel : ℕ} (h : Linked heap held (block :: visited ++ rest))
    (hlt : (settle block rest).1.size < 2 ^ 31) (hfuel : rest.length < fuel) :
    Releases held (settle block rest).1 (visited ++ (settle block rest).2)
      (neighborLoop fuel (closedWalk block visited rest) heap) := by
  induction rest generalizing visited fuel with
  | nil =>
    cases fuel with
    | zero => exact absurd hfuel (Nat.not_lt_zero _)
    | succ fuel =>
      refine ⟨heap, ?_, h⟩
      rw [neighborLoop]
      rfl
  | cons chunk rest ih =>
    cases fuel with
    | zero => exact absurd hfuel (Nat.not_lt_zero _)
    | succ fuel =>
      obtain ⟨init, prev, hsplit, hlast⟩ := exists_last block visited
      have hblock := h.free_node block (by simp)
      have hchunk := h.free_node chunk (by simp)
      have hprevMem : prev ∈ block :: visited ++ chunk :: rest := by
        rw [hsplit]
        simp
      have hprev := (h.free_node prev hprevMem).valid
      have hsize := h.list.size block (by simp)
      have hchunkSize := h.list.size chunk (by simp)
      have hround := neighborRound_run hblock hchunk hsize hchunkSize (ptr prev.addr) true
      have hcurr : (closedWalk block visited (chunk :: rest)).curr ≠ 0 := hchunk.valid.ne_zero
      have hwalk : closedWalk block visited (chunk :: rest) =
          ⟨ptr block.addr, ptr chunk.addr, ptr prev.addr, true⟩ := by
        rw [closedWalk, hlast]
        rfl
      rw [← hwalk] at hround
      by_cases hbefore : chunk.limit = block.addr
      · rw [settle_cons_of_touches (Or.inl hbefore), Block.join_before hbefore] at hlt ⊢
        rw [if_pos hbefore, hwalk, joinBefore_again hblock.valid hchunk.valid hprev hsize
          hchunkSize, ← hwalk] at hround
        exact ⟨_, neighborLoop_return hcurr hround, h.joinBefore_again hsplit hbefore hlt⟩
      rw [if_neg hbefore] at hround
      by_cases hafter : block.limit = chunk.addr
      · rw [settle_cons_of_touches (Or.inr hafter), Block.join_after hbefore] at hlt ⊢
        have hheld : Linked heap held ([] ++ block :: (visited ++ chunk :: rest)) := h
        have hapart := hheld.hold_nodes.head_apart
        have hnext : nextAt (heap.putSize block.addr (block.size + chunk.size)) chunk.addr =
            nextAt heap chunk.addr := nextAt_putSize (Or.inr (hapart chunk (by simp))) _
        have hprevApart : block.addr = prev.addr ∨ HeadersApart block.addr prev.addr := by
          have hmem : prev ∈ block :: visited := by
            rw [hsplit]
            simp
          rcases List.mem_cons.mp hmem with rfl | hvisited
          · exact Or.inl rfl
          · exact Or.inr (hapart prev (by simp [hvisited]))
        rw [if_pos hafter, hwalk, joinAfter_again hblock.valid hchunk.valid hprev hsize hchunkSize
          hnext, ← hwalk] at hround
        exact ⟨_, neighborLoop_return hcurr hround,
          h.joinAfter_again hsplit hafter hlt hprevApart⟩
      · have hapart : ¬ block.Touches chunk := not_or.mpr ⟨hbefore, hafter⟩
        rw [settle_cons_of_not_touches hapart] at hlt ⊢
        rw [if_neg hafter] at hround
        have hafterWalk : closedWalk block (visited ++ [chunk]) rest =
            ⟨ptr block.addr, ptr (nextAt heap chunk.addr), ptr chunk.addr, true⟩ := by
          rw [h.list.nextAt_eq, closedWalk, ← List.cons_append, lastAddr_concat]
        rw [neighborLoop_next hcurr hround rfl hchunk.valid hafterWalk]
        have happend (tail : List Block) :
            visited ++ chunk :: tail = visited ++ [chunk] ++ tail := by
          simp
        rw [List.cons_append, happend] at h
        rw [happend]
        exact ih h hlt (Nat.lt_of_succ_lt_succ hfuel)

/-- A round that has joined the block with its first neighbour. -/
theorem releases_of_joined {fuel : ℕ} {walk : Walk} {next : Heap} {before : Ptr}
    (joined : Block) (visited : List Block)
    (hcurr : walk.curr ≠ 0)
    (hround : neighborRound walk heap = some (.inr ⟨ptr joined.addr,
      ptr (lastAddr (joined :: visited)), before, true⟩, next))
    (h : Linked next held (joined :: visited ++ rest))
    (hlt : (settle joined rest).1.size < 2 ^ 31) (hfuel : rest.length < fuel) :
    Releases held (settle joined rest).1 (visited ++ (settle joined rest).2)
      (neighborLoop (fuel + 1) walk heap) := by
  obtain ⟨init, last, hsplit, hlast⟩ := exists_last joined visited
  have hlist := h
  rw [hsplit, List.append_assoc, List.singleton_append] at hlist
  have hvalid := (hlist.free_node last (by simp)).valid
  have hwalk : closedWalk joined visited rest =
      ⟨ptr joined.addr, ptr (nextAt next last.addr), ptr last.addr, true⟩ := by
    rw [closedWalk, hlast, hlist.list.nextAt_eq]
  rw [hlast] at hround
  rw [neighborLoop_next hcurr hround rfl hvalid hwalk]
  exact neighborLoop_closed h hlt hfuel

/-- The head of the list is a neighbour of the released block. -/
theorem neighborLoop_join_head {fuel : ℕ} (h : Linked heap (block :: held) (chunk :: rest))
    (hjoin : block.Touches chunk) (hlt : (settle (block.join chunk) rest).1.size < 2 ^ 31)
    (hfuel : rest.length < fuel) :
    Releases held (settle (block.join chunk) rest).1 (settle (block.join chunk) rest).2
      (neighborLoop (fuel + 1) (openWalk block [] (chunk :: rest)) heap) := by
  have hblock := h.nodes.each block (by simp)
  have hchunk := h.free_node chunk List.mem_cons_self
  have hsize := h.held_size block List.mem_cons_self
  have hchunkSize := h.list.size chunk List.mem_cons_self
  have hnodes : Nodes (block :: (held ++ chunk :: rest)) := h.nodes
  have hnext : nextAt (heap.putSize block.addr (block.size + chunk.size)) chunk.addr =
      nextAt heap chunk.addr :=
    nextAt_putSize (Or.inr (hnodes.head_apart chunk (by simp))) _
  have hcurr : (openWalk block [] (chunk :: rest)).curr ≠ 0 := hchunk.valid.ne_zero
  have hround := neighborRound_run hblock hchunk hsize hchunkSize (ptr 0) false
  have hjoined := (le_settle_size (block.join chunk) rest).trans_lt hlt
  by_cases hbefore : chunk.limit = block.addr
  · have hlist : Linked heap (block :: held) ([] ++ chunk :: rest) := h
    rw [Block.join_before hbefore] at hlt hjoined ⊢
    rw [if_pos hbefore, joinBefore_head hblock.valid hchunk.valid hsize hchunkSize
      h.list.headFree_eq] at hround
    exact releases_of_joined ⟨chunk.addr, chunk.size + block.size⟩ [] hcurr hround
      (hlist.absorb hbefore hjoined) hlt hfuel
  · have hafter := hjoin.resolve_left hbefore
    rw [Block.join_after hbefore] at hlt hjoined ⊢
    rw [if_neg hbefore, if_pos hafter, joinAfter_head hblock.valid hchunk.valid hsize hchunkSize
      h.list.headFree_eq hnext] at hround
    exact releases_of_joined ⟨block.addr, block.size + chunk.size⟩ [] hcurr hround
      (h.joinAfter_head hafter hjoined) hlt hfuel

/-- A later chunk of the list is a neighbour of the released block. -/
theorem neighborLoop_join_inner {fuel : ℕ} {init : List Block}
    (h : Linked heap (block :: held) (init ++ [prev] ++ chunk :: rest))
    (hjoin : block.Touches chunk) (hlt : (settle (block.join chunk) rest).1.size < 2 ^ 31)
    (hfuel : rest.length < fuel) :
    Releases held (settle (block.join chunk) rest).1
      (init ++ [prev] ++ (settle (block.join chunk) rest).2)
      (neighborLoop (fuel + 1) (openWalk block (init ++ [prev]) (chunk :: rest)) heap) := by
  have hblock := h.nodes.each block (by simp)
  have hchunk := h.free_node chunk (by simp)
  have hprev := (h.free_node prev (by simp)).valid
  have hsize := h.held_size block List.mem_cons_self
  have hchunkSize := h.list.size chunk (by simp)
  have hnodes : Nodes (block :: (held ++ (init ++ [prev] ++ chunk :: rest))) := h.nodes
  have hapart := hnodes.head_apart
  have hnext : nextAt (heap.putSize block.addr (block.size + chunk.size)) chunk.addr =
      nextAt heap chunk.addr := nextAt_putSize (Or.inr (hapart chunk (by simp))) _
  have hhead : heap.headFree ≠ ptr chunk.addr := mt h.headFree_eq_iff.mp (by simp)
  have hlast (joined : Block) : lastAddr (joined :: (init ++ [prev])) = prev.addr := by
    rw [← List.cons_append, lastAddr_concat]
  have hcurr : (openWalk block (init ++ [prev]) (chunk :: rest)).curr ≠ 0 := hchunk.valid.ne_zero
  have hround := neighborRound_run hblock hchunk hsize hchunkSize (ptr prev.addr) false
  have hwalk : openWalk block (init ++ [prev]) (chunk :: rest) =
      ⟨ptr block.addr, ptr chunk.addr, ptr prev.addr, false⟩ := by
    rw [openWalk, lastAddr_concat]
    rfl
  rw [← hwalk] at hround
  have hsum := (le_settle_size (block.join chunk) rest).trans_lt hlt
  by_cases hbefore : chunk.limit = block.addr
  · rw [Block.join_before hbefore] at hlt hsum ⊢
    have hjoined := h.joinBefore_inner hbefore hsum
    rw [if_pos hbefore, hwalk, joinBefore_inner hblock.valid hchunk.valid hprev hsize hchunkSize
      hhead, ← hwalk] at hround
    rw [← hlast ⟨chunk.addr, chunk.size + block.size⟩] at hround hjoined
    exact releases_of_joined ⟨chunk.addr, chunk.size + block.size⟩ (init ++ [prev]) hcurr hround
      hjoined hlt hfuel
  · have hafter := hjoin.resolve_left hbefore
    rw [Block.join_after hbefore] at hlt hsum ⊢
    have hjoined := h.joinAfter_inner hafter hsum (hapart prev (by simp))
    rw [if_neg hbefore, if_pos hafter, hwalk, joinAfter_inner hblock.valid hchunk.valid hprev hsize
      hchunkSize hhead hnext, ← hwalk] at hround
    rw [← hlast ⟨block.addr, block.size + chunk.size⟩] at hround hjoined
    exact releases_of_joined ⟨block.addr, block.size + chunk.size⟩ (init ++ [prev]) hcurr hround
      hjoined hlt hfuel

/-- The loop while the block is still in hand: the first neighbour it meets takes the block in,
and a list without neighbours gets the block as its new head. -/
theorem neighborLoop_open {fuel : ℕ} (h : Linked heap (block :: held) (visited ++ rest))
    (hlt : (coalesce block rest).1.size < 2 ^ 31) (hfuel : rest.length < fuel) :
    Releases held (coalesce block rest).1 (visited ++ (coalesce block rest).2)
      (neighborLoop fuel (openWalk block visited rest) heap) := by
  induction rest generalizing visited fuel with
  | nil =>
    cases fuel with
    | zero => exact absurd hfuel (Nat.not_lt_zero _)
    | succ fuel =>
      have hblock := (h.nodes.each block (by simp)).valid
      refine ⟨_, ?_, h.push⟩
      have hend : neighborEnd (openWalk block visited []) heap = some (ptr block.addr,
          (heap.putNext block.addr heap.headFree.toNat).putHead block.addr) := by
        unfold neighborEnd openWalk
        dsimp only
        rw [if_pos Bool.not_false, bind_run get_run]
        nth_rewrite 1 [← ptr_toNat heap.headFree]
        rw [bind_run (setNext_run hblock _), bind_run (setHeadFree_run _)]
        rfl
      have hcurr : (openWalk block visited []).curr = 0 := ptr_zero
      rw [neighborLoop, if_pos hcurr, hend]
      rfl
  | cons chunk rest ih =>
    cases fuel with
    | zero => exact absurd hfuel (Nat.not_lt_zero _)
    | succ fuel =>
      have hrest := Nat.lt_of_succ_lt_succ hfuel
      by_cases hjoin : block.Touches chunk
      · rw [coalesce_cons_of_touches hjoin] at hlt ⊢
        rcases List.eq_nil_or_concat' visited with rfl | ⟨init, prev, rfl⟩
        · exact neighborLoop_join_head h hjoin hlt hrest
        · exact neighborLoop_join_inner h hjoin hlt hrest
      · -- neither test succeeds, and the walk goes on with the chunk behind it
        rw [coalesce_cons_of_not_touches hjoin] at hlt ⊢
        obtain ⟨hbefore, hafter⟩ := not_or.mp hjoin
        have hblock := h.nodes.each block (by simp)
        have hchunk := h.free_node chunk (by simp)
        have hround := neighborRound_run hblock hchunk (h.held_size block List.mem_cons_self)
          (h.list.size chunk (by simp)) (ptr (lastAddr visited)) false
        rw [if_neg hbefore, if_neg hafter] at hround
        have hcurr : (openWalk block visited (chunk :: rest)).curr ≠ 0 := hchunk.valid.ne_zero
        have hwalk : openWalk block (visited ++ [chunk]) rest =
            ⟨ptr block.addr, ptr (nextAt heap chunk.addr), ptr chunk.addr, false⟩ := by
          rw [h.list.nextAt_eq, openWalk, lastAddr_concat]
        rw [neighborLoop_next hcurr hround rfl hchunk.valid hwalk]
        have happend (tail : List Block) :
            visited ++ chunk :: tail = visited ++ [chunk] ++ tail := by
          simp
        rw [happend] at h ⊢
        exact ih h hlt hrest

/-! ## Whole calls -/

/-- `findNeighborNode` coalesces the block with the list. -/
theorem findNeighborNode_run {fuel : ℕ} (h : Linked heap (block :: held) rest)
    (hlt : (coalesce block rest).1.size < 2 ^ 31) (hfuel : rest.length < fuel) :
    Releases held (coalesce block rest).1 (coalesce block rest).2
      (findNeighborNode fuel (ptr block.addr) heap) := by
  have hopen : Linked heap (block :: held) ([] ++ rest) := h
  unfold findNeighborNode
  rw [bind_run get_run, h.list.headFree_eq]
  exact neighborLoop_open hopen hlt hfuel

/-- `Mem_Free` finds the header before the payload, and returns 0. -/
theorem memFree_eq {fuel : ℕ} {result : Ptr} {next : Heap} (hlt : block.addr + 16 < 2 ^ 64)
    (hrun : findNeighborNode fuel (ptr block.addr) heap = some (result, next)) :
    memFree fuel (ptr (block.addr + 16)) heap = some (0, next) := by
  have hpayload : ptr (block.addr + 16) ≠ 0 := ptr_ne_zero (by omega) hlt
  have hheader : ptr (block.addr + 16) - 16 = ptr block.addr := by
    apply BitVec.eq_of_toNat_eq
    simp [ptr]
    omega
  unfold memFree
  rw [if_neg hpayload, hheader, bind_run hrun]
  rfl

/-- `Mem_Free` of a live block returns 0, and the block is part of the free list. -/
theorem memFree_run {fuel : ℕ} {others : List Block} (h : Sound region heap live rest)
    (hlive : live.Perm (block :: others)) (hfuel : region.size < fuel) :
    ∃ next free, memFree fuel (ptr (block.addr + 16)) heap = some (0, next) ∧
      Sound region next others free := by
  have hheld := h.linked.perm_held hlive
  have harena : Arena region.toBlock 16 8 (block :: (others ++ rest)) :=
    h.arena.perm (hlive.append_right rest)
  have hmerged := harena.coalesce (by decide)
  have hlt := ((nodes_of_arena hmerged).each _ List.mem_cons_self).size_lt
  obtain ⟨next, hrun, hnext⟩ := findNeighborNode_run hheld hlt (h.length_le.trans_lt hfuel)
  have hfits := harena.fits block List.mem_cons_self
  have hlimit := region.limit_lt
  have hhigh := hfits.high
  have hleast := hfits.least_le
  simp only [Block.limit] at hhigh
  exact ⟨next, _, memFree_eq (by omega) hrun, arena_middle.mpr hmerged, hnext.list,
    hnext.held_size⟩

end OS537.Mem
