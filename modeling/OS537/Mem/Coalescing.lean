import OS537.Mem.Free

/-!
# Coalescing

What the free list is for its users: chunks that do not meet and of which no two are neighbours.
`findNeighborNode` puts a released block into such a list, joined with its neighbours, and the list
is of this kind again. A block that was cut from a chunk and is released at once is joined with the
rest of that chunk and with nothing else.
-/

namespace OS537.Mem

open Blocks Bytes Chain Code

/-- A free list as the allocator means to keep it. -/
structure WellFormed (heap : Heap) (free : List Block) : Prop where
  list : FreeList heap free
  node : ∀ chunk ∈ free, IsNode chunk
  pos : ∀ chunk ∈ free, 0 < chunk.size
  apart : free.Pairwise Block.Apart
  separate : Separate free

/-- A block that is in use beside the list. -/
structure Allocated (heap : Heap) (free : List Block) (block : Block) : Prop where
  node : IsNode block
  header : block.addr + nodeSize < 2 ^ 64
  pos : 0 < block.size
  size : sizeAt heap block.addr = block.size
  apart : ∀ chunk ∈ free, block.Apart chunk

instance (heap : Heap) (free : List Block) : Decidable (WellFormed heap free) :=
  decidable_of_iff (FreeList heap free ∧ (∀ chunk ∈ free, IsNode chunk) ∧
      (∀ chunk ∈ free, 0 < chunk.size) ∧ free.Pairwise Block.Apart ∧ Separate free)
    ⟨fun h ↦ ⟨h.1, h.2.1, h.2.2.1, h.2.2.2.1, h.2.2.2.2⟩,
      fun h ↦ ⟨h.list, h.node, h.pos, h.apart, h.separate⟩⟩

instance (heap : Heap) (free : List Block) (block : Block) :
    Decidable (Allocated heap free block) :=
  decidable_of_iff (IsNode block ∧ block.addr + nodeSize < 2 ^ 64 ∧ 0 < block.size ∧
      sizeAt heap block.addr = block.size ∧ ∀ chunk ∈ free, block.Apart chunk)
    ⟨fun h ↦ ⟨h.1, h.2.1, h.2.2.1, h.2.2.2.1, h.2.2.2.2⟩,
      fun h ↦ ⟨h.node, h.header, h.pos, h.size, h.apart⟩⟩

/-- The block is released: it is joined with its neighbours, of which there are at most two, the
result is the head of the list and is returned, and all other chunks follow as they were. -/
def Coalesces (fuel : ℕ) (heap : Heap) (free : List Block) (block : Block) : Prop :=
  (free.filter fun chunk ↦ block.Touches chunk).length ≤ 2 ∧
  ∃ merged next,
    findNeighborNode fuel (ptr block.addr) heap = some (ptr merged.addr, next) ∧
    memFree fuel (ptr (block.addr + nodeSize)) heap = some (0, next) ∧
    (∀ addr, merged.Contains addr ↔
      block.Contains addr ∨ ∃ chunk ∈ free, block.Touches chunk ∧ chunk.Contains addr) ∧
    WellFormed next (merged :: free.filter fun chunk ↦ ¬ block.Touches chunk)

variable {heap next : Heap} {free free' before after : List Block} {block : Block} {fuel limit : ℕ}

/-! ## One block is released -/

theorem Allocated.pairwise (h : Allocated heap free block) (hfree : WellFormed heap free) :
    (block :: free).Pairwise Block.Apart :=
  List.pairwise_cons.mpr ⟨h.apart, hfree.apart⟩

theorem Allocated.forall_pos (h : Allocated heap free block) (hfree : WellFormed heap free) :
    ∀ chunk ∈ block :: free, 0 < chunk.size := by
  intro chunk hchunk
  rcases List.mem_cons.mp hchunk with rfl | hmem
  · exact h.pos
  · exact hfree.pos chunk hmem

theorem Allocated.forall_node (h : Allocated heap free block) (hfree : WellFormed heap free) :
    ∀ chunk ∈ block :: free, IsNode chunk := by
  intro chunk hchunk
  rcases List.mem_cons.mp hchunk with rfl | hmem
  · exact h.node
  · exact hfree.node chunk hmem

/-- The address space as an arena, for blocks of any size but 0. -/
theorem arena_of_nodes {blocks : List Block} (hapart : blocks.Pairwise Block.Apart)
    (hnode : ∀ block ∈ blocks, IsNode block) (hpos : ∀ block ∈ blocks, 0 < block.size) :
    Arena ⟨0, 2 ^ 64⟩ 1 1 blocks where
  apart := hapart
  fits block hblock :=
    ⟨Nat.zero_le _, (hnode block hblock).limit_lt.le.trans (Nat.le_add_left _ _),
      hpos block hblock, one_dvd _⟩

/-- Headers that do not overlap, and an `int` for the size of the result. -/
theorem findNeighborNode_coalesces (hfree : WellFormed heap free)
    (hblock : Allocated heap free block)
    (hheaders : (block :: free).Pairwise fun first second ↦ HeadersApart first.addr second.addr)
    (hsize : block.size + ((free.filter fun chunk ↦ block.Touches chunk).map Block.size).sum <
      2 ^ 31)
    (hfuel : free.length < fuel) : Coalesces fuel heap free block := by
  have hapart := hblock.pairwise hfree
  have hpos := hblock.forall_pos hfree
  have hnode := hblock.forall_node hfree
  have hmerged := coalesce_merged hapart hpos hfree.separate
  have hlinked : Linked heap [block] free := by
    refine ⟨⟨hheaders, hnode⟩, hfree.list, fun other hother ↦ ?_⟩
    rw [List.mem_singleton.mp hother]
    exact hblock.size
  have harena : Arena ⟨0, 2 ^ 64⟩ 1 1 (block :: ([] ++ free)) :=
    arena_of_nodes hapart hnode hpos
  have hjoined := harena.coalesce one_pos
  have hlt := hsize
  rw [← hmerged.size] at hlt
  obtain ⟨next, hrun, hnext⟩ := findNeighborNode_run hlinked hlt hfuel
  refine ⟨touching_length_le hfree.apart hfree.pos, (coalesce block free).1, next, hrun,
    memFree_eq hblock.header hrun, hmerged.contains, ?_⟩
  rw [← hmerged.others]
  exact ⟨hnext.list, hnext.nodes.each, fun chunk hchunk ↦ (hjoined.fits chunk hchunk).least_le,
    hjoined.apart, hmerged.separate hpos hfree.separate⟩

/-- The headers of the chunks, linked in the order of the list. -/
def Heap.link (heap : Heap) : List Block → Heap
  | [] => heap.putHead 0
  | chunk :: rest =>
    (((heap.link rest).putSize chunk.addr chunk.size).putNext chunk.addr (headAddr rest)).putHead
      chunk.addr

/-- Memory that is zero but for the header of a block in use and those of the chunks. -/
def heapOf (block : Block) (free : List Block) : Heap :=
  ((⟨fun _ ↦ 0, 0, 0, 0, 0⟩ : Heap).putSize block.addr block.size).link free

/-- The neighbour behind the block, a chunk far away, and the neighbour before the block. -/
theorem both_neighbours_coalesced :
    Coalesces 4 (heapOf ⟨0x10018, 24⟩ [⟨0x10030, 24⟩, ⟨0x20000, 16⟩, ⟨0x10000, 24⟩])
      [⟨0x10030, 24⟩, ⟨0x20000, 16⟩, ⟨0x10000, 24⟩] ⟨0x10018, 24⟩ :=
  findNeighborNode_coalesces (by decide +kernel) (by decide +kernel) (by decide) (by decide)
    (by decide)

/-- A chunk of 8 bytes has its `next` in the size of the block behind it. The list goes on with the
chunk whose address is the size of the block. -/
def smallFree : List Block := [⟨0x11008, 16⟩, ⟨0x10000, 8⟩, ⟨0x1000, 16⟩]

def smallHeap : Heap := heapOf ⟨0x10008, 0x1000⟩ smallFree

/-- When the size of the block changes, the chunk of 8 bytes has another successor. -/
theorem smallHeap_release :
    (findNeighborNode 4 (ptr 0x10008) smallHeap).map (fun (result, next) ↦
      (result, nextAt next 0x10000)) = some (ptr 0x10000, 0x1010) := by
  decide +kernel

/-- Two neighbours of 2^30 bytes each. -/
def largeFree : List Block := [⟨0x10000, 2 ^ 30⟩]

def largeHeap : Heap := heapOf ⟨0x40010000, 2 ^ 30⟩ largeFree

theorem largeHeap_release :
    (findNeighborNode 4 (ptr 0x40010000) largeHeap).map (fun (result, next) ↦
      (result, sizeAt next 0x10000)) = some (ptr 0x10000, 2 ^ 31) := by
  decide +kernel

theorem small_and_large_not_coalesced :
    (WellFormed smallHeap smallFree ∧ Allocated smallHeap smallFree ⟨0x10008, 0x1000⟩ ∧
      ¬ Coalesces 4 smallHeap smallFree ⟨0x10008, 0x1000⟩) ∧
    (WellFormed largeHeap largeFree ∧ Allocated largeHeap largeFree ⟨0x40010000, 2 ^ 30⟩ ∧
      ¬ Coalesces 4 largeHeap largeFree ⟨0x40010000, 2 ^ 30⟩) := by
  refine ⟨⟨by decide +kernel, by decide +kernel, ?_⟩, ⟨by decide +kernel, by decide +kernel, ?_⟩⟩
  · rintro ⟨-, merged, next, hrun, -, -, hnext⟩
    have hrelease := smallHeap_release
    rw [hrun, Option.map_some, Option.some_inj, Prod.mk.injEq] at hrelease
    obtain ⟨hptr, hafter⟩ := hrelease
    have haddr : merged.addr = 0x10000 :=
      (ptr_inj (hnext.node merged List.mem_cons_self).valid.2 (by decide)).mp hptr
    have hlisted : nextAt next merged.addr = 0x1000 := hnext.list.path.2.1
    rw [haddr, hafter] at hlisted
    exact absurd hlisted (by decide)
  · rintro ⟨-, merged, next, hrun, -, -, hnext⟩
    have hrelease := largeHeap_release
    rw [hrun, Option.map_some, Option.some_inj, Prod.mk.injEq] at hrelease
    obtain ⟨hptr, hsize⟩ := hrelease
    have hnode := hnext.node merged List.mem_cons_self
    have haddr : merged.addr = 0x10000 := (ptr_inj hnode.valid.2 (by decide)).mp hptr
    have hlisted := hnext.list.size merged List.mem_cons_self
    rw [haddr, hsize] at hlisted
    exact absurd hnode.size_lt (by omega)

/-! ## A block is cut from a chunk and released -/

/-- The addresses of the chunks are those of a `struct Node`, and the sizes are multiples of 8. -/
def Aligned (free : List Block) : Prop :=
  ∀ chunk ∈ free, 8 ∣ chunk.addr ∧ 8 ∣ chunk.size

instance (free : List Block) : Decidable (Aligned free) :=
  inferInstanceAs (Decidable (∀ chunk ∈ free, 8 ∣ chunk.addr ∧ 8 ∣ chunk.size))

/-- Between two chunks there are at least 8 bytes. -/
theorem WellFormed.headers (h : WellFormed heap free) (haligned : Aligned free) :
    free.Pairwise fun first second ↦ HeadersApart first.addr second.addr := by
  apply h.apart.imp_of_mem
  intro first second hfirst hsecond hapart
  have hfirstPos := h.pos first hfirst
  have hsecondPos := h.pos second hsecond
  have hafter := h.separate first hfirst second hsecond
  have hbefore := h.separate second hsecond first hfirst
  obtain ⟨hfirstAddr, hfirstSize⟩ := haligned first hfirst
  obtain ⟨hsecondAddr, hsecondSize⟩ := haligned second hsecond
  simp only [Block.Apart, Block.limit] at hapart hafter hbefore
  unfold HeadersApart
  omega

theorem WellFormed.linked (h : WellFormed heap free) (haligned : Aligned free) :
    Linked heap [] free :=
  ⟨⟨h.headers haligned, h.node⟩, h.list, fun _ hblock ↦ absurd hblock List.not_mem_nil⟩

/-- The same chunks, in another order and another heap. -/
theorem WellFormed.perm (h : WellFormed heap free) (hperm : free'.Perm free)
    (hlist : FreeList next free') : WellFormed next free' where
  list := hlist
  node chunk hchunk := h.node chunk (hperm.mem_iff.mp hchunk)
  pos chunk hchunk := h.pos chunk (hperm.mem_iff.mp hchunk)
  apart := (hperm.pairwise_iff fun {_ _} hapart ↦ Block.Apart.symm hapart).mpr h.apart
  separate first hfirst second hsecond :=
    h.separate first (hperm.mem_iff.mp hfirst) second (hperm.mem_iff.mp hsecond)

/-- The chosen chunk and all others, among which it has no neighbour. -/
theorem WellFormed.middle (h : WellFormed heap (before ++ block :: after)) :
    ∀ other ∈ before ++ after, block.Apart other ∧ ¬ block.Touches other := by
  have hapart : (block :: (before ++ after)).Pairwise Block.Apart :=
    (List.perm_middle.pairwise_iff fun {_ _} hapart ↦ Block.Apart.symm hapart).mp h.apart
  intro other hother
  have hmem : other ∈ before ++ block :: after := by
    rw [List.mem_append] at hother
    rcases hother with hbefore | hafter
    · simp [hbefore]
    · simp [hafter]
  refine ⟨List.rel_of_pairwise_cons hapart hother, ?_⟩
  exact not_or.mpr ⟨h.separate other hmem block (by simp), h.separate block (by simp) other hmem⟩

/-- The other chunks begin a header before the chunk, or not right behind it. -/
theorem WellFormed.gap (h : WellFormed heap (before ++ block :: after))
    (haligned : Aligned (before ++ block :: after)) :
    ∀ other ∈ before ++ after,
      other.addr + 16 ≤ block.addr ∨ block.addr + block.size + 8 ≤ other.addr := by
  intro other hother
  have hmem : other ∈ before ++ block :: after := by
    simp only [List.mem_append, List.mem_cons] at hother ⊢
    tauto
  obtain ⟨hapart, htouch⟩ := h.middle other hother
  have hheader := (h.linked haligned).hold_nodes.head_apart other hother
  obtain ⟨hblockAddr, hblockSize⟩ := haligned block (by simp)
  obtain ⟨hotherAddr, -⟩ := haligned other hmem
  simp only [Block.Apart, Block.Touches, Block.limit] at hapart htouch
  unfold HeadersApart at hheader
  omega

/-- The header of what is left of the chunk overlaps no other. -/
theorem WellFormed.rest_apart (h : WellFormed heap (before ++ block :: after))
    (haligned : Aligned (before ++ block :: after)) {size : ℕ} (hroom : size + 8 ≤ block.size) :
    ∀ other ∈ [] ++ before ++ after, HeadersApart (block.addr + size) other.addr := by
  intro other hother
  have hgap := h.gap haligned other hother
  unfold HeadersApart
  omega

/-- The front of a chunk is released: it is joined with the rest, and the chunk is whole again. -/
theorem coalesce_front (h : WellFormed heap (before ++ block :: after)) {size : ℕ}
    (hpos : 0 < size) (hlt : size < block.size) :
    coalesce ⟨block.addr, size⟩ (before ++ ⟨block.addr + size, block.size - size⟩ :: after) =
      (block, before ++ after) := by
  have hfront : (⟨block.addr, size⟩ : Block).Touches ⟨block.addr + size, block.size - size⟩ :=
    Or.inr rfl
  have hjoin :
      (⟨block.addr, size⟩ : Block).join ⟨block.addr + size, block.size - size⟩ = block := by
    have hnot : (⟨block.addr + size, block.size - size⟩ : Block).limit ≠
        (⟨block.addr, size⟩ : Block).addr := by
      simp only [Block.limit]
      omega
    rw [Block.join_after hnot]
    change (⟨block.addr, size + (block.size - size)⟩ : Block) = block
    rw [Nat.add_sub_cancel' hlt.le]
  have hbefore (other : Block) (hother : other ∈ before) :
      ¬ (⟨block.addr, size⟩ : Block).Touches other := by
    obtain ⟨hapart, htouch⟩ := h.middle other (List.mem_append_left _ hother)
    have hotherPos := h.pos other (by simp [hother])
    simp only [Block.Apart, Block.Touches, Block.limit] at hapart htouch ⊢
    omega
  have hafter (other : Block) (hother : other ∈ after) : ¬ block.Touches other :=
    (h.middle other (List.mem_append_right _ hother)).2
  rw [coalesce_append_of_not_touches hbefore, coalesce_cons_of_touches hfront, hjoin,
    settle_of_not_touches hafter]

/-- An allocation that leaves room for a header, and the release of its block. -/
theorem memAlloc_memFree_restores {size : Word} (hfree : WellFormed heap free)
    (haligned : Aligned free) (hsize : 0 ≤ size.toInt)
    (hsplit : ∃ chunk ∈ free, (blockSize size).toNat + nodeSize ≤ chunk.size)
    (hlimit : ∀ chunk ∈ free, chunk.limit ≤ limit) (hfuel : free.length < fuel) :
    ∃ result held next free', memAlloc limit fuel size heap = some (result, held) ∧ result ≠ 0 ∧
      memFree fuel result held = some (0, next) ∧ free'.Perm free ∧ WellFormed next free' := by
  obtain ⟨chunk, hchunk, hroom⟩ := hsplit
  rw [toNat_blockSize hsize] at hroom
  have hlt := toNat_lt_of_nonneg hsize
  obtain ⟨before, after, block, rfl, hlargest, -, hrun⟩ :=
    memAlloc_eq limit (hfree.linked haligned) (List.ne_nil_of_mem hchunk) hlt hfuel
  have hle := hlargest chunk hchunk
  have hrest : headedSize size.toNat + 16 ≤ block.size := hroom.trans hle
  have hheaded := sixteen_le_headedSize size.toNat
  have hlarge : size.toNat + 16 ≤ block.size := by
    unfold headedSize at hrest
    omega
  obtain ⟨held, hcut, hheld⟩ := chunkNode_run (hfree.rest_apart haligned (by omega))
    ((hfree.linked haligned).putListPrev (lastAddr before)) hlt (by omega)
    (restFits_of_room hrest (hlimit block (by simp))) rfl
  rw [if_pos hlarge, hcut, word_toNat] at hrun
  have hwhole := coalesce_front hfree (by omega : 0 < headedSize size.toNat) (by omega)
  have hblock := hfree.node block (by simp)
  have hblockLt : block.addr + block.size < 2 ^ 64 := hblock.limit_lt
  have hlength : (before ++ (⟨block.addr + headedSize size.toNat,
      block.size - headedSize size.toNat⟩ : Block) :: after).length < fuel := by
    simpa using hfuel
  have hreleased := findNeighborNode_run hheld (by rw [hwhole]; exact hblock.size_lt) hlength
  rw [hwhole] at hreleased
  obtain ⟨next, hfound, hnext⟩ := hreleased
  have hperm : (block :: (before ++ after)).Perm (before ++ block :: after) :=
    List.perm_middle.symm
  have hfreed := memFree_eq (show block.addr + 16 < 2 ^ 64 by omega) hfound
  exact ⟨_, held, next, _, hrun, ptr_ne_zero (by omega) (by omega), hfreed, hperm,
    hfree.perm hperm hnext.list⟩

/-- 100 bytes from the second of three chunks. -/
theorem three_chunks_restored :
    ∃ result held next free', memAlloc 0x20008 4 100
        (heapOf ⟨0x8000, 16⟩ [⟨0x10000, 64⟩, ⟨0x11000, 4096⟩, ⟨0x20000, 8⟩]) =
          some (result, held) ∧ result ≠ 0 ∧
      memFree 4 result held = some (0, next) ∧
      free'.Perm [⟨0x10000, 64⟩, ⟨0x11000, 4096⟩, ⟨0x20000, 8⟩] ∧ WellFormed next free' :=
  memAlloc_memFree_restores (by decide +kernel) (by decide) (by decide) (by decide +kernel)
    (by decide) (by decide)

end OS537.Mem
