import OS537.Mem.Runs
import OS537.Mem.WholeChunk

/-!
# Exhaustion

`Mem_Alloc` on a list without a chunk that is large enough returns `NULL` and changes no header,
but on an empty list `getWorstFit` reads the size of the node at `NULL`, and behind the last chunk
there may be no memory for the header of the rest. The list can become empty when a request uses up
a chunk. That also sets the size of the block behind the chunk to 0; the
block is then lost when it is released, but the list stays a list.
-/

namespace OS537.Mem

open Blocks Bytes Chain Code Run

/-! ## Blocks that share no header -/

/-- The blocks have no address in common, and neither have their headers. -/
def Clear (first second : Block) : Prop :=
  first.Apart second ∧ HeadersApart first.addr second.addr

instance : Std.Symm Clear :=
  ⟨fun _ _ hclear ↦ ⟨hclear.1.symm, hclear.2.symm⟩⟩

/-- The block begins in the region, at a multiple of 8 bytes from its start, and ends in it. -/
structure Inside (region : Region) (block : Block) : Prop where
  low : region.addr ≤ block.addr
  begins : block.addr < region.addr + region.size
  high : block.limit ≤ region.addr + region.size
  aligned : 8 ∣ block.addr - region.addr

abbrev Placed (region : Region) (blocks : List Block) : Prop :=
  Scattered Clear (Inside region) blocks

variable {region : Region} {block other chunk : Block} {blocks : List Block}

theorem Inside.isNode (h : Inside region block) : IsNode block :=
  region.isNode h.low h.high

theorem nodes_of_placed (h : Placed region blocks) : Nodes blocks :=
  ⟨h.apart.imp fun hclear ↦ hclear.2, fun block hblock ↦ (h.each block hblock).isNode⟩

theorem length_le_of_placed (h : Placed region blocks) : blocks.length ≤ region.size := by
  have hnodup : (blocks.map Block.addr).Nodup := by
    rw [List.Nodup, List.pairwise_map]
    exact h.apart.imp fun hclear ↦ hclear.2.ne
  exact length_le_size hnodup fun block hblock ↦
    ⟨(h.each block hblock).low, (h.each block hblock).begins⟩

/-- The block is part of the other one, with the same header. -/
def Shrinks (block other : Block) : Prop :=
  block.addr = other.addr ∧ block.size ≤ other.size

theorem Shrinks.limit_le (h : Shrinks block other) : block.limit ≤ other.limit := by
  obtain ⟨haddr, hsize⟩ := h
  unfold Block.limit
  omega

theorem Inside.shrink (h : Inside region other) (hshrinks : Shrinks block other) :
    Inside region block := by
  have hle := hshrinks.limit_le
  obtain ⟨haddr, -⟩ := hshrinks
  exact ⟨haddr ▸ h.low, haddr ▸ h.begins, hle.trans h.high, haddr ▸ h.aligned⟩

theorem Clear.shrink {first second : Block} (h : Clear first second)
    (hblock : Shrinks block first) (hother : Shrinks other second) : Clear block other := by
  have hblockLe := hblock.limit_le
  have hotherLe := hother.limit_le
  obtain ⟨hapart, hheaders⟩ := h
  obtain ⟨haddr, -⟩ := hblock
  obtain ⟨haddr', -⟩ := hother
  unfold Clear Block.Apart HeadersApart at *
  omega

theorem placed_map (h : Placed region blocks) {f : Block → Block}
    (hshrinks : ∀ block ∈ blocks, Shrinks (f block) block) : Placed region (blocks.map f) := by
  constructor
  · rw [List.pairwise_map]
    exact h.apart.imp_of_mem fun hfirst hsecond hclear ↦
      hclear.shrink (hshrinks _ hfirst) (hshrinks _ hsecond)
  · intro block hblock
    obtain ⟨other, hother, rfl⟩ := List.mem_map.mp hblock
    exact (h.each other hother).shrink (hshrinks other hother)

theorem placed_middle {others : List Block} : Placed region (blocks ++ block :: others) ↔
    Placed region (block :: (blocks ++ others)) :=
  scattered_middle

/-- Only the last blocks shrink. -/
theorem placed_append_map {others : List Block} (h : Placed region (blocks ++ others))
    {f : Block → Block} (hshrinks : ∀ block, Shrinks (f block) block) :
    Placed region (blocks ++ others.map f) := by
  obtain ⟨hblocks, hothers, hboth⟩ := List.pairwise_append.mp h.apart
  have hmapped := placed_map ⟨hothers, fun block hblock ↦
    h.each block (List.mem_append_right _ hblock)⟩ fun block _ ↦ hshrinks block
  refine ⟨List.pairwise_append.mpr ⟨hblocks, hmapped.apart, ?_⟩, ?_⟩
  · intro first hfirst second hsecond
    obtain ⟨other, hother, rfl⟩ := List.mem_map.mp hsecond
    exact (hboth first hfirst other hother).shrink ⟨rfl, le_rfl⟩ (hshrinks other)
  · intro block hblock
    rcases List.mem_append.mp hblock with hfirst | hlast
    · exact h.each block (List.mem_append_left _ hfirst)
    · exact hmapped.each block hlast

/-- Two neighbours joined. A block that is empty has no place between them, for its header would be
that of the second. -/
theorem placed_join (htouch : block.Touches chunk) (h : Placed region (block :: chunk :: blocks)) :
    Placed region (block.join chunk :: blocks) := by
  have hblock := h.each block List.mem_cons_self
  have hchunk := h.each chunk (by simp)
  apply h.tail.tail.cons
  · unfold Block.join
    split
    next hbefore =>
      refine ⟨hchunk.low, hchunk.begins, ?_, hchunk.aligned⟩
      have hhigh := hblock.high
      simp only [Block.limit] at hbefore hhigh ⊢
      omega
    next hbefore =>
      refine ⟨hblock.low, hblock.begins, ?_, hblock.aligned⟩
      have hhigh := hchunk.high
      simp only [Block.Touches, Block.limit] at htouch hbefore hhigh ⊢
      omega
  · intro other hother
    have hclear := h.head_apart other (List.mem_cons_of_mem _ hother)
    have hclear' := h.tail.head_apart other hother
    unfold Block.join
    split <;>
      simp only [Clear, Block.Touches, Block.Apart, HeadersApart, Block.limit] at * <;>
      omega

theorem placed_cut (h : Placed region (block :: blocks)) {size : ℕ} (hsize : 16 ≤ size)
    (hrest : size + 16 ≤ block.size) (hdvd : 8 ∣ size) :
    Placed region (⟨block.addr, size⟩ :: ⟨block.addr + size, block.size - size⟩ :: blocks) := by
  have hblock := h.each block List.mem_cons_self
  have hlow := hblock.low
  have hhigh := hblock.high
  have haligned := hblock.aligned
  simp only [Block.limit] at hhigh
  have hfront : Shrinks ⟨block.addr, size⟩ block := ⟨rfl, by change size ≤ block.size; omega⟩
  apply Scattered.cons
  · apply h.tail.cons
    · refine ⟨?_, ?_, ?_, ?_⟩ <;> simp only [Block.limit] <;> omega
    · intro other hother
      have hclear := h.head_apart other hother
      simp only [Clear, Block.Apart, HeadersApart, Block.limit] at hclear ⊢
      omega
  · exact hblock.shrink hfront
  · intro other hother
    rcases List.mem_cons.mp hother with rfl | hmem
    · simp only [Clear, Block.Apart, HeadersApart, Block.limit]
      omega
    · exact (h.head_apart other hmem).shrink hfront ⟨rfl, le_rfl⟩

/-! ## The invariant -/

/-- The block with the size that its header has. -/
def recorded (heap : Heap) (block : Block) : Block :=
  ⟨block.addr, sizeAt heap block.addr⟩

/-- The chunks of the list and the blocks in use have their places, and the headers of blocks in use
have their sizes or 0. -/
structure Usable (region : Region) (session : Session) (free : List Block) : Prop where
  placed : Placed region (session.live ++ free)
  list : FreeList session.heap free
  size : ∀ block ∈ session.live, Shrinks (recorded session.heap block) block
  room : ∀ block ∈ session.live, 16 ≤ block.size

variable {session : Session} {free before after : List Block} {fuel limit : ℕ}

theorem map_recorded {heap : Heap} (h : FreeList heap free) : free.map (recorded heap) = free := by
  calc
    free.map (recorded heap) = free.map id := by
      apply List.map_congr_left
      intro block hblock
      rw [recorded, h.size block hblock]
      rfl
    _ = free := List.map_id _

theorem Usable.placed_recorded (h : Usable region session free) :
    Placed region (session.live.map (recorded session.heap) ++ free) := by
  have hmapped : Placed region ((session.live ++ free).map (recorded session.heap)) := by
    apply placed_map h.placed
    intro block hblock
    rcases List.mem_append.mp hblock with hlive | hfree
    · exact h.size block hlive
    · exact ⟨rfl, (h.list.size block hfree).le⟩
  rwa [List.map_append, map_recorded h.list] at hmapped

theorem Usable.linked (h : Usable region session free) :
    Linked session.heap (session.live.map (recorded session.heap)) free := by
  refine ⟨nodes_of_placed h.placed_recorded, h.list, fun block hblock ↦ ?_⟩
  obtain ⟨other, -, rfl⟩ := List.mem_map.mp hblock
  rfl

theorem Usable.length_le (h : Usable region session free) : free.length ≤ region.size := by
  have hlength := length_le_of_placed h.placed
  rw [List.length_append] at hlength
  omega

theorem Usable.chunksFrom_eq (h : Usable region session free) (hfuel : region.size < fuel) :
    chunksFrom session.heap fuel session.heap.headFree = free :=
  Mem.chunksFrom_eq (fun block hblock ↦ (h.linked.free_node block hblock).valid) h.list.path
    h.list.size (h.length_le.trans_lt hfuel)

theorem Usable.room_cons {size : ℕ} (h : Usable region session free) (addr : ℕ)
    (hroom : 16 ≤ size) : ∀ block ∈ (⟨addr, size⟩ : Block) :: session.live, 16 ≤ block.size := by
  intro block hblock
  rcases List.mem_cons.mp hblock with rfl | hlive
  · exact hroom
  · exact h.room block hlive

/-- The headers of blocks in use have kept their sizes. -/
theorem Usable.size_of_linked (h : Usable region session free) {next : Heap} {front : Block}
    {f : Block → Block} (hf : ∀ block, Shrinks (f block) block)
    (hheld : ∀ block ∈ front :: (session.live.map (recorded session.heap)).map f,
      sizeAt next block.addr = block.size) :
    ∀ block ∈ front :: session.live, Shrinks (recorded next block) block := by
  intro block hblock
  rcases List.mem_cons.mp hblock with rfl | hlive
  · exact ⟨rfl, (hheld block List.mem_cons_self).le⟩
  · have hmem : f (recorded session.heap block) ∈
        front :: (session.live.map (recorded session.heap)).map f :=
      List.mem_cons_of_mem _ (List.mem_map_of_mem (List.mem_map_of_mem hlive))
    have hsize := hheld _ hmem
    obtain ⟨haddr, hle⟩ := hf (recorded session.heap block)
    have hle' := (h.size block hlive).2
    rw [haddr] at hsize
    exact ⟨rfl, hsize.le.trans (hle.trans hle')⟩

theorem zeroAt_shrinks (addr : ℕ) (block : Block) : Shrinks (zeroAt addr block) block := by
  refine ⟨zeroAt_addr addr block, ?_⟩
  unfold zeroAt
  split
  · exact Nat.zero_le _
  · exact le_rfl

/-! ## One call -/

/-- If the largest chunk is enough for the request, nothing is left of it or room for a header, and
there is memory for what is stored there. -/
def LeavesNothingOrNode (limit fuel : ℕ) (session : Session) : Call → Prop
  | .alloc size =>
      let free := chunksFrom session.heap fuel session.heap.headFree
      ∀ block ∈ free, (∀ other ∈ free, other.size ≤ block.size) →
        size.toNat + nodeSize ≤ block.size →
        (block.size = (blockSize size).toNat ∨ (blockSize size).toNat + nodeSize ≤ block.size) ∧
          RestFits limit (blockSize size).toNat block
  | .free _ => True
  | .write _ _ => True

instance (limit fuel : ℕ) (session : Session) (call : Call) :
    Decidable (LeavesNothingOrNode limit fuel session call) :=
  match call with
  | .alloc size => inferInstanceAs (Decidable
      (∀ block ∈ chunksFrom session.heap fuel session.heap.headFree,
        (∀ other ∈ chunksFrom session.heap fuel session.heap.headFree, other.size ≤ block.size) →
          size.toNat + nodeSize ≤ block.size → (block.size = (blockSize size).toNat ∨
            (blockSize size).toNat + nodeSize ≤ block.size) ∧
              RestFits limit (blockSize size).toNat block))
  | .free _ => inferInstanceAs (Decidable True)
  | .write _ _ => inferInstanceAs (Decidable True)

/-- The chosen chunk with all other blocks. -/
theorem Usable.placed_chosen (h : Usable region session (before ++ block :: after)) :
    Placed region (block :: (session.live ++ (before ++ after))) := by
  have hplaced := h.placed
  rwa [← List.append_assoc, placed_middle, List.append_assoc] at hplaced

/-- A chunk is cut. -/
theorem Usable.cut {size : ℕ} (h : Usable region session (before ++ block :: after))
    (hsize : size < 2 ^ 31) (hrest : headedSize size + 16 ≤ block.size)
    (hfits : RestFits limit (headedSize size) block) :
    ∃ next, chunkNode limit (ptr block.addr) (word size)
        (session.heap.putListPrev (lastAddr before)) = some (ptr (block.addr + 16), next) ∧
      Usable region ⟨next, ⟨block.addr, headedSize size⟩ :: session.live⟩
        (before ++ ⟨block.addr + headedSize size, block.size - headedSize size⟩ :: after) := by
  have hplaced := placed_cut h.placed_chosen (sixteen_le_headedSize size) hrest
    (eight_dvd_headedSize size)
  have hheaders : ∀ other ∈ session.live.map (recorded session.heap) ++ before ++ after,
      HeadersApart (block.addr + headedSize size) other.addr := by
    intro other hother
    rw [List.append_assoc, List.mem_append] at hother
    rcases hother with hlive | hfree
    · obtain ⟨listed, hlisted, rfl⟩ := List.mem_map.mp hlive
      exact (hplaced.tail.head_apart listed (by simp [hlisted])).2
    · exact (hplaced.tail.head_apart other (List.mem_append_right _ hfree)).2
  obtain ⟨next, hrun, hnext⟩ := chunkNode_run hheaders (h.linked.putListPrev (lastAddr before))
    hsize (by omega) hfits rfl
  refine ⟨next, hrun, ?_, hnext.list, ?_, h.room_cons _ (sixteen_le_headedSize size)⟩
  · rw [← List.append_assoc, placed_middle, List.append_assoc]
    exact hplaced.perm (List.Perm.swap _ _ _)
  · apply h.size_of_linked (f := id) fun _ ↦ ⟨rfl, le_rfl⟩
    rw [List.map_id]
    exact hnext.held_size

/-- The four bytes behind a chunk that is used up are the size of a block or of no header. -/
theorem Usable.hits {size : ℕ} (h : Usable region session (before ++ block :: after))
    (hwhole : headedSize size = block.size) :
    ∀ other ∈ session.live ++ (before ++ after), Hits block.limit other := by
  intro other hother
  have hclear := h.placed_chosen.head_apart other hother
  have hblock := h.placed_chosen.each block List.mem_cons_self
  have hinside := h.placed_chosen.each other (List.mem_cons_of_mem _ hother)
  have hlow := hblock.low
  have haligned := hblock.aligned
  have hlow' := hinside.low
  have haligned' := hinside.aligned
  have hdvd := eight_dvd_headedSize size
  have hheaded := sixteen_le_headedSize size
  simp only [Clear, Block.Apart, HeadersApart, Hits, Block.limit] at *
  omega

/-- A chunk is used up. -/
theorem Usable.whole {size : ℕ} (h : Usable region session (before ++ block :: after))
    (hsize : size < 2 ^ 31) (hwhole : headedSize size = block.size)
    (hfits : RestFits limit (headedSize size) block) :
    ∃ next free', chunkNode limit (ptr block.addr) (word size)
        (session.heap.putListPrev (lastAddr before)) = some (ptr (block.addr + 16), next) ∧
      Usable region ⟨next, block :: session.live⟩ free' := by
  have hhits := h.hits hwhole
  have hkept := keptChunks_sublist before after
  have hlinked := h.linked.putListPrev (lastAddr before)
  obtain ⟨next, hrun, hnext⟩ := chunkNode_whole hwhole hsize hfits hlinked rfl (by
    intro other hother
    rcases List.mem_append.mp hother with hlive | hfree
    · obtain ⟨listed, hlisted, rfl⟩ := List.mem_map.mp hlive
      exact hhits listed (List.mem_append_left _ hlisted)
    · exact hhits other (List.mem_append_right _ (hkept.subset hfree)))
  refine ⟨next, _, hrun, ?_, hnext.list, ?_,
    h.room_cons block.addr (hwhole ▸ sixteen_le_headedSize size)⟩
  · have hplaced : Placed region (block :: session.live ++ keptChunks before after) :=
      h.placed_chosen.sublist (hkept.append_left (block :: session.live))
    exact placed_append_map hplaced (zeroAt_shrinks block.limit)
  · exact h.size_of_linked (zeroAt_shrinks block.limit) hnext.held_size

theorem Usable.alloc {size : Word} (h : Usable region session free)
    (hpermitted : Permitted session (.alloc size))
    (hleaves : LeavesNothingOrNode limit fuel session (.alloc size)) (hfuel : region.size < fuel) :
    ∃ next free', session.step limit fuel (.alloc size) = some next ∧ Usable region next free' := by
  have hlt := toNat_lt_of_nonneg hpermitted.1
  have hblockSize := toNat_blockSize hpermitted.1
  have hne : free ≠ [] := by
    rintro rfl
    exact hpermitted.2 h.list.headFree_eq
  simp only [LeavesNothingOrNode, h.chunksFrom_eq hfuel, hblockSize] at hleaves
  obtain ⟨before, after, block, rfl, hlargest, -, hrun⟩ :=
    memAlloc_eq limit h.linked hne hlt (h.length_le.trans_lt hfuel)
  rw [word_toNat] at hrun
  by_cases hlarge : size.toNat + 16 ≤ block.size
  · rw [if_pos hlarge] at hrun
    have hblock := (h.linked.free_node block (by simp)).limit_lt
    have hresult : block.addr + 16 < 2 ^ 64 := by
      unfold Block.limit at hblock
      omega
    obtain ⟨hwhole | hroom, hfits⟩ := hleaves block (by simp) hlargest hlarge
    · obtain ⟨next, free', hchunk, hnext⟩ := h.whole hlt hwhole.symm hfits
      rw [word_toNat] at hchunk
      have hstep := Session.step_alloc hresult (hrun.trans hchunk)
      rw [hblockSize, ← hwhole] at hstep
      exact ⟨_, free', hstep, hnext⟩
    · obtain ⟨next, hchunk, hnext⟩ := h.cut hlt hroom hfits
      rw [word_toNat] at hchunk
      have hstep := Session.step_alloc hresult (hrun.trans hchunk)
      rw [hblockSize] at hstep
      exact ⟨_, _, hstep, hnext⟩
  · rw [if_neg hlarge] at hrun
    exact ⟨_, before ++ block :: after, Session.step_alloc_null hrun, h.placed,
      ⟨h.list.path, h.list.size⟩, h.size, h.room⟩

theorem Usable.release {node : Ptr} (h : Usable region session free)
    (hpermitted : Permitted session (.free node)) (hfuel : region.size < fuel) :
    ∃ next free', session.step limit fuel (.free node) = some next ∧ Usable region next free' := by
  obtain ⟨found, others, hperm, rfl, hstep⟩ := Session.exists_released hpermitted
  have hfound : found ∈ session.live := hperm.mem_iff.mpr List.mem_cons_self
  have hlinked := h.linked.perm_held (hperm.map (recorded session.heap))
  have hplaced : Placed region (found :: (others ++ free)) :=
    h.placed.perm (hperm.append_right free)
  -- The block is released with the size that its header has.
  have hrecorded : Placed region (recorded session.heap found :: (others ++ free)) := by
    apply hplaced.tail.cons
    · exact (hplaced.each found List.mem_cons_self).shrink (h.size found hfound)
    · intro other hother
      exact (hplaced.head_apart other hother).shrink (h.size found hfound) ⟨rfl, le_rfl⟩
  have hmerged := coalesce_keeps (fun hperm hplaced ↦ hplaced.perm hperm)
    (fun htouch hplaced ↦ placed_join htouch hplaced) hrecorded
  have hlt := (hmerged.each _ List.mem_cons_self).isNode.size_lt
  obtain ⟨next, hrun, hnext⟩ := findNeighborNode_run hlinked hlt (h.length_le.trans_lt hfuel)
  have hheader : (recorded session.heap found).addr + 16 < 2 ^ 64 := by
    have hroom := h.room found hfound
    have hlimit := (hplaced.each found List.mem_cons_self).isNode.limit_lt
    simp only [recorded, Block.limit] at hlimit ⊢
    omega
  have hkept (block : Block) (hblock : block ∈ others) : block ∈ session.live :=
    hperm.mem_iff.mpr (List.mem_cons_of_mem _ hblock)
  refine ⟨_, _, hstep (memFree_eq hheader hrun), scattered_middle.mpr hmerged, hnext.list, ?_,
    fun block hblock ↦ h.room block (hkept block hblock)⟩
  intro block hblock
  have hsize := hnext.held_size (recorded session.heap block) (List.mem_map_of_mem hblock)
  exact ⟨rfl, hsize.le.trans (h.size block (hkept block hblock)).2⟩

theorem Usable.write {addr : ℕ} {value : Byte} (h : Usable region session free)
    (hpermitted : Permitted session (.write addr value)) :
    ∃ next free', session.step limit fuel (.write addr value) = some next ∧
      Usable region next free' := by
  obtain ⟨block, hblock, hlow, hhigh⟩ := hpermitted
  have hsame (other : Block) (hother : other ∈ session.live ++ free) :
      SameHeader { session.heap with mem := Function.update session.heap.mem addr value }
        session.heap other.addr := by
    apply sameHeader_write
    by_cases heq : block = other
    · subst heq
      exact Or.inr hlow
    · have hclear := h.placed.apart.forall (List.mem_append_left _ hblock) hother heq
      simp only [Clear, Block.Apart, HeadersApart, Block.limit] at hclear hhigh
      omega
  have hlist := h.list.congr (fun other hother ↦ hsame other (by simp [hother])) rfl
  refine ⟨_, free, rfl, h.placed, hlist, fun other hother ↦ ?_, h.room⟩
  have hsize := (hsame other (List.mem_append_left _ hother)).size
  exact ⟨rfl, hsize.le.trans (h.size other hother).2⟩

/-- A permitted call that leaves nothing or room for a header keeps the list a list. -/
theorem Usable.step {call : Call} (h : Usable region session free)
    (hpermitted : Permitted session call) (hleaves : LeavesNothingOrNode limit fuel session call)
    (hfuel : region.size < fuel) :
    ∃ next free', session.step limit fuel call = some next ∧ Usable region next free' := by
  cases call with
  | alloc size => exact h.alloc hpermitted hleaves hfuel
  | free node => exact h.release hpermitted hfuel
  | write addr value => exact h.write hpermitted

/-! ## Clean failure -/

/-- `Mem_Alloc` is defined, returns `NULL` with `E_NO_SPACE` just when no chunk is large enough, and
then has changed neither the list nor any header. -/
def FailsCleanly (limit fuel : ℕ) (heap : Heap) (size : Word) : Prop :=
  ∃ result next, memAlloc limit fuel size heap = some (result, next) ∧
    (result = 0 ∧ next.mError = eNoSpace ↔
      ∀ chunk ∈ chunksFrom heap fuel heap.headFree, ¬ size.toNat + nodeSize ≤ chunk.size) ∧
    (result = 0 → next.headFree = heap.headFree ∧ next.mem = heap.mem)

/-- On an empty list the size of the node at `NULL` is read. -/
theorem getWorstFit_empty {heap : Heap} (h : heap.headFree = 0) (size : Word) :
    getWorstFit fuel size heap = none := by
  cases fuel with
  | zero => rfl
  | succ fuel =>
    have hloop : worstFitLoop (fuel + 1) 0 heap.headFree 0 heap = some (0, heap) := by
      rw [worstFitLoop, if_pos h]
      rfl
    unfold getWorstFit
    rw [bind_run get_run, bind_run hloop]
    exact bind_run_none (if_pos rfl)

theorem memAlloc_empty {heap : Heap} {size : Word} (h : heap.headFree = 0) :
    memAlloc limit fuel size heap = none :=
  bind_run_none (getWorstFit_empty h size)

/-- `chunkNode` returns the payload of the chunk, whatever is left of it. -/
theorem chunkNode_defined {heap : Heap} {held : List Block} {size : ℕ}
    (h : Linked heap held (before ++ block :: after)) (hsize : size < 2 ^ 31)
    (hheaded : headedSize size < 2 ^ 31) (hrest : Valid (block.addr + headedSize size))
    (hfits : RestFits limit (headedSize size) block)
    (hprev : heap.listPrev = ptr (lastAddr before)) :
    ∃ next, chunkNode limit (ptr block.addr) (word size) heap =
      some (ptr (block.addr + 16), next) := by
  obtain ⟨value, hlt, hvalue⟩ : ∃ value < 2 ^ 32,
      word block.size - word (headedSize size) = word value :=
    ⟨_, BitVec.isLt _, (word_toNat _).symm⟩
  exact ⟨_, h.chunkNode_eq hprev (blockSize_word hsize) hheaded hrest hfits hvalue hlt⟩

/-- In a usable heap only an empty list, or the end of the memory behind the chunk that is chosen,
keeps an allocation from failing cleanly. -/
theorem Usable.failsCleanly_iff {size : Word} (h : Usable region session free)
    (hfuel : region.size < fuel) (hspace : region.addr + region.size + 16 < 2 ^ 64)
    (hint : region.size + 16 ≤ 2 ^ 31) (hsize : 0 ≤ size.toInt) :
    FailsCleanly limit fuel session.heap size ↔ session.heap.headFree ≠ 0 ∧
      WorstFits limit size (chunksFrom session.heap fuel session.heap.headFree) := by
  have hvalid {chunk : Block} (hchunk : chunk ∈ free) (hlarge : size.toNat + 16 ≤ chunk.size) :
      headedSize size.toNat < 2 ^ 31 ∧ Valid (chunk.addr + headedSize size.toNat) := by
    have hinside := h.placed.each chunk (List.mem_append_right _ hchunk)
    have hlow := hinside.low
    have hhigh := hinside.high
    have hpos := region.addr_pos
    have hheaded : headedSize size.toNat ≤ size.toNat + 23 := by
      unfold headedSize
      omega
    simp only [Block.limit] at hhigh
    exact ⟨by omega, by omega, by omega⟩
  rw [h.chunksFrom_eq hfuel]
  constructor
  · rintro ⟨result, next, hrun, -⟩
    constructor
    · intro hempty
      rw [memAlloc_empty hempty] at hrun
      cases hrun
    · by_contra hout
      rw [memAlloc_outside h.linked hsize (h.length_le.trans_lt hfuel)
        (fun _ hchunk ↦ hvalid hchunk) hout] at hrun
      cases hrun
  · rintro ⟨hhead, hworst⟩
    have hne : free ≠ [] := by
      rintro rfl
      exact hhead h.list.headFree_eq
    have hlt := toNat_lt_of_nonneg hsize
    unfold FailsCleanly
    rw [h.chunksFrom_eq hfuel]
    obtain ⟨before, after, block, rfl, hlargest, hfirst, hrun⟩ :=
      memAlloc_eq limit h.linked hne hlt (h.length_le.trans_lt hfuel)
    rw [word_toNat] at hrun
    by_cases hlarge : size.toNat + 16 ≤ block.size
    · obtain ⟨hheaded, hrest⟩ := hvalid (by simp) hlarge
      have hfits := hworst block (argmax_of_split before hlargest hfirst) hlarge
      rw [toNat_blockSize hsize] at hfits
      obtain ⟨next, hchunk⟩ := chunkNode_defined (h.linked.putListPrev (lastAddr before)) hlt
        hheaded hrest hfits rfl
      rw [word_toNat] at hchunk
      rw [if_pos hlarge, hchunk] at hrun
      have hlimit := (h.linked.free_node block (by simp)).limit_lt
      simp only [Block.limit] at hlimit
      have hresult : ptr (block.addr + 16) ≠ 0 := ptr_ne_zero (by omega) (by omega)
      refine ⟨_, next, hrun, ⟨fun hfailed ↦ absurd hfailed.1 hresult, fun hnone ↦ ?_⟩,
        fun hnull ↦ absurd hnull hresult⟩
      exact absurd hlarge (hnone block (by simp))
    · rw [if_neg hlarge] at hrun
      refine ⟨0, _, hrun, ⟨fun _ chunk hchunk hfits ↦ ?_, fun _ ↦ ⟨rfl, rfl⟩⟩,
        fun _ ↦ ⟨rfl, rfl⟩⟩
      exact hlarge (hfits.trans (hlargest chunk hchunk))

/-! ## Whole runs -/

/-- What the operating system guarantees: a mapping is not empty, not at `NULL`, and in the lower
half of the address space. -/
structure Mapping (mmap : Word → Option Ptr) : Prop where
  pos : ∀ size base, mmap size = some base → 0 < size.toInt
  low : ∀ size base, mmap size = some base → base.toNat + size.toNat ≤ 2 ^ 47

/-- The page size is a power of two, and a header has room in a page. -/
def PowerOfTwo (pageSize : Word) : Prop :=
  ∃ exponent, 4 ≤ exponent ∧ exponent ≤ 30 ∧ pageSize.toNat = 2 ^ exponent

section MappedSize

variable {pageSize size : Word}

theorem PowerOfTwo.toNat_lt (h : PowerOfTwo pageSize) : pageSize.toNat < 2 ^ 31 := by
  obtain ⟨exponent, -, hle, heq⟩ := h
  rw [heq]
  exact Nat.pow_lt_pow_right (by decide) (by omega)

theorem PowerOfTwo.sixteen_le (h : PowerOfTwo pageSize) : 16 ≤ pageSize.toNat := by
  obtain ⟨exponent, hle, -, heq⟩ := h
  rw [heq]
  exact Nat.pow_le_pow_right (n := 2) (by decide) hle

/-- Twice the page size divides 2^31. -/
theorem PowerOfTwo.exists_mul (h : PowerOfTwo pageSize) :
    ∃ count, 2 ^ 31 = 2 * pageSize.toNat * count := by
  obtain ⟨exponent, -, hle, heq⟩ := h
  refine ⟨2 ^ (30 - exponent), ?_⟩
  rw [heq]
  calc
    2 ^ 31 = 2 ^ (1 + exponent + (30 - exponent)) := by
      congr 1
      omega
    _ = 2 * 2 ^ exponent * 2 ^ (30 - exponent) := by
      rw [pow_add, pow_add, pow_one]

theorem srem_pageSize (hpage : PowerOfTwo pageSize) (hsize : 0 < size.toInt) :
    size.srem pageSize = word (size.toNat % pageSize.toNat) := by
  rw [← srem_word (toNat_lt_of_nonneg hsize.le) hpage.toNat_lt, word_toNat, word_toNat]

/-- A size that is no multiple of the page size is nearly doubled. -/
theorem toNat_mappedSize (hpage : PowerOfTwo pageSize) (hsize : 0 < size.toInt) :
    (mappedSize pageSize size).toNat =
      if size.toNat % pageSize.toNat = 0 then size.toNat
      else 2 * size.toNat - size.toNat % pageSize.toNat := by
  have hlt := toNat_lt_of_nonneg hsize.le
  have hle : size.toNat % pageSize.toNat ≤ size.toNat := Nat.mod_le _ _
  unfold mappedSize
  rw [srem_pageSize hpage hsize]
  by_cases hzero : size.toNat % pageSize.toNat = 0
  · have hword : word 0 = 0 := rfl
    rw [if_pos hzero, hzero, if_neg (not_not.mpr hword)]
  · rw [if_neg hzero, if_pos (word_ne_zero (Nat.pos_of_ne_zero hzero) (by omega))]
    nth_rewrite 1 2 [← word_toNat size]
    rw [word_sub hle (by omega), word_add, toNat_word (by omega)]
    omega

/-- The recorded size leaves room below 2^31. -/
theorem mappedSize_le (hpage : PowerOfTwo pageSize) (hsize : 0 < size.toInt)
    (hmapped : 0 < (mappedSize pageSize size).toInt) :
    (mappedSize pageSize size).toNat + 16 ≤ 2 ^ 31 := by
  have hlt := toNat_lt_of_nonneg hmapped.le
  have hsixteen := hpage.sixteen_le
  obtain ⟨count, hcount⟩ := hpage.exists_mul
  have hdiv := Nat.div_add_mod size.toNat pageSize.toNat
  have hmod := Nat.mod_lt size.toNat (by omega : 0 < pageSize.toNat)
  rw [toNat_mappedSize hpage hsize] at hlt ⊢
  split at hlt
  next hzero =>
    rw [if_pos hzero]
    -- a multiple of the page size below another one
    have hquotient : size.toNat / pageSize.toNat < 2 * count := by
      by_contra hge
      have hmul := Nat.mul_le_mul_left pageSize.toNat (not_lt.mp hge)
      have hassoc : pageSize.toNat * (2 * count) = 2 * pageSize.toNat * count := by ring
      omega
    have hmul := Nat.mul_le_mul_left pageSize.toNat (Nat.succ_le_of_lt hquotient)
    have hassoc : pageSize.toNat * (2 * count) = 2 * pageSize.toNat * count := by ring
    have hsucc : pageSize.toNat * (size.toNat / pageSize.toNat).succ =
        pageSize.toNat * (size.toNat / pageSize.toNat) + pageSize.toNat := Nat.mul_succ _ _
    omega
  next hzero =>
    rw [if_neg hzero]
    have hquotient : size.toNat / pageSize.toNat < count := by
      by_contra hge
      have hmul := Nat.mul_le_mul_left (2 * pageSize.toNat) (not_lt.mp hge)
      have hassoc : 2 * pageSize.toNat * (size.toNat / pageSize.toNat) =
          2 * (pageSize.toNat * (size.toNat / pageSize.toNat)) := by ring
      omega
    have hmul := Nat.mul_le_mul_left (2 * pageSize.toNat) (Nat.succ_le_of_lt hquotient)
    have hsucc : 2 * pageSize.toNat * (size.toNat / pageSize.toNat).succ =
        2 * (pageSize.toNat * (size.toNat / pageSize.toNat)) + 2 * pageSize.toNat := by
      rw [Nat.mul_succ]
      ring
    omega

end MappedSize

/-- A successful `Mem_Init`, for any size, makes the region one free chunk. -/
theorem memInit_usable {pageSize size : Word} {mmap : Word → Option Ptr} {heap start : Heap}
    (hpage : PowerOfTwo pageSize) (hmmap : Mapping mmap)
    (hinit : memInit pageSize mmap size heap = some (0, start)) :
    ∃ region : Region, region.size = (mappedSize pageSize size).toNat ∧
      region.addr + region.size ≤ 2 ^ 47 ∧ region.size + 16 ≤ 2 ^ 31 ∧
      Usable region ⟨start, []⟩ [region.toBlock] := by
  obtain ⟨hpos, base, hmap, hbase, hstart⟩ := memInit_eq_some hinit
  have hmapped := hmmap.pos _ _ hmap
  have hlow := hmmap.low _ _ hmap
  have hle := mappedSize_le hpage hpos hmapped
  have hbasePos : 0 < base.toNat := Nat.pos_of_ne_zero fun hzero ↦
    hbase (BitVec.eq_of_toNat_eq hzero)
  have hsizePos : 0 < (mappedSize pageSize size).toNat := by
    apply Nat.pos_of_ne_zero
    intro hzero
    rw [BitVec.eq_of_toNat_eq (y := 0) hzero] at hmapped
    exact lt_irrefl _ hmapped
  have hlimit : base.toNat + (mappedSize pageSize size).toNat < 2 ^ 64 := by omega
  have hlt : (mappedSize pageSize size).toNat < 2 ^ 31 := by omega
  obtain ⟨region, hregion⟩ : ∃ region : Region,
      region.toBlock = ⟨base.toNat, (mappedSize pageSize size).toNat⟩ :=
    ⟨⟨_, hbasePos, hlimit, hlt⟩, rfl⟩
  have haddr : region.addr = base.toNat := congrArg Block.addr hregion
  have hsize : region.size = (mappedSize pageSize size).toNat := congrArg Block.size hregion
  rw [← hregion] at hstart
  rw [← hsize] at hlow hle hsizePos
  rw [← haddr] at hlow
  refine ⟨region, hsize, hlow, hle, ?_, ?_, fun _ hblock ↦ absurd hblock List.not_mem_nil,
    fun _ hblock ↦ absurd hblock List.not_mem_nil⟩
  · refine ⟨List.pairwise_singleton _ _, fun block hblock ↦ ?_⟩
    have hblock : block = region.toBlock := List.mem_singleton.mp hblock
    rw [hblock]
    refine ⟨le_rfl, Nat.lt_add_of_pos_right hsizePos, le_rfl, ?_⟩
    rw [Nat.sub_self]
    exact dvd_zero 8
  · rw [hstart]
    exact oneChunk_freeList (by omega) (by omega)

theorem mmapLow_mapping : Mapping mmapLow := by
  constructor <;> intro size base hmap <;> unfold mmapLow at hmap <;> split at hmap
  next hsize =>
    rw [hsize]
    decide
  next => cases hmap
  next hsize =>
    cases hmap
    rw [hsize]
    decide
  next => cases hmap

/-- The third of four blocks and then the first are released, and a request uses up the chunk of the
third, which is the second of the list. -/
def reuse : List Call := [.alloc 8, .alloc 8, .alloc 2040, .alloc 8, .free 0x10040, .free 0x10010,
  .alloc 2040]

end OS537.Mem
