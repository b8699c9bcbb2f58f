import OS537.Base.Blocks
import OS537.Base.Chain
import OS537.Mem.Allocator

/-!
# The free list in memory

The headers of the heap as two functions of an address, how each assignment of the allocator changes
them, and the invariant that ties the list in memory to blocks that do not meet. A header is 16
bytes long, so the headers of two blocks that are apart do not overlap and an assignment to one
leaves the other alone.
-/

namespace OS537.Mem

open Bytes Blocks Chain

variable {heap : Heap} {addr other : ℕ}

/-! ## Pointers -/

def ptr (addr : ℕ) : Ptr := BitVec.ofNat 64 addr

theorem toNat_ptr (h : addr < 2 ^ 64) : (ptr addr).toNat = addr := by
  rw [ptr, BitVec.toNat_ofNat]
  exact Nat.mod_eq_of_lt h

theorem ptr_toNat (pointer : Ptr) : ptr pointer.toNat = pointer := by
  simp [ptr]

theorem ptr_zero : ptr 0 = 0 := rfl

theorem ptr_ne_zero (hpos : 0 < addr) (hlt : addr < 2 ^ 64) : ptr addr ≠ 0 := by
  intro hzero
  have htoNat := toNat_ptr hlt
  rw [hzero] at htoNat
  exact hpos.ne htoNat

theorem ptr_inj (haddr : addr < 2 ^ 64) (hother : other < 2 ^ 64) :
    ptr addr = ptr other ↔ addr = other := by
  constructor
  · intro h
    rw [← toNat_ptr haddr, h, toNat_ptr hother]
  · intro h
    rw [h]

/-! ## Sizes -/

/-- An `int` that holds a natural number. -/
def word (value : ℕ) : Word := BitVec.ofNat 32 value

theorem toNat_word {value : ℕ} (h : value < 2 ^ 32) : (word value).toNat = value := by
  rw [word, BitVec.toNat_ofNat]
  exact Nat.mod_eq_of_lt h

theorem word_toNat (size : Word) : word size.toNat = size := by
  simp [word]

theorem msb_word {value : ℕ} (h : value < 2 ^ 31) : (word value).msb = false := by
  rw [word, BitVec.msb_eq_false_iff_two_mul_lt, BitVec.toNat_ofNat]
  omega

theorem toInt_word {value : ℕ} (h : value < 2 ^ 31) : (word value).toInt = value := by
  rw [BitVec.toInt_eq_toNat_of_msb (msb_word h), toNat_word (by omega)]

theorem word_add (first second : ℕ) : word first + word second = word (first + second) := by
  apply BitVec.eq_of_toNat_eq
  simp [word]

theorem word_mul (first second : ℕ) : word first * word second = word (first * second) := by
  apply BitVec.eq_of_toNat_eq
  simp [word]

theorem word_sub {first second : ℕ} (hle : second ≤ first) (h : first < 2 ^ 32) :
    word first - word second = word (first - second) := by
  apply BitVec.eq_of_toNat_eq
  rw [BitVec.toNat_sub, toNat_word (by omega), toNat_word h, toNat_word (by omega)]
  omega

theorem signExtend_word {value : ℕ} (h : value < 2 ^ 31) :
    (word value).signExtend 64 = ptr value := by
  rw [BitVec.signExtend_eq_setWidth_of_msb_false (msb_word h)]
  apply BitVec.eq_of_toNat_eq
  rw [BitVec.toNat_setWidth, toNat_word (by omega), ptr, BitVec.toNat_ofNat]

theorem addSizeToNode_ptr {value : ℕ} (h : value < 2 ^ 31) :
    addSizeToNode (ptr addr) (word value) = ptr (addr + value) := by
  rw [addSizeToNode, signExtend_word h]
  apply BitVec.eq_of_toNat_eq
  simp [ptr]

theorem srem_word {value modulus : ℕ} (h : value < 2 ^ 31) (hmodulus : modulus < 2 ^ 31) :
    (word value).srem (word modulus) = word (value % modulus) := by
  have hle : value % modulus ≤ value := Nat.mod_le _ _
  rw [BitVec.srem_eq, msb_word h, msb_word hmodulus]
  change word value % word modulus = _
  apply BitVec.eq_of_toNat_eq
  rw [BitVec.toNat_umod, toNat_word (by omega), toNat_word (by omega), toNat_word (by omega)]

theorem sdiv_word {value : ℕ} (h : value < 2 ^ 31) : (word value).sdiv 8 = word (value / 8) := by
  rw [BitVec.sdiv_eq, msb_word h]
  change (word value).udiv 8 = _
  apply BitVec.eq_of_toNat_eq
  rw [BitVec.udiv_eq, BitVec.toNat_udiv, toNat_word (by omega), toNat_word (by omega)]
  rfl

/-- The payload rounded up to a multiple of 8, with the header. -/
def headedSize (size : ℕ) : ℕ := (size + 7) / 8 * 8 + 16

theorem blockSize_word {value : ℕ} (h : value < 2 ^ 31) :
    blockSize (word value) = word (headedSize value) := by
  have hzero : word (value % 8) = 0 ↔ value % 8 = 0 := by
    constructor
    · intro heq
      have htoNat := congrArg BitVec.toNat heq
      rwa [toNat_word (by omega)] at htoNat
    · intro heq
      rw [heq]
      rfl
  have hrem : (word value).srem 8 = word (value % 8) := srem_word h (by decide)
  unfold blockSize headedSize
  rw [hrem, sdiv_word h]
  split
  next heq =>
    rw [hzero] at heq
    change word value + word 16 = _
    rw [word_add]
    congr 1
    omega
  next hne =>
    rw [hzero] at hne
    change (word (value / 8) + word 1) * word 8 + word 16 = _
    rw [word_add, word_mul, word_add]
    congr 1
    omega

theorem toNat_lt_of_nonneg {size : Word} (h : 0 ≤ size.toInt) : size.toNat < 2 ^ 31 := by
  have hmsb : size.msb = false := by
    rw [BitVec.msb_eq_toInt]
    exact decide_eq_false (not_lt.mpr h)
  have htwice := BitVec.msb_eq_false_iff_two_mul_lt.mp hmsb
  omega

theorem toNat_blockSize {size : Word} (h : 0 ≤ size.toInt) :
    (blockSize size).toNat = headedSize size.toNat := by
  have hlt := toNat_lt_of_nonneg h
  have hheaded : headedSize size.toNat < 2 ^ 32 := by
    unfold headedSize
    omega
  calc
    (blockSize size).toNat = (blockSize (word size.toNat)).toNat := by rw [word_toNat]
    _ = headedSize size.toNat := by rw [blockSize_word hlt, toNat_word hheaded]

/-! ## Headers -/

def sizeAt (heap : Heap) (addr : ℕ) : ℕ := (load32 heap.mem addr).toNat

def nextAt (heap : Heap) (addr : ℕ) : ℕ := (load64 heap.mem (addr + 8)).toNat

def Heap.putSize (heap : Heap) (addr size : ℕ) : Heap :=
  { heap with mem := store32 heap.mem addr (word size) }

def Heap.putNext (heap : Heap) (addr next : ℕ) : Heap :=
  { heap with mem := store64 heap.mem (addr + 8) (ptr next) }

def Heap.putHead (heap : Heap) (addr : ℕ) : Heap :=
  { heap with headFree := ptr addr }

/-- The headers at the two addresses do not overlap. -/
def HeadersApart (addr other : ℕ) : Prop :=
  addr + 16 ≤ other ∨ other + 16 ≤ addr

instance (addr other : ℕ) : Decidable (HeadersApart addr other) :=
  inferInstanceAs (Decidable (_ ∨ _))

theorem sizeAt_putSize_same {size : ℕ} (h : size < 2 ^ 32) :
    sizeAt (heap.putSize addr size) addr = size := by
  rw [sizeAt, Heap.putSize, load32_store32_same, toNat_word h]

theorem sizeAt_putSize_other (h : HeadersApart addr other) (size : ℕ) :
    sizeAt (heap.putSize addr size) other = sizeAt heap other := by
  have hapart : other + 4 ≤ addr ∨ addr + 4 ≤ other := by
    unfold HeadersApart at h
    omega
  rw [sizeAt, Heap.putSize, load32_store32_other _ _ hapart, sizeAt]

theorem nextAt_putSize (h : addr = other ∨ HeadersApart addr other) (size : ℕ) :
    nextAt (heap.putSize addr size) other = nextAt heap other := by
  have hapart : other + 8 + 8 ≤ addr ∨ addr + 4 ≤ other + 8 := by
    unfold HeadersApart at h
    omega
  rw [nextAt, Heap.putSize, (agreeOn_store32 _ _ hapart).load64_eq le_rfl le_rfl, nextAt]

theorem nextAt_putNext_same {next : ℕ} (h : next < 2 ^ 64) :
    nextAt (heap.putNext addr next) addr = next := by
  rw [nextAt, Heap.putNext, load64_store64_same, toNat_ptr h]

theorem nextAt_putNext_other (h : HeadersApart addr other) (next : ℕ) :
    nextAt (heap.putNext addr next) other = nextAt heap other := by
  have hapart : other + 8 + 8 ≤ addr + 8 ∨ addr + 8 + 8 ≤ other + 8 := by
    unfold HeadersApart at h
    omega
  rw [nextAt, Heap.putNext, (agreeOn_store64 _ _ hapart).load64_eq le_rfl le_rfl, nextAt]

theorem sizeAt_putNext (h : addr = other ∨ HeadersApart addr other) (next : ℕ) :
    sizeAt (heap.putNext addr next) other = sizeAt heap other := by
  have hapart : other + 4 ≤ addr + 8 ∨ addr + 8 + 8 ≤ other := by
    unfold HeadersApart at h
    omega
  rw [sizeAt, Heap.putNext, (agreeOn_store64 _ _ hapart).load32_eq le_rfl le_rfl, sizeAt]

@[simp] theorem putSize_headFree (size : ℕ) :
    (heap.putSize addr size).headFree = heap.headFree := rfl
@[simp] theorem putNext_headFree (next : ℕ) :
    (heap.putNext addr next).headFree = heap.headFree := rfl

theorem putSize_putHead (head size : ℕ) :
    (heap.putHead head).putSize addr size = (heap.putSize addr size).putHead head := rfl
theorem putNext_putHead (head next : ℕ) :
    (heap.putHead head).putNext addr next = (heap.putNext addr next).putHead head := rfl
theorem putHead_putHead (head head' : ℕ) :
    (heap.putHead head).putHead head' = heap.putHead head' := rfl

/-- The header at the address is the same in both heaps. -/
structure SameHeader (next heap : Heap) (addr : ℕ) : Prop where
  size : sizeAt next addr = sizeAt heap addr
  next : nextAt next addr = nextAt heap addr

theorem sameHeader_putSize (h : HeadersApart addr other) (size : ℕ) :
    SameHeader (heap.putSize addr size) heap other :=
  ⟨sizeAt_putSize_other h size, nextAt_putSize (Or.inr h) size⟩

theorem sameHeader_putNext (h : HeadersApart addr other) (next : ℕ) :
    SameHeader (heap.putNext addr next) heap other :=
  ⟨sizeAt_putNext (Or.inr h) next, nextAt_putNext_other h next⟩

theorem SameHeader.trans {first second third : Heap} (h : SameHeader first second addr)
    (h' : SameHeader second third addr) : SameHeader first third addr :=
  ⟨h.size.trans h'.size, h.next.trans h'.next⟩

/-! ## Running the assignments -/

/-- An address that a pointer other than `NULL` can hold. -/
def Valid (addr : ℕ) : Prop :=
  0 < addr ∧ addr < 2 ^ 64

theorem Valid.ne_zero (h : Valid addr) : ptr addr ≠ 0 :=
  ptr_ne_zero h.1 h.2

theorem getSize_run (h : Valid addr) :
    getSize (ptr addr) heap = some (word (sizeAt heap addr), heap) := by
  rw [getSize, if_neg h.ne_zero, toNat_ptr h.2, sizeAt, word_toNat]

theorem getNext_run (h : Valid addr) :
    getNext (ptr addr) heap = some (ptr (nextAt heap addr), heap) := by
  rw [getNext, if_neg h.ne_zero, toNat_ptr h.2, nextAt, ptr_toNat]

theorem setSize_run (h : Valid addr) (size : ℕ) :
    setSize (ptr addr) (word size) heap = some ((), heap.putSize addr size) := by
  rw [setSize, if_neg h.ne_zero, toNat_ptr h.2]
  rfl

theorem setNext_run (h : Valid addr) (next : ℕ) :
    setNext (ptr addr) (ptr next) heap = some ((), heap.putNext addr next) := by
  rw [setNext, if_neg h.ne_zero, toNat_ptr h.2]
  rfl

theorem setHeadFree_run (next : ℕ) :
    setHeadFree (ptr next) heap = some ((), heap.putHead next) := rfl

/-! ## The heap invariant -/

/-- A region that `mmap` may return: not at `NULL`, and with an `int` for its size. -/
structure Region extends Block where
  addr_pos : 0 < addr
  limit_lt : addr + size < 2 ^ 64
  size_lt : size < 2 ^ 31

/-- The chunks on the free list, as the headers in memory say. -/
structure FreeList (heap : Heap) (free : List Block) : Prop where
  path : Path (nextAt heap) heap.headFree.toNat (free.map Block.addr) 0
  size : ∀ block ∈ free, sizeAt heap block.addr = block.size

instance (heap : Heap) (free : List Block) : Decidable (FreeList heap free) :=
  decidable_of_iff (Path (nextAt heap) heap.headFree.toNat (free.map Block.addr) 0 ∧
      ∀ block ∈ free, sizeAt heap block.addr = block.size)
    ⟨fun h ↦ ⟨h.1, h.2⟩, fun h ↦ ⟨h.path, h.size⟩⟩

/-- The list is in every heap with the same head and the same headers. -/
theorem FreeList.congr {next : Heap} {free : List Block} (h : FreeList heap free)
    (hsame : ∀ block ∈ free, SameHeader next heap block.addr)
    (hhead : next.headFree = heap.headFree) : FreeList next free where
  path := by
    rw [hhead]
    apply h.path.congr
    intro addr hmem
    obtain ⟨block, hblock, rfl⟩ := List.mem_map.mp hmem
    exact (hsame block hblock).next
  size block hblock := (hsame block hblock).size.trans (h.size block hblock)

/-- Live blocks and chunks of the free list make up an arena, and the headers of live blocks have
their sizes. -/
structure Sound (region : Region) (heap : Heap) (live free : List Block) : Prop where
  arena : Arena region.toBlock 16 8 (live ++ free)
  list : FreeList heap free
  live_size : ∀ block ∈ live, sizeAt heap block.addr = block.size

variable {region : Region} {block first second : Block}

theorem HeadersApart.symm (h : HeadersApart addr other) : HeadersApart other addr :=
  Or.symm h

theorem HeadersApart.ne (h : HeadersApart addr other) : addr ≠ other := by
  unfold HeadersApart at h
  omega

theorem headersApart_of_apart (h : first.Apart second) (hfirst : 16 ≤ first.size)
    (hsecond : 16 ≤ second.size) : HeadersApart first.addr second.addr := by
  simp only [Block.Apart, Block.limit] at h
  unfold HeadersApart
  omega

/-- A block that a header describes: not at `NULL`, inside the address space, and with an `int` for
its size. -/
structure IsNode (block : Block) : Prop where
  addr_pos : 0 < block.addr
  limit_lt : block.limit < 2 ^ 64
  size_lt : block.size < 2 ^ 31

instance (block : Block) : Decidable (IsNode block) :=
  decidable_of_iff (0 < block.addr ∧ block.limit < 2 ^ 64 ∧ block.size < 2 ^ 31)
    ⟨fun h ↦ ⟨h.1, h.2.1, h.2.2⟩, fun h ↦ ⟨h.addr_pos, h.limit_lt, h.size_lt⟩⟩

theorem IsNode.valid (h : IsNode block) : Valid block.addr :=
  ⟨h.addr_pos, (Nat.le_add_right _ _).trans_lt h.limit_lt⟩

/-- A block inside a region is one that a header can describe. -/
theorem Region.isNode (region : Region) (hlow : region.addr ≤ block.addr)
    (hhigh : block.limit ≤ region.toBlock.limit) : IsNode block := by
  have hpos := region.addr_pos
  have hlimit := region.limit_lt
  have hsize := region.size_lt
  simp only [Block.limit] at hhigh
  refine ⟨by omega, ?_, by omega⟩
  simp only [Block.limit]
  omega

instance : Std.Symm fun first second : Block ↦ HeadersApart first.addr second.addr :=
  ⟨fun _ _ hapart ↦ hapart.symm⟩

/-- Blocks whose headers do not overlap. -/
abbrev Nodes (blocks : List Block) : Prop :=
  Scattered (fun first second ↦ HeadersApart first.addr second.addr) IsNode blocks

variable {blocks others : List Block}

theorem nodes_middle : Nodes (blocks ++ block :: others) ↔ Nodes (block :: (blocks ++ others)) :=
  scattered_middle

/-- The header of the first of two neighbours describes both. -/
theorem nodes_join (h : Nodes (first :: second :: blocks)) (hnext : first.limit = second.addr)
    (hlt : first.size + second.size < 2 ^ 31) :
    Nodes (⟨first.addr, first.size + second.size⟩ :: blocks) := by
  have hfirst := h.each first List.mem_cons_self
  have hsecond := (h.each second (by simp)).limit_lt
  apply h.tail.tail.cons
  · refine ⟨hfirst.addr_pos, ?_, hlt⟩
    simp only [Block.limit] at hnext hsecond ⊢
    omega
  · exact fun other hother ↦ h.head_apart other (List.mem_cons_of_mem _ hother)

/-- A block cut in two, when the header of the rest overlaps no other. -/
theorem nodes_cut (h : Nodes (block :: blocks)) {size : ℕ} (hsize : 16 ≤ size)
    (hle : size ≤ block.size)
    (hapart : ∀ other ∈ blocks, HeadersApart (block.addr + size) other.addr) :
    Nodes (⟨block.addr, size⟩ :: ⟨block.addr + size, block.size - size⟩ :: blocks) := by
  have hblock := h.each block List.mem_cons_self
  have hpos := hblock.addr_pos
  have hlimit := hblock.limit_lt
  have hlt := hblock.size_lt
  simp only [Block.limit] at hlimit
  apply Scattered.cons
  · apply h.tail.cons
    · refine ⟨by change 0 < block.addr + size; omega, ?_, by change block.size - size < _; omega⟩
      simp only [Block.limit]
      omega
    · exact hapart
  · refine ⟨hpos, ?_, hle.trans_lt hlt⟩
    simp only [Block.limit]
    omega
  · intro other hother
    rcases List.mem_cons.mp hother with rfl | hmem
    · exact Or.inl (Nat.add_le_add_left hsize _)
    · exact h.head_apart other hmem

/-- The blocks of an arena have their headers in them. -/
theorem nodes_of_arena (h : Arena region.toBlock 16 8 blocks) : Nodes blocks where
  apart := h.apart.imp_of_mem fun hfirst hsecond hapart ↦
    headersApart_of_apart hapart (h.fits _ hfirst).least_le (h.fits _ hsecond).least_le
  each block hblock := region.isNode (h.fits block hblock).low (h.fits block hblock).high

/-- Blocks in hand and chunks of the free list, as their headers say. -/
structure Linked (heap : Heap) (held free : List Block) : Prop where
  nodes : Nodes (held ++ free)
  list : FreeList heap free
  held_size : ∀ block ∈ held, sizeAt heap block.addr = block.size

theorem Sound.linked {live free : List Block} (h : Sound region heap live free) :
    Linked heap live free :=
  ⟨nodes_of_arena h.arena, h.list, h.live_size⟩

/-- The same blocks in a heap with the same head and the same headers. -/
theorem Linked.congr {next : Heap} {held free : List Block} (h : Linked heap held free)
    (hsame : ∀ block ∈ held ++ free, SameHeader next heap block.addr)
    (hhead : next.headFree = heap.headFree) : Linked next held free where
  nodes := h.nodes
  list := h.list.congr (fun block hblock ↦ hsame block (List.mem_append_right _ hblock)) hhead
  held_size block hblock :=
    (hsame block (List.mem_append_left _ hblock)).size.trans (h.held_size block hblock)

theorem Linked.free_node {held free : List Block} (h : Linked heap held free) :
    ∀ block ∈ free, IsNode block :=
  fun block hblock ↦ h.nodes.each block (List.mem_append_right held hblock)

end OS537.Mem
