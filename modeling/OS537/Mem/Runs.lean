import OS537.Base.Run
import OS537.Mem.Free

/-!
# Runs of the allocator

A program calls `Mem_Alloc` and `Mem_Free` after `Mem_Init`, and writes to the blocks it was given.
`chunkNode` writes the header of what is left of a chunk even if nothing is left, so the header of
the next block may be lost. In runs where a header has room there, the blocks of the program and
the chunks of the free list never meet.
-/

namespace OS537.Mem

open Blocks Bytes Chain Code Run

/-- The heap, and the blocks that were returned and not yet freed, with the size that was stored
in their headers. -/
structure Session where
  heap : Heap
  live : List Block

/-- The pointer that the program has to a block. -/
def payload (block : Block) : Ptr := ptr (block.addr + nodeSize)

inductive Call where
  | alloc (size : Word)
  | free (node : Ptr)
  | write (addr : ℕ) (value : Byte)

def Session.step (limit fuel : ℕ) (session : Session) : Call → Option Session
  | .alloc size => (memAlloc limit fuel size session.heap).map fun (result, heap) ↦
      if result = 0 then ⟨heap, session.live⟩
      else ⟨heap, ⟨result.toNat - nodeSize, (blockSize size).toNat⟩ :: session.live⟩
  | .free node => (memFree fuel node session.heap).map fun (_, heap) ↦
      ⟨heap, session.live.eraseP fun block ↦ payload block = node⟩
  | .write addr value =>
      some { session with heap.mem := Function.update session.heap.mem addr value }

/-- The chunks that a walk of at most `fuel` rounds finds from `node` on. -/
def chunksFrom (heap : Heap) : ℕ → Ptr → List Block
  | 0, _ => []
  | fuel + 1, node =>
      if node = 0 then []
      else ⟨node.toNat, sizeAt heap node.toNat⟩ ::
        chunksFrom heap fuel (ptr (nextAt heap node.toNat))

/-- What a program may do: requests are not negative and find a free list, only blocks in use are
freed, and writes stay behind the header of a block in use. -/
def Permitted (session : Session) : Call → Prop
  | .alloc size => 0 ≤ size.toInt ∧ session.heap.headFree ≠ 0
  | .free node => ∃ block ∈ session.live, payload block = node
  | .write addr _ => ∃ block ∈ session.live, block.addr + nodeSize ≤ addr ∧ addr < block.limit

instance (session : Session) (call : Call) : Decidable (Permitted session call) :=
  match call with
  | .alloc size => inferInstanceAs (Decidable (0 ≤ size.toInt ∧ session.heap.headFree ≠ 0))
  | .free node => inferInstanceAs (Decidable (∃ block ∈ session.live, payload block = node))
  | .write addr _ => inferInstanceAs (Decidable (∃ block ∈ session.live,
      block.addr + nodeSize ≤ addr ∧ addr < block.limit))

/-- If the largest chunk is enough for the request, what is left of it has room for a header. -/
def LeavesNode (fuel : ℕ) (session : Session) : Call → Prop
  | .alloc size =>
      let free := chunksFrom session.heap fuel session.heap.headFree
      ∀ block ∈ free, (∀ other ∈ free, other.size ≤ block.size) →
        size.toNat + nodeSize ≤ block.size → (blockSize size).toNat + nodeSize ≤ block.size
  | .free _ => True
  | .write _ _ => True

instance (fuel : ℕ) (session : Session) (call : Call) :
    Decidable (LeavesNode fuel session call) :=
  match call with
  | .alloc size => inferInstanceAs (Decidable
      (∀ block ∈ chunksFrom session.heap fuel session.heap.headFree,
        (∀ other ∈ chunksFrom session.heap fuel session.heap.headFree, other.size ≤ block.size) →
          size.toNat + nodeSize ≤ block.size → (blockSize size).toNat + nodeSize ≤ block.size))
  | .free _ => inferInstanceAs (Decidable True)
  | .write _ _ => inferInstanceAs (Decidable True)

/-- The blocks in use and the chunks of the free list do not meet and lie in the region, and the
headers of blocks in use are as they were written. -/
def HeapDisjoint (region : Block) (session : Session) : Prop :=
  ∃ free, FreeList session.heap free ∧ (session.live ++ free).Pairwise Block.Apart ∧
    (∀ block ∈ session.live ++ free, region.addr ≤ block.addr ∧ block.limit ≤ region.limit) ∧
    ∀ block ∈ session.live, sizeAt session.heap block.addr = block.size

/-! ## The free list as a walk reads it -/

section Walk

variable {region : Region} {heap : Heap} {free : List Block}

theorem chunksFrom_eq {fuel : ℕ} {node : Ptr} (hvalid : ∀ block ∈ free, Valid block.addr)
    (hpath : Path (nextAt heap) node.toNat (free.map Block.addr) 0)
    (hsize : ∀ block ∈ free, sizeAt heap block.addr = block.size) (hfuel : free.length < fuel) :
    chunksFrom heap fuel node = free := by
  induction free generalizing node fuel with
  | nil =>
    cases fuel with
    | zero => rfl
    | succ fuel =>
      have hzero : node = 0 := BitVec.eq_of_toNat_eq hpath
      rw [chunksFrom, if_pos hzero]
  | cons block rest ih =>
    cases fuel with
    | zero => exact absurd hfuel (Nat.not_lt_zero _)
    | succ fuel =>
      obtain ⟨hstart, hrest⟩ := hpath
      have hblock := hvalid block List.mem_cons_self
      have hnode : node ≠ 0 := by
        rw [← ptr_toNat node, hstart]
        exact hblock.ne_zero
      have hnext : (ptr (nextAt heap block.addr)).toNat = nextAt heap block.addr :=
        toNat_ptr (BitVec.isLt _)
      have htail : chunksFrom heap fuel (ptr (nextAt heap block.addr)) = rest := by
        apply ih (fun other hother ↦ hvalid other (List.mem_cons_of_mem _ hother))
        · rw [hnext]
          exact hrest
        · exact fun other hother ↦ hsize other (List.mem_cons_of_mem _ hother)
        · exact Nat.lt_of_succ_lt_succ hfuel
      rw [chunksFrom, if_neg hnode, hstart, hsize block List.mem_cons_self, htail]

theorem Sound.chunksFrom_eq {live : List Block} {fuel : ℕ} (h : Sound region heap live free)
    (hfuel : region.size < fuel) : chunksFrom heap fuel heap.headFree = free :=
  Mem.chunksFrom_eq (fun block hblock ↦ (h.linked.free_node block hblock).valid) h.list.path
    h.list.size (h.length_le.trans_lt hfuel)

end Walk

/-! ## One call -/

/-- The invariant of a run. -/
def Session.Sound (region : Region) (session : Session) : Prop :=
  ∃ free, Mem.Sound region session.heap session.live free

variable {region : Region} {heap : Heap} {session : Session} {fuel limit : ℕ}

/-- The session after an allocation that has returned a block. -/
theorem Session.step_alloc {size : Word} {addr : ℕ} {next : Heap} (hlt : addr + 16 < 2 ^ 64)
    (hrun : memAlloc limit fuel size session.heap = some (ptr (addr + 16), next)) :
    session.step limit fuel (.alloc size) =
      some ⟨next, ⟨addr, (blockSize size).toNat⟩ :: session.live⟩ := by
  have hresult : ptr (addr + 16) ≠ 0 := ptr_ne_zero (by omega) hlt
  rw [Session.step, hrun, Option.map_some]
  dsimp only
  rw [if_neg hresult, toNat_ptr hlt, Nat.add_sub_cancel]

/-- The session after an allocation that has failed. -/
theorem Session.step_alloc_null {size : Word} {next : Heap}
    (hrun : memAlloc limit fuel size session.heap = some (0, next)) :
    session.step limit fuel (.alloc size) = some ⟨next, session.live⟩ := by
  rw [Session.step, hrun, Option.map_some]
  rfl

theorem Session.Sound.alloc {size : Word} (h : session.Sound region)
    (hpermitted : Permitted session (.alloc size)) (hleaves : LeavesNode fuel session (.alloc size))
    (hfuel : region.size < fuel) (hlimit : region.toBlock.limit ≤ limit) :
    ∃ next, session.step limit fuel (.alloc size) = some next ∧ next.Sound region := by
  obtain ⟨free, hsound⟩ := h
  have hsize := toNat_lt_of_nonneg hpermitted.1
  have hblockSize := toNat_blockSize hpermitted.1
  have hne : free ≠ [] := by
    rintro rfl
    exact hpermitted.2 hsound.list.headFree_eq
  have hrest : ∀ block ∈ free, (∀ other ∈ free, other.size ≤ block.size) →
      size.toNat + 16 ≤ block.size → headedSize size.toNat + 16 ≤ block.size := by
    simp only [LeavesNode, hsound.chunksFrom_eq hfuel, hblockSize] at hleaves
    exact hleaves
  have hrun := memAlloc_run hsound hne hsize hfuel hlimit hrest
  rw [word_toNat] at hrun
  rcases hrun with ⟨next, hrun, hnext⟩ | ⟨next, addr, free', hrun, hnext⟩
  · exact ⟨_, Session.step_alloc_null hrun, free, hnext⟩
  · have hfits := hnext.arena.fits ⟨addr, headedSize size.toNat⟩ (by simp)
    have hlimit := region.limit_lt
    have hhigh : addr + headedSize size.toNat ≤ region.addr + region.size := hfits.high
    have hleast : 16 ≤ headedSize size.toNat := hfits.least_le
    have hstep := Session.step_alloc (by omega) hrun
    rw [hblockSize] at hstep
    exact ⟨_, hstep, free', hnext⟩

/-- The block that is released, and the session without it. -/
theorem Session.exists_released {node : Ptr} (hpermitted : Permitted session (.free node)) :
    ∃ found others, session.live.Perm (found :: others) ∧ ptr (found.addr + 16) = node ∧
      ∀ {next : Heap}, memFree fuel node session.heap = some (0, next) →
        session.step limit fuel (.free node) = some ⟨next, others⟩ := by
  obtain ⟨block, hblock, hpayload⟩ := hpermitted
  obtain ⟨found, before, after, -, hfound, hsplit, herase⟩ :=
    List.exists_of_eraseP (p := fun block ↦ payload block = node) hblock (decide_eq_true hpayload)
  refine ⟨found, before ++ after, ?_, of_decide_eq_true hfound, fun hrun ↦ ?_⟩
  · rw [hsplit]
    exact List.perm_middle
  · rw [Session.step, hrun, Option.map_some, herase]

theorem Session.Sound.free {node : Ptr} (h : session.Sound region)
    (hpermitted : Permitted session (.free node)) (hfuel : region.size < fuel) :
    ∃ next, session.step limit fuel (.free node) = some next ∧ next.Sound region := by
  obtain ⟨free, hsound⟩ := h
  obtain ⟨found, others, hperm, rfl, hstep⟩ := Session.exists_released hpermitted
  obtain ⟨next, free', hrun, hnext⟩ := memFree_run hsound hperm hfuel
  exact ⟨_, hstep hrun, free', hnext⟩

/-- A header that the write does not reach. -/
theorem sameHeader_write {addr other : ℕ} (value : Byte) (h : addr < other ∨ other + 16 ≤ addr) :
    SameHeader { heap with mem := Function.update heap.mem addr value } heap other := by
  have hagree : AgreeOn (Function.update heap.mem addr value) heap.mem other (other + 16) := by
    intro i hlow hhigh
    exact Function.update_of_ne (by omega) _ _
  constructor
  · unfold sizeAt
    rw [hagree.load32_eq le_rfl (by omega)]
  · unfold nextAt
    rw [hagree.load64_eq (by omega) (by omega)]

theorem Session.Sound.write {addr : ℕ} {value : Byte} (h : session.Sound region)
    (hpermitted : Permitted session (.write addr value)) :
    ∃ next, session.step limit fuel (.write addr value) = some next ∧ next.Sound region := by
  obtain ⟨free, hsound⟩ := h
  obtain ⟨block, hblock, hlow, hhigh⟩ := hpermitted
  have hsame (other : Block) (hother : other ∈ session.live ++ free) :
      SameHeader { session.heap with mem := Function.update session.heap.mem addr value }
        session.heap other.addr := by
    apply sameHeader_write
    by_cases heq : block = other
    · subst heq
      exact Or.inr hlow
    · have hleast := (hsound.arena.fits other hother).least_le
      have hapart := hsound.arena.apart_of_ne (List.mem_append_left _ hblock) hother heq
      simp only [Block.Apart, Block.limit] at hapart hhigh
      omega
  have hlinked := hsound.linked.congr hsame rfl
  exact ⟨_, rfl, free, hsound.arena, hlinked.list, hlinked.held_size⟩

/-- A permitted call that leaves room for a header keeps the heap sound. -/
theorem Session.Sound.step {call : Call} (h : session.Sound region)
    (hpermitted : Permitted session call) (hleaves : LeavesNode fuel session call)
    (hfuel : region.size < fuel) (hlimit : region.toBlock.limit ≤ limit) :
    ∃ next, session.step limit fuel call = some next ∧ next.Sound region := by
  cases call with
  | alloc size => exact h.alloc hpermitted hleaves hfuel hlimit
  | free node => exact h.free hpermitted hfuel
  | write addr value => exact h.write hpermitted

/-! ## Whole runs -/

/-- What the operating system guarantees: pages hold whole headers, and `mmap` returns a region
of the address space that does not start at `NULL`. -/
structure Platform (pageSize : Word) (mmap : Word → Option Ptr) : Prop where
  page_pos : 0 < pageSize.toInt
  page_dvd : 16 ∣ pageSize.toNat
  mapped : ∀ size base, mmap size = some base → base ≠ 0 ∧ base.toNat + size.toNat < 2 ^ 64

theorem dvd_of_srem {pageSize size : Word} (hpage : 0 < pageSize.toInt) (hsize : 0 ≤ size.toInt)
    (h : size.srem pageSize = 0) : pageSize.toNat ∣ size.toNat := by
  have hrem : size.toInt.tmod pageSize.toInt = 0 := by
    rw [← BitVec.toInt_srem, h]
    rfl
  have hdvd : pageSize.toInt ∣ size.toInt := Int.dvd_of_tmod_eq_zero hrem
  have hsizeLt := toNat_lt_of_nonneg hsize
  have hpageLt := toNat_lt_of_nonneg hpage.le
  rw [BitVec.toInt_eq_toNat_of_lt (by omega), BitVec.toInt_eq_toNat_of_lt (by omega)] at hdvd
  exact Int.natCast_dvd_natCast.mp hdvd

/-- The size of the region that `Mem_Init` maps and records. -/
def mappedSize (pageSize size : Word) : Word :=
  if size.srem pageSize ≠ 0 then size + (size - size.srem pageSize) else size

/-- The heap with one chunk, which is all of the region. -/
def Heap.oneChunk (heap : Heap) (region : Block) : Heap :=
  { ((heap.putSize region.addr region.size).putNext region.addr 0).putHead region.addr with
    init := 0 }

/-- What a successful `Mem_Init` has done. -/
theorem memInit_eq_some {pageSize size : Word} {mmap : Word → Option Ptr} {start : Heap}
    (hinit : memInit pageSize mmap size heap = some (0, start)) :
    0 < size.toInt ∧ ∃ base, mmap (mappedSize pageSize size) = some base ∧ base ≠ 0 ∧
      start = heap.oneChunk ⟨base.toNat, (mappedSize pageSize size).toNat⟩ := by
  have hargs : ¬ (size.toInt ≤ 0 ∨ heap.init = 0) := by
    intro hbad
    rw [memInit, bind_run get_run, if_pos hbad] at hinit
    cases hinit
  rw [memInit, bind_run get_run, if_neg hargs] at hinit
  obtain ⟨hsize, -⟩ := not_or.mp hargs
  refine ⟨not_le.mp hsize, ?_⟩
  cases hmap : mmap (mappedSize pageSize size) with
  | none =>
    rw [mappedSize] at hmap
    rw [hmap] at hinit
    cases hinit
  | some base =>
    rw [mappedSize] at hmap
    rw [hmap] at hinit
    dsimp only at hinit
    have hbase : base ≠ 0 := by
      intro hzero
      obtain ⟨_, _, hset, -⟩ := bind_eq_some hinit
      rw [setSize, if_pos hzero] at hset
      cases hset
    have hpos : 0 < base.toNat := Nat.pos_of_ne_zero fun hzero ↦
      hbase (BitVec.eq_of_toNat_eq hzero)
    have hvalid : Valid base.toNat := ⟨hpos, base.isLt⟩
    refine ⟨base, rfl, hbase, ?_⟩
    change (setSize base (mappedSize pageSize size) >>= _) heap = _ at hinit
    rw [← ptr_toNat base, ← word_toNat (mappedSize pageSize size),
      bind_run (setSize_run hvalid _), ← ptr_zero, bind_run (setNext_run hvalid 0),
      bind_run (setHeadFree_run _)] at hinit
    cases hinit
    rfl

/-- The region is the only chunk of the list. -/
theorem oneChunk_freeList {region : Block} (haddr : region.addr < 2 ^ 64)
    (hsize : region.size < 2 ^ 32) : FreeList (heap.oneChunk region) [region] := by
  constructor
  · refine ⟨toNat_ptr haddr, ?_⟩
    exact nextAt_putNext_same (Nat.two_pow_pos 64)
  · intro block hblock
    rw [List.mem_singleton.mp hblock]
    exact (sizeAt_putNext (Or.inl rfl) 0).trans (sizeAt_putSize_same hsize)

/-- A successful `Mem_Init` makes the region one free chunk. -/
theorem memInit_run {pageSize size : Word} {mmap : Word → Option Ptr} {start : Heap}
    (hplatform : Platform pageSize mmap) (hmultiple : size.srem pageSize = 0)
    (hinit : memInit pageSize mmap size heap = some (0, start)) :
    ∃ region : Region, region.toBlock = ⟨start.headFree.toNat, size.toNat⟩ ∧
      Sound region start [] [region.toBlock] := by
  obtain ⟨hpos, base, hmap, hbase, hstart⟩ := memInit_eq_some hinit
  have hmapped : mappedSize pageSize size = size := if_neg (not_not.mpr hmultiple)
  rw [hmapped] at hmap hstart
  have hlt := toNat_lt_of_nonneg hpos.le
  have hdvd : 16 ∣ size.toNat :=
    hplatform.page_dvd.trans (dvd_of_srem hplatform.page_pos hpos.le hmultiple)
  have hnonzero : size.toNat ≠ 0 := by
    intro hzero
    rw [BitVec.eq_of_toNat_eq (y := 0) hzero] at hpos
    exact lt_irrefl _ hpos
  obtain ⟨-, hlimit⟩ := hplatform.mapped size base hmap
  have hbasePos : 0 < base.toNat := Nat.pos_of_ne_zero fun hzero ↦
    hbase (BitVec.eq_of_toNat_eq hzero)
  have hhead : start.headFree.toNat = base.toNat := by
    rw [hstart]
    exact toNat_ptr base.isLt
  have hlist : FreeList start [⟨base.toNat, size.toNat⟩] := by
    rw [hstart]
    exact oneChunk_freeList base.isLt size.isLt
  refine ⟨⟨⟨base.toNat, size.toNat⟩, hbasePos, hlimit, hlt⟩, by rw [hhead], ?_, hlist,
    fun _ hblock ↦ absurd hblock List.not_mem_nil⟩
  refine ⟨List.pairwise_singleton _ _, fun block hblock ↦ ?_⟩
  rw [List.mem_singleton.mp hblock]
  exact ⟨le_rfl, le_rfl, Nat.le_of_dvd (Nat.pos_of_ne_zero hnonzero) hdvd,
    (by decide : 8 ∣ 16).trans hdvd⟩

theorem Session.Sound.heapDisjoint (h : session.Sound region) :
    HeapDisjoint region.toBlock session := by
  obtain ⟨free, hsound⟩ := h
  refine ⟨free, hsound.list, hsound.arena.apart, ?_, hsound.live_size⟩
  intro block hblock
  have hfits := hsound.arena.fits block hblock
  exact ⟨hfits.low, hfits.high⟩

/-- In every run whose allocations leave room for a header, the heap stays disjoint. -/
theorem heapDisjoint_of_run {pageSize size : Word} {mmap : Word → Option Ptr} {start : Heap}
    {calls : List Call} (hplatform : Platform pageSize mmap) (hmultiple : size.srem pageSize = 0)
    (hinit : memInit pageSize mmap size heap = some (0, start)) (hfuel : size.toNat < fuel)
    (hlimit : start.headFree.toNat + size.toNat ≤ limit)
    (hguarded : Guarded (Session.step limit fuel)
      (fun session call ↦ Permitted session call ∧ LeavesNode fuel session call)
      ⟨start, []⟩ calls) :
    ∃ final, run (Session.step limit fuel) ⟨start, []⟩ calls = some final ∧
      HeapDisjoint ⟨start.headFree.toNat, size.toNat⟩ final := by
  obtain ⟨region, hregion, hsound⟩ := memInit_run hplatform hmultiple hinit
  have hsize : region.size < fuel := by
    rw [hregion]
    exact hfuel
  have hend : region.toBlock.limit ≤ limit := by
    rw [hregion]
    exact hlimit
  have hstart : Session.Sound region ⟨start, []⟩ := ⟨[region.toBlock], hsound⟩
  obtain ⟨final, hrun, hfinal⟩ := hguarded.run_invariant
    (fun session call h hok ↦ h.step hok.1 hok.2 hsize hend) hstart
  rw [← hregion]
  exact ⟨final, hrun, hfinal.heapDisjoint⟩

/-! ## A page -/

/-- The globals of the file before `Mem_Init`, over memory that is zero. -/
def blankHeap : Heap := ⟨fun _ ↦ 0, 0, 0, 1, 0⟩

def mmapLow : Word → Option Ptr := fun size ↦ if size = 4096 then some 0x10000 else none

theorem mmapLow_platform : Platform 4096 mmapLow := by
  refine ⟨by decide, by decide, fun size base hmap ↦ ?_⟩
  unfold mmapLow at hmap
  split at hmap
  next hsize =>
    cases hmap
    rw [hsize]
    exact ⟨by decide, by decide⟩
  next => cases hmap

/-- The heap after `Mem_Init(4096)`. -/
def pageHeap : Heap :=
  { ((blankHeap.putSize 0x10000 4096).putNext 0x10000 0).putHead 0x10000 with init := 0 }

theorem pageHeap_eq : memInit 4096 mmapLow 4096 blankHeap = some (0, pageHeap) := rfl

/-- Two blocks, the first of them written to and freed, then a third one. -/
theorem page_heapDisjoint :
    ∃ final, run (Session.step 0x11000 5000) ⟨pageHeap, []⟩
        [.alloc 8, .alloc 2040, .write 0x10010 7, .free 0x10010, .alloc 100] = some final ∧
      HeapDisjoint ⟨0x10000, 4096⟩ final :=
  heapDisjoint_of_run mmapLow_platform (by decide) pageHeap_eq (by decide) (by decide)
    (by decide +kernel)

/-- The second of three blocks is freed and its chunk is used up by a request of the same size. -/
def refill : List Call := [.alloc 8, .alloc 2040, .alloc 8, .free 0x10028, .alloc 2040]

/-- The blocks in use at the end, each with the size that its header then has. -/
theorem refill_headers :
    (run (Session.step 0x11000 5000) ⟨pageHeap, []⟩ refill).map (fun final ↦
      final.live.map fun block ↦ (block, sizeAt final.heap block.addr)) =
    some [(⟨0x10018, 2056⟩, 2056), (⟨0x10820, 24⟩, 0), (⟨0x10000, 24⟩, 24)] := by
  decide +kernel

/-- The header of the third block is overwritten with the size of the empty remainder. -/
theorem refill_not_heapDisjoint :
    memInit 4096 mmapLow 4096 blankHeap = some (0, pageHeap) ∧
      Guarded (Session.step 0x11000 5000) Permitted ⟨pageHeap, []⟩ refill ∧
      ∃ final, run (Session.step 0x11000 5000) ⟨pageHeap, []⟩ refill = some final ∧
        ¬ HeapDisjoint ⟨0x10000, 4096⟩ final := by
  refine ⟨pageHeap_eq, by decide +kernel, ?_⟩
  obtain ⟨final, hrun, hheaders⟩ := Option.map_eq_some_iff.mp refill_headers
  refine ⟨final, hrun, ?_⟩
  rintro ⟨free, -, -, -, hheader⟩
  have hmem : ((⟨0x10820, 24⟩ : Block), 0) ∈
      final.live.map fun block ↦ (block, sizeAt final.heap block.addr) := by
    rw [hheaders]
    simp
  obtain ⟨block, hblock, hpair⟩ := List.mem_map.mp hmem
  obtain ⟨rfl, hzero⟩ := Prod.mk.inj hpair
  rw [hheader _ hblock] at hzero
  cases hzero

end OS537.Mem
