import Mathlib.Tactic.IntervalCases
import OS537.Mem.Exhaustion

/-!
# Requests of any size

A region as `Mem_Init` records it, and allocations from it with any `int`. The test in
`getWorstFit` is made on the request before it is rounded, so it lets small negative requests pass,
and for some of these the rounded size is larger than the chunk. As long as nothing is released the
list has at most one chunk, so each call can be followed exactly.
-/

namespace OS537.Mem

open Blocks Bytes Chain Code Run

variable {heap : Heap} {size : Word} {fuel limit : ℕ}

/-! ## Sizes -/

/-- `worst->size >= size + sizeof(struct Node)`, for a request of any sign. -/
theorem request_fits_iff {limit : ℕ} (hlimit : limit < 2 ^ 31) :
    (word limit).signExtend 64 ≥ size.signExtend 64 + 16 ↔
      -16 ≤ size.toInt ∧ size.toInt + 16 ≤ limit := by
  rcases le_or_gt 0 size.toInt with hpos | hneg
  · have hlt := toNat_lt_of_nonneg hpos
    have hint : size.toInt = size.toNat := BitVec.toInt_eq_toNat_of_lt (by omega)
    have hfits := fits_iff hlt hlimit
    rw [word_toNat] at hfits
    rw [hfits, hint]
    omega
  · have hextend : (size.signExtend 64).toInt = size.toInt :=
      BitVec.toInt_signExtend_of_le (by decide)
    have hlow : -2 ^ 31 ≤ size.toInt := BitVec.le_toInt size
    have hnat : ((size.signExtend 64).toNat : ℤ) = 2 ^ 64 + size.toInt := by
      have hcond := BitVec.toInt_eq_toNat_cond (size.signExtend 64)
      rw [hextend] at hcond
      split at hcond <;> omega
    have hsum : (size.signExtend 64 + 16).toNat = ((size.signExtend 64).toNat + 16) % 2 ^ 64 := by
      rw [BitVec.toNat_add]
      rfl
    rw [signExtend_word hlimit, ge_iff_le, BitVec.le_def, hsum, toNat_ptr (by omega)]
    omega

/-- The rounded size of a small negative request. -/
theorem blockSize_negative (hlow : -16 ≤ size.toInt) (hneg : size.toInt < 0) :
    blockSize size = word (if size.toInt = -16 then 0 else if size.toInt < -8 then 16
      else if size.toInt = -8 then 8 else 24) := by
  have hword : size = BitVec.ofInt 32 size.toInt := (BitVec.ofInt_toInt).symm
  rw [hword]
  generalize size.toInt = value at hlow hneg
  have hvalue : (BitVec.ofInt 32 value).toInt = value := by
    interval_cases value <;> rfl
  rw [hvalue]
  interval_cases value <;> rfl

/-- The request rounds to more than a chunk that it seems to fit in. -/
def Exceeds (chunk : ℕ) (size : Word) : Prop :=
  (-8 < size.toInt ∧ size.toInt < 0 ∧ chunk = 16) ∨
    (-16 < size.toInt ∧ size.toInt < -8 ∧ chunk = 8)

instance (chunk : ℕ) (size : Word) : Decidable (Exceeds chunk size) :=
  inferInstanceAs (Decidable (_ ∨ _))

/-- A request that passes the test for a chunk, and what it is rounded to. -/
structure Rounds (size : Word) (chunk headed : ℕ) : Prop where
  eq : blockSize size = word headed
  lt : headed < 2 ^ 31
  dvd : 8 ∣ headed
  usable : size.toInt + 16 ≤ headed
  le_iff : headed ≤ chunk ↔ ¬ Exceeds chunk size

theorem exists_rounds {chunk : ℕ} (hdvd : 8 ∣ chunk) (hlt : chunk < 2 ^ 31)
    (hlow : -16 ≤ size.toInt) (hfits : size.toInt + 16 ≤ chunk) :
    ∃ headed, Rounds size chunk headed := by
  rcases le_or_gt 0 size.toInt with hpos | hneg
  · have hsize := toNat_lt_of_nonneg hpos
    have hint : size.toInt = size.toNat := BitVec.toInt_eq_toNat_of_lt (by omega)
    have hblock := blockSize_word hsize
    rw [word_toNat] at hblock
    have hle : headedSize size.toNat ≤ chunk := headedSize_le (by omega) hdvd
    refine ⟨headedSize size.toNat, hblock, by omega, eight_dvd_headedSize _, ?_, ?_⟩
    · unfold headedSize
      omega
    · unfold Exceeds
      omega
  · refine ⟨_, blockSize_negative hlow hneg, ?_, ?_, ?_, ?_⟩
    · split_ifs <;> decide
    · split_ifs <;> decide
    · split_ifs <;> omega
    · unfold Exceeds
      split_ifs <;> omega

/-! ## The only chunk -/

/-- The list is empty or has one chunk, in the region and of a size that is a multiple of 8. -/
def AtMostOneChunk (region : Region) (heap : Heap) : Prop :=
  heap.headFree = 0 ∨ ∃ chunk, FreeList heap [chunk] ∧ chunk.Fits region.toBlock 0 8

section Chunk

variable {region : Region} {chunk : Block}

theorem linked_single (hlist : FreeList heap [chunk]) (hnode : IsNode chunk) :
    Linked heap [] [chunk] := by
  refine ⟨⟨List.pairwise_singleton _ _, fun block hblock ↦ ?_⟩, hlist,
    fun _ hblock ↦ absurd hblock List.not_mem_nil⟩
  rw [List.mem_singleton.mp hblock]
  exact hnode

theorem getWorstFit_single (hlist : FreeList heap [chunk]) (hnode : IsNode chunk)
    (hfuel : 1 < fuel) (size : Word) :
    getWorstFit fuel size heap =
      some (if -16 ≤ size.toInt ∧ size.toInt + 16 ≤ chunk.size then ptr chunk.addr else 0,
        heap.putListPrev 0) := by
  obtain ⟨before, after, block, hsplit, -, -, hrun⟩ :=
    getWorstFit_run (linked_single hlist hnode) (List.cons_ne_nil _ _) size hfuel
  obtain ⟨rfl, rfl, rfl⟩ : before = [] ∧ block = chunk ∧ after = [] := by
    rcases before with _ | ⟨first, rest⟩
    · obtain ⟨hblock, hafter⟩ := List.cons.inj hsplit
      exact ⟨rfl, hblock.symm, hafter.symm⟩
    · have hlength := congrArg List.length hsplit
      simp at hlength
  simp only [request_fits_iff hnode.size_lt] at hrun
  exact hrun

/-- `sizeOfRegion - size` in `chunkNode`, for the chunk that `getWorstFit` has found. -/
def chunkRemainder (fuel : ℕ) (size : Word) : HeapM (Option Word) := do
  let worstFit ← getWorstFit fuel size
  if worstFit = 0 then return none
  return some ((← getSize worstFit) - blockSize size)

theorem chunkRemainder_single (hlist : FreeList heap [chunk]) (hnode : IsNode chunk)
    (hfuel : 1 < fuel) (size : Word) :
    chunkRemainder fuel size heap =
      some (if -16 ≤ size.toInt ∧ size.toInt + 16 ≤ chunk.size then
        some (word chunk.size - blockSize size) else none, heap.putListPrev 0) := by
  unfold chunkRemainder
  rw [bind_run (getWorstFit_single hlist hnode hfuel size)]
  by_cases hfits : -16 ≤ size.toInt ∧ size.toInt + 16 ≤ chunk.size
  · have hread : getSize (ptr chunk.addr) (heap.putListPrev 0) =
        some (word chunk.size, heap.putListPrev 0) := by
      rw [getSize_run hnode.valid, ← hlist.size chunk List.mem_cons_self]
      rfl
    rw [if_pos hfits, if_pos hfits, if_neg hnode.valid.ne_zero, bind_run hread]
    rfl
  · rw [if_neg hfits, if_neg hfits, if_pos rfl]
    rfl

/-- The `next` of a header at the start of the chunk or at least 8 bytes behind it. -/
theorem nextAt_rewritten {addr other value : ℕ} (hother : other = addr ∨ addr + 8 ≤ other)
    (hnext : nextAt heap other = 0) :
    nextAt ((heap.putSize addr value).putNext addr 0) other = 0 := by
  rcases hother with rfl | hother
  · exact nextAt_putNext_same (Nat.two_pow_pos 64)
  · have hapart : other + 8 + 8 ≤ addr + 8 ∨ addr + 8 + 8 ≤ other + 8 := by omega
    have hapart' : other + 8 + 8 ≤ addr ∨ addr + 4 ≤ other + 8 := by omega
    rw [nextAt, Heap.putNext, (agreeOn_store64 _ _ hapart).load64_eq le_rfl le_rfl, Heap.putSize,
      (agreeOn_store32 _ _ hapart').load64_eq le_rfl le_rfl, ← nextAt, hnext]

/-- The size of such a header: it is lost if the rest begins in the header of the block. -/
theorem sizeAt_rewritten {addr headed : ℕ} (hdvd : 8 ∣ headed) :
    sizeAt ((heap.putSize addr headed).putNext addr 0) (addr + headed) =
      if headed < 16 then 0 else sizeAt heap (addr + headed) := by
  by_cases hsmall : headed < 16
  · rw [if_pos hsmall]
    obtain rfl | rfl : headed = 0 ∨ headed = 8 := by omega
    · exact (sizeAt_putNext (Or.inl rfl) 0).trans (sizeAt_putSize_same (by decide))
    · have hload : load32 (store64 (heap.putSize addr 8).mem (addr + 8) 0) (addr + 8 + 0) =
          load32 (encodeLE 0) 0 := load32_splice_inside _ _ (by decide)
      have hzero : load32 (encodeLE 0) 0 = 0 := load32_encodeLE 0
      change (load32 (store64 (heap.putSize addr 8).mem (addr + 8) 0) (addr + 8 + 0)).toNat = 0
      rw [hload, hzero]
      rfl
  · have hapart : HeadersApart addr (addr + headed) := Or.inl (by omega)
    rw [if_neg hsmall, sizeAt_putNext (Or.inr hapart), sizeAt_putSize_other hapart]

/-- The chunk is cut or used up by a request that does not exceed it. -/
theorem chunkNode_single {headed : ℕ} (hlist : FreeList heap [chunk])
    (hfits : chunk.Fits region.toBlock 0 8) (hprev : heap.listPrev = 0)
    (hrounds : Rounds size chunk.size headed) (hle : headed ≤ chunk.size)
    (hroom : RestFits limit headed chunk) :
    ∃ next, chunkNode limit (ptr chunk.addr) size heap = some (ptr (chunk.addr + 16), next) ∧
      AtMostOneChunk region next := by
  have hnode := region.isNode hfits.low hfits.high
  have hsizeLt := hnode.size_lt
  have hpos := hnode.addr_pos
  have hlimit : chunk.addr + chunk.size < 2 ^ 64 := hnode.limit_lt
  have hrest : Valid (chunk.addr + headed) := ⟨by omega, by omega⟩
  have hnext : nextAt heap chunk.addr = 0 := hlist.path.2
  have hlinked : Linked heap [] ([] ++ [chunk]) := linked_single hlist hnode
  refine ⟨_, hlinked.chunkNode_eq hprev hrounds.eq hrounds.lt hrest hroom
    (word_sub hle (by omega)) (by omega), ?_⟩
  rw [hnext, Heap.linkRest]
  rcases hle.lt_or_eq with hlt | heq
  · rw [if_neg (by omega)]
    refine Or.inr ⟨⟨chunk.addr + headed, if headed < 16 then 0 else chunk.size - headed⟩,
      ⟨⟨?_, ?_⟩, ?_⟩, ?_⟩
    · exact toNat_ptr hrest.2
    · apply nextAt_rewritten
      · have hdvd := hrounds.dvd
        change chunk.addr + headed = chunk.addr ∨ chunk.addr + 8 ≤ chunk.addr + headed
        omega
      · exact nextAt_putNext_same (Nat.two_pow_pos 64)
    · intro block hblock
      rw [List.mem_singleton.mp hblock]
      refine (sizeAt_rewritten hrounds.dvd).trans ?_
      rw [sizeAt_putNext (Or.inl rfl), sizeAt_putLink (by simp), sizeAt_putSize_same (by omega)]
    · have hlow := hfits.low
      have hhigh := hfits.high
      have hdvd := hfits.grain_dvd
      have hheaded := hrounds.dvd
      simp only [Block.limit] at hhigh
      refine ⟨?_, ?_, Nat.zero_le _, ?_⟩
      · change region.addr ≤ chunk.addr + headed
        omega
      · simp only [Block.limit]
        split_ifs <;> omega
      · change 8 ∣ (if headed < 16 then 0 else chunk.size - headed)
        split_ifs
        · exact dvd_zero 8
        · omega
  · rw [heq, Nat.sub_self, if_pos rfl, if_pos rfl]
    exact Or.inl rfl

end Chunk

/-! ## One call -/

/-- A block that is returned lies in the region and has room for the request behind its header, and
what is left of the chunk is not negative. -/
def ProperCall (limit fuel : ℕ) (region : Block) (heap : Heap) (size : Word) : Prop :=
  (∀ result next, memAlloc limit fuel size heap = some (result, next) → result ≠ 0 →
    region.addr ≤ result.toNat - nodeSize ∧
      result.toNat - nodeSize + (blockSize size).toNat ≤ region.limit ∧
      size.toInt ≤ (blockSize size).toInt - nodeSize) ∧
  ∀ value next, chunkRemainder fuel size heap = some (some value, next) → 0 ≤ value.toInt

/-- The request rounds to more than the only chunk, which it seems to fit in. -/
def ExceedsChunk (heap : Heap) (size : Word) : Prop :=
  heap.headFree ≠ 0 ∧ Exceeds (sizeAt heap heap.headFree.toNat) size

instance (heap : Heap) (size : Word) : Decidable (ExceedsChunk heap size) :=
  inferInstanceAs (Decidable (_ ∧ _))

/-- The heap after an allocation. -/
def allocStep (limit fuel : ℕ) (heap : Heap) (size : Word) : Option Heap :=
  (memAlloc limit fuel size heap).map Prod.snd

section Call

variable {region : Region} {chunk : Block}

theorem memAlloc_single (limit : ℕ) (hlist : FreeList heap [chunk]) (hnode : IsNode chunk)
    (hfuel : 1 < fuel) (size : Word) :
    memAlloc limit fuel size heap =
      if -16 ≤ size.toInt ∧ size.toInt + 16 ≤ chunk.size then
        chunkNode limit (ptr chunk.addr) size (heap.putListPrev 0)
      else some (0, { heap.putListPrev 0 with mError := eNoSpace }) := by
  unfold memAlloc
  rw [bind_run (getWorstFit_single hlist hnode hfuel size)]
  by_cases hfits : -16 ≤ size.toInt ∧ size.toInt + 16 ≤ chunk.size
  · rw [if_pos hfits, if_pos hfits, if_neg hnode.valid.ne_zero]
  · rw [if_neg hfits, if_neg hfits, if_pos rfl]
    rfl

/-- A request that exceeds the chunk leaves -8 bytes of it. -/
theorem not_properCall (hlist : FreeList heap [chunk]) (hnode : IsNode chunk) (hfuel : 1 < fuel)
    (hexceeds : Exceeds chunk.size size) (block : Block) :
    ¬ ProperCall limit fuel block heap size := by
  intro hproper
  have hlow : -16 ≤ size.toInt ∧ size.toInt < 0 ∧ size.toInt + 16 ≤ chunk.size := by
    unfold Exceeds at hexceeds
    omega
  have hremainder := chunkRemainder_single hlist hnode hfuel size
  rw [if_pos ⟨hlow.1, hlow.2.2⟩, blockSize_negative hlow.1 hlow.2.1] at hremainder
  have hnonneg := hproper.2 _ _ hremainder
  have hnegative : (word chunk.size - word (if size.toInt = -16 then 0
      else if size.toInt < -8 then 16 else if size.toInt = -8 then 8 else 24)).toInt = -8 := by
    rcases hexceeds with ⟨hlow, hhigh, hchunk⟩ | ⟨hlow, hhigh, hchunk⟩
    · rw [if_neg (by omega), if_neg (by omega), if_neg (by omega), hchunk]
      rfl
    · rw [if_neg (by omega), if_pos (by omega), hchunk]
      rfl
  omega

/-- A request that does not exceed the chunk is proper and leaves at most one chunk. -/
theorem properCall_single (hlist : FreeList heap [chunk]) (hfits : chunk.Fits region.toBlock 0 8)
    (hspace : region.addr + region.size + 16 < 2 ^ 64) (hfuel : 1 < fuel)
    (hexceeds : ¬ Exceeds chunk.size size) :
    ProperCall limit fuel region.toBlock heap size ∧
      ∀ next, allocStep limit fuel heap size = some next → AtMostOneChunk region next := by
  have hnode := region.isNode hfits.low hfits.high
  have hrun := memAlloc_single limit hlist hnode hfuel size
  have hremainder := chunkRemainder_single hlist hnode hfuel size
  by_cases hlarge : -16 ≤ size.toInt ∧ size.toInt + 16 ≤ chunk.size
  · obtain ⟨headed, hrounds⟩ := exists_rounds hfits.grain_dvd hnode.size_lt hlarge.1 hlarge.2
    have hle := hrounds.le_iff.mpr hexceeds
    have hlist' : FreeList (heap.putListPrev 0) [chunk] := ⟨hlist.path, hlist.size⟩
    have hlow := hfits.low
    have hhigh := hfits.high
    have hlt := hrounds.lt
    have husable := hrounds.usable
    have hsizeLt := hnode.size_lt
    simp only [Block.limit] at hhigh
    rw [if_pos hlarge] at hrun
    rw [if_pos hlarge, hrounds.eq, word_sub hle (by omega)] at hremainder
    have hnonneg : ∀ value next, chunkRemainder fuel size heap = some (some value, next) →
        0 ≤ value.toInt := by
      intro value next hcall
      rw [hremainder] at hcall
      obtain ⟨hvalue, -⟩ := Prod.mk.inj (Option.some.inj hcall)
      rw [← Option.some.inj hvalue, toInt_word (by omega)]
      exact Int.natCast_nonneg _
    by_cases hroom : RestFits limit headed chunk
    · obtain ⟨final, hchunk, hfinal⟩ := chunkNode_single hlist' hfits rfl hrounds hle hroom
      rw [hchunk] at hrun
      refine ⟨⟨fun result next hcall _ ↦ ?_, hnonneg⟩, fun next hstep ↦ ?_⟩
      · rw [hrun] at hcall
        obtain ⟨rfl, -⟩ := Prod.mk.inj (Option.some.inj hcall)
        rw [hrounds.eq, toNat_ptr (by omega), toNat_word (by omega), toInt_word hlt]
        simp only [nodeSize, Block.limit]
        omega
      · rw [allocStep, hrun] at hstep
        cases hstep
        exact hfinal
    · -- The process dies at the store of the rest.
      have hpos := hnode.addr_pos
      have hlisted := hlist'.size chunk List.mem_cons_self
      rw [chunkNode_outside hnode.valid hrounds.eq hlt ⟨by omega, by omega⟩ (by omega)
        (by rwa [hlisted])] at hrun
      refine ⟨⟨fun result next hcall ↦ ?_, hnonneg⟩, fun next hstep ↦ ?_⟩
      · rw [hrun] at hcall
        cases hcall
      · rw [allocStep, hrun] at hstep
        cases hstep
  · rw [if_neg hlarge] at hrun hremainder
    refine ⟨⟨?_, ?_⟩, ?_⟩
    · intro result next hcall hresult
      rw [hrun] at hcall
      obtain ⟨rfl, -⟩ := Prod.mk.inj (Option.some.inj hcall)
      exact absurd rfl hresult
    · intro value next hcall
      rw [hremainder] at hcall
      cases hcall
    · intro next hstep
      rw [allocStep, hrun] at hstep
      cases hstep
      exact Or.inr ⟨chunk, ⟨hlist.path, hlist.size⟩, hfits⟩

/-- A call is proper just when its request does not exceed the chunk. -/
theorem AtMostOneChunk.properCall_iff (h : AtMostOneChunk region heap)
    (hspace : region.addr + region.size + 16 < 2 ^ 64) (hfuel : 1 < fuel) (limit : ℕ)
    (size : Word) :
    (ProperCall limit fuel region.toBlock heap size ↔ ¬ ExceedsChunk heap size) ∧
      (¬ ExceedsChunk heap size → ∀ next, allocStep limit fuel heap size = some next →
        AtMostOneChunk region next) := by
  rcases h with hempty | ⟨chunk, hlist, hfits⟩
  · -- Nothing is returned and no remainder computed.
    have hnone : memAlloc limit fuel size heap = none := memAlloc_empty hempty
    have hremainder : chunkRemainder fuel size heap = none :=
      bind_run_none (getWorstFit_empty hempty size)
    refine ⟨iff_of_true ⟨?_, ?_⟩ fun hexceeds ↦ hexceeds.1 hempty, fun _ next hstep ↦ ?_⟩
    · intro result next hcall
      rw [hnone] at hcall
      cases hcall
    · intro value next hcall
      rw [hremainder] at hcall
      cases hcall
    · rw [allocStep, hnone] at hstep
      cases hstep
  · have hnode := region.isNode hfits.low hfits.high
    have hhead : heap.headFree ≠ 0 := by
      rw [hlist.headFree_eq]
      exact hnode.valid.ne_zero
    have hsize : sizeAt heap heap.headFree.toNat = chunk.size := by
      have hstart : heap.headFree.toNat = chunk.addr := hlist.path.1
      rw [hstart]
      exact hlist.size chunk List.mem_cons_self
    have hiff : ExceedsChunk heap size ↔ Exceeds chunk.size size := by
      unfold ExceedsChunk
      rw [hsize]
      exact and_iff_right hhead
    rw [hiff]
    refine ⟨⟨fun hproper hexceeds ↦ ?_, fun hexceeds ↦ ?_⟩, fun hexceeds ↦ ?_⟩
    · exact not_properCall hlist hnode hfuel hexceeds _ hproper
    · exact (properCall_single hlist hfits hspace hfuel hexceeds).1
    · exact (properCall_single hlist hfits hspace hfuel hexceeds).2

end Call

/-! ## Whole runs -/

/-- The recorded size is the requested one rounded up to the page size. -/
def RecordsRounded (pageSize size : Word) (start : Heap) : Prop :=
  sizeAt start start.headFree.toNat =
    (size.toNat + pageSize.toNat - 1) / pageSize.toNat * pageSize.toNat

instance (pageSize size : Word) (start : Heap) : Decidable (RecordsRounded pageSize size start) :=
  inferInstanceAs (Decidable (_ = _))

/-- The size is rounded up only if there is nothing to round. -/
theorem mappedSize_eq_iff {pageSize : Word} (hpage : PowerOfTwo pageSize) (hsize : 0 < size.toInt) :
    (mappedSize pageSize size).toNat =
        (size.toNat + pageSize.toNat - 1) / pageSize.toNat * pageSize.toNat ↔
      pageSize.toNat ∣ size.toNat := by
  have hsixteen := hpage.sixteen_le
  have hpos : 0 < size.toNat := by
    apply Nat.pos_of_ne_zero
    intro hzero
    rw [BitVec.eq_of_toNat_eq (y := 0) hzero] at hsize
    exact lt_irrefl _ hsize
  have hdiv := Nat.div_add_mod size.toNat pageSize.toNat
  rw [toNat_mappedSize hpage hsize, Nat.dvd_iff_mod_eq_zero]
  generalize size.toNat / pageSize.toNat = quotient at hdiv
  by_cases hzero : size.toNat % pageSize.toNat = 0
  · rw [if_pos hzero]
    refine iff_of_true ?_ hzero
    have hround : (size.toNat + pageSize.toNat - 1) / pageSize.toNat = quotient := by
      apply Nat.div_eq_of_lt_le
      · rw [Nat.mul_comm]
        omega
      · rw [Nat.add_mul, Nat.one_mul, Nat.mul_comm]
        omega
    rw [hround, Nat.mul_comm]
    omega
  · rw [if_neg hzero]
    have hmod := Nat.mod_lt size.toNat (by omega : 0 < pageSize.toNat)
    refine iff_of_false ?_ hzero
    have hround : (size.toNat + pageSize.toNat - 1) / pageSize.toNat = quotient + 1 := by
      apply Nat.div_eq_of_lt_le
      · rw [Nat.add_mul, Nat.one_mul, Nat.mul_comm]
        omega
      · rw [Nat.add_mul, Nat.add_mul, Nat.one_mul, Nat.mul_comm quotient]
        omega
    rw [hround, Nat.add_mul, Nat.one_mul, Nat.mul_comm quotient]
    -- Equality would make the request one page.
    intro heq
    have hpage : size.toNat = pageSize.toNat := by omega
    rw [hpage, Nat.mod_self] at hzero
    exact hzero rfl

/-- The region is recorded as it should be, and every call of the run is proper, just when the size
of the region is a multiple of the page size and no request exceeds the chunk. -/
theorem requests_proper_iff {pageSize regionSize : Word} {mmap : Word → Option Ptr} {start : Heap}
    {sizes : List Word} (hpage : PowerOfTwo pageSize) (hmmap : Mapping mmap)
    (hinit : memInit pageSize mmap regionSize heap = some (0, start)) (hfuel : 1 < fuel) :
    (RecordsRounded pageSize regionSize start ∧
      Guarded (allocStep limit fuel)
        (ProperCall limit fuel ⟨start.headFree.toNat, sizeAt start start.headFree.toNat⟩)
        start sizes) ↔
    (pageSize.toNat ∣ regionSize.toNat ∧
      Guarded (allocStep limit fuel) (fun heap size ↦ ¬ ExceedsChunk heap size) start sizes) := by
  obtain ⟨region, hsize, hspace, -, husable⟩ := memInit_usable hpage hmmap hinit
  have hpos := (memInit_eq_some hinit).1
  have hhead : start.headFree.toNat = region.addr := husable.list.path.1
  have hrecorded : sizeAt start start.headFree.toNat = region.size := by
    rw [hhead]
    exact husable.list.size _ List.mem_cons_self
  have hrounded : RecordsRounded pageSize regionSize start ↔
      pageSize.toNat ∣ regionSize.toNat := by
    unfold RecordsRounded
    rw [hrecorded, hsize]
    exact mappedSize_eq_iff hpage hpos
  rw [hrounded]
  apply and_congr_right
  intro hdvd
  have hblock : (⟨start.headFree.toNat, sizeAt start start.headFree.toNat⟩ : Block) =
      region.toBlock := by
    rw [hrecorded, hhead]
  rw [hblock]
  have height : 8 ∣ pageSize.toNat := by
    obtain ⟨exponent, hexponent, -, heq⟩ := hpage
    rw [heq]
    exact (pow_dvd_pow 2 (by omega : 3 ≤ exponent))
  have hregionSize : region.size = regionSize.toNat := by
    rw [hsize, toNat_mappedSize hpage hpos, if_pos (Nat.mod_eq_zero_of_dvd hdvd)]
  have hstart : AtMostOneChunk region start := by
    refine Or.inr ⟨region.toBlock, husable.list, le_rfl, le_rfl, Nat.zero_le _, ?_⟩
    rw [hregionSize]
    exact height.trans hdvd
  have hcall (heap : Heap) (size : Word) (h : AtMostOneChunk region heap) :=
    h.properCall_iff (show region.addr + region.size + 16 < 2 ^ 64 by omega) hfuel limit size
  constructor
  · intro hproper
    exact hproper.mono_of_invariant
      (fun heap size next h hok hstep ↦
        (hcall heap size h).2 ((hcall heap size h).1.mp hok) next hstep)
      (fun heap size h hok ↦ (hcall heap size h).1.mp hok) hstart
  · intro hguarded
    exact hguarded.mono_of_invariant
      (fun heap size next h hok hstep ↦ (hcall heap size h).2 hok next hstep)
      (fun heap size h hok ↦ (hcall heap size h).1.mpr hok) hstart

/-- A page, and requests of both signs. -/
theorem page_requests_proper :
    RecordsRounded 4096 4096 pageHeap ∧
      Guarded (allocStep 0x11000 2) (ProperCall 0x11000 2 ⟨0x10000, 4096⟩) pageHeap
        [100, 3000, -3, -20, 0, 4096] :=
  (requests_proper_iff ⟨12, by decide, by decide, rfl⟩ mmapLow_mapping pageHeap_eq
    (by decide)).mpr ⟨by decide, by decide +kernel⟩

/-- What the second of two requests would leave of the chunk. -/
theorem page_remainder :
    ((allocStep 0x11000 2 pageHeap 4064).bind fun next ↦
      (chunkRemainder 2 (-1) next).map Prod.fst) = some (some (-8)) := by
  decide +kernel

/-- A region of 5000 bytes is recorded with 9096, and a request of -1 leaves -8 bytes of a chunk of
16. -/
theorem requests_not_proper :
    (memInit 4096 (fun _ ↦ some 0x10000) 5000 blankHeap =
        some (0, blankHeap.oneChunk ⟨0x10000, 9096⟩) ∧
      ¬ RecordsRounded 4096 5000 (blankHeap.oneChunk ⟨0x10000, 9096⟩)) ∧
    memInit 4096 mmapLow 4096 blankHeap = some (0, pageHeap) ∧
      ¬ Guarded (allocStep 0x11000 2) (ProperCall 0x11000 2 ⟨0x10000, 4096⟩) pageHeap
        [4064, -1] := by
  refine ⟨⟨rfl, by decide +kernel⟩, pageHeap_eq, fun hproper ↦ ?_⟩
  obtain ⟨next, hstep, hremainder⟩ := Option.bind_eq_some_iff.mp page_remainder
  obtain ⟨⟨value, held⟩, hpair, hvalue⟩ := Option.map_eq_some_iff.mp hremainder
  cases hvalue
  have hnonneg := (hproper.2 next hstep).1.2 (-8) held hpair
  exact absurd hnonneg (by decide)

end OS537.Mem
