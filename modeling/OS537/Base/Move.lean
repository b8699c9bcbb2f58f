import OS537.Base.Bytes

/-!
# Moves in a 32-bit memory

`memmove` as a loop over single bytes, in a memory whose addresses wrap around. The memory is kept
with the moves made so far, so that statements about the addresses of a copy and statements about
its effect are about one run of one loop.
-/

namespace OS537.Move

open Bytes

abbrev Memory := Word → Byte

/-- A memory and the bytes moved in it, as pairs of the address read and the address written. -/
structure Traced where
  memory : Memory
  moves : List (Word × Word)

/-- `*d = *s` -/
def Traced.copy (traced : Traced) (d s : Word) : Traced where
  memory := Function.update traced.memory d (traced.memory s)
  moves := traced.moves ++ [(s, d)]

/-- `while(n-- > 0) *d++ = *s++` -/
def forward : (n : ℕ) → (d s : Word) → Traced → Traced
  | 0, _, _, traced => traced
  | n + 1, d, s, traced => forward n (d + 1) (s + 1) (traced.copy d s)

/-- `while(n-- > 0) *--d = *--s` -/
def backward : (n : ℕ) → (d s : Word) → Traced → Traced
  | 0, _, _, traced => traced
  | n + 1, d, s, traced => backward n (d - 1) (s - 1) (traced.copy (d - 1) (s - 1))

def memmove (dst src n : Word) (traced : Traced) : Traced :=
  if src.toNat < dst.toNat ∧ (src + n).toNat > dst.toNat then
    backward n.toNat (dst + n) (src + n) traced
  else forward n.toNat dst src traced

/-! ## The loops as lists of moves -/

/-- The address of byte `index` of an array. -/
def byteAt (base : Word) (index : ℕ) : Word := base + BitVec.ofNat 32 index

theorem byteAt_zero (base : Word) : byteAt base 0 = base := BitVec.add_zero base

theorem byteAt_succ (base : Word) (index : ℕ) :
    byteAt base (index + 1) = byteAt base index + 1 := by
  unfold byteAt
  rw [BitVec.ofNat_add, ← BitVec.add_assoc]
  rfl

theorem byteAt_toNat_offset (base offset : Word) : byteAt base offset.toNat = base + offset := by
  unfold byteAt
  rw [BitVec.ofNat_toNat, BitVec.setWidth_eq]

theorem byteAt_toNat (base : Word) {index : ℕ} (h : base.toNat + index < 2 ^ 32) :
    (byteAt base index).toNat = base.toNat + index := by
  unfold byteAt
  rw [BitVec.toNat_add, BitVec.toNat_ofNat]
  omega

theorem byteAt_injective (base : Word) {i j : ℕ} (hi : i < 2 ^ 32) (hj : j < 2 ^ 32)
    (h : byteAt base i = byteAt base j) : i = j := by
  have hnat := congrArg BitVec.toNat h
  unfold byteAt at hnat
  rw [BitVec.toNat_add, BitVec.toNat_add, BitVec.toNat_ofNat, BitVec.toNat_ofNat] at hnat
  omega

/-- The bytes of the given indices, copied one after another. -/
def copyAll (dst src : Word) (indices : List ℕ) (traced : Traced) : Traced :=
  indices.foldl (fun traced index ↦ traced.copy (byteAt dst index) (byteAt src index)) traced

theorem forward_eq_copyAll (dst src : Word) (n start : ℕ) (traced : Traced) :
    forward n (byteAt dst start) (byteAt src start) traced =
      copyAll dst src (List.range' start n) traced := by
  induction n generalizing start traced with
  | zero => rfl
  | succ n ih =>
    rw [forward, ← byteAt_succ, ← byteAt_succ, ih]
    rfl

theorem backward_eq_copyAll (dst src : Word) (n : ℕ) (traced : Traced) :
    backward n (byteAt dst n) (byteAt src n) traced =
      copyAll dst src (List.range n).reverse traced := by
  induction n generalizing traced with
  | zero => rfl
  | succ n ih =>
    rw [backward, byteAt_succ, byteAt_succ, BitVec.add_sub_cancel, BitVec.add_sub_cancel, ih,
      List.range_succ, List.reverse_append]
    rfl

theorem copyAll_moves (dst src : Word) (indices : List ℕ) (traced : Traced) :
    (copyAll dst src indices traced).moves =
      traced.moves ++ indices.map fun i ↦ (byteAt src i, byteAt dst i) := by
  induction indices generalizing traced with
  | nil => exact (List.append_nil _).symm
  | cons index rest ih =>
    have hrest := ih (traced.copy (byteAt dst index) (byteAt src index))
    calc (copyAll dst src (index :: rest) traced).moves
        = (traced.moves ++ [(byteAt src index, byteAt dst index)]) ++
            rest.map fun i ↦ (byteAt src i, byteAt dst i) := hrest
      _ = _ := by rw [List.append_assoc, List.map_cons, List.singleton_append]

theorem copyAll_memory_outside (dst src : Word) (indices : List ℕ) (traced : Traced) (addr : Word)
    (hout : ∀ i ∈ indices, addr ≠ byteAt dst i) :
    (copyAll dst src indices traced).memory addr = traced.memory addr := by
  induction indices generalizing traced with
  | nil => rfl
  | cons index rest ih =>
    have hrest := ih (traced.copy (byteAt dst index) (byteAt src index))
      fun i hi ↦ hout i (List.mem_cons_of_mem index hi)
    exact hrest.trans (Function.update_of_ne (hout index List.mem_cons_self) _ _)

theorem copyAll_memory_inside (dst src : Word) (indices : List ℕ) (traced : Traced)
    (hapart : ∀ i ∈ indices, ∀ j ∈ indices, byteAt src i ≠ byteAt dst j)
    (hdistinct : indices.Pairwise fun i j ↦ byteAt dst i ≠ byteAt dst j) (index : ℕ)
    (hmem : index ∈ indices) :
    (copyAll dst src indices traced).memory (byteAt dst index) =
      traced.memory (byteAt src index) := by
  induction indices generalizing traced with
  | nil => cases hmem
  | cons head rest ih =>
    have hnext := List.pairwise_cons.mp hdistinct
    rcases List.mem_cons.mp hmem with hhead | hrest
    · -- a byte that is copied stays as it is in the rest of the loop
      subst hhead
      have hkept := copyAll_memory_outside dst src rest
        (traced.copy (byteAt dst index) (byteAt src index)) (byteAt dst index) hnext.1
      exact hkept.trans (Function.update_self _ _ _)
    · have hcopied := ih (traced.copy (byteAt dst head) (byteAt src head))
        (fun i hi j hj ↦ hapart i (List.mem_cons_of_mem head hi) j (List.mem_cons_of_mem head hj))
        hnext.2 hrest
      have hsource := hapart index hmem head List.mem_cons_self
      exact hcopied.trans (Function.update_of_ne hsource _ _)

/-! ## What a move leaves -/

/-- Both directions of the loop go over the same bytes. -/
theorem memmove_eq_copyAll (dst src n : Word) (traced : Traced) :
    ∃ indices, indices.Perm (List.range n.toNat) ∧
      memmove dst src n traced = copyAll dst src indices traced := by
  unfold memmove
  split
  · refine ⟨(List.range n.toNat).reverse, List.reverse_perm _, ?_⟩
    rw [← backward_eq_copyAll, byteAt_toNat_offset, byteAt_toNat_offset]
  · refine ⟨List.range n.toNat, List.Perm.refl _, ?_⟩
    have hloop := forward_eq_copyAll dst src n.toNat 0 traced
    rwa [byteAt_zero, byteAt_zero, ← List.range_eq_range'] at hloop

theorem mem_memmove_moves (dst src n : Word) (traced : Traced) (move : Word × Word) :
    move ∈ (memmove dst src n traced).moves ↔
      move ∈ traced.moves ∨ ∃ i < n.toNat, move = (byteAt src i, byteAt dst i) := by
  obtain ⟨indices, hperm, hcopy⟩ := memmove_eq_copyAll dst src n traced
  rw [hcopy, copyAll_moves, List.mem_append, List.mem_map]
  simp only [hperm.mem_iff, List.mem_range, eq_comm]

theorem memmove_memory_outside (dst src n : Word) (traced : Traced) (addr : Word)
    (hout : ∀ i < n.toNat, addr ≠ byteAt dst i) :
    (memmove dst src n traced).memory addr = traced.memory addr := by
  obtain ⟨indices, hperm, hcopy⟩ := memmove_eq_copyAll dst src n traced
  rw [hcopy]
  apply copyAll_memory_outside
  intro i hi
  exact hout i (List.mem_range.mp (hperm.mem_iff.mp hi))

/-- The source and the destination do not meet. -/
theorem memmove_memory_inside (dst src n : Word) (traced : Traced)
    (hapart : ∀ i < n.toNat, ∀ j < n.toNat, byteAt src i ≠ byteAt dst j) (index : ℕ)
    (hindex : index < n.toNat) :
    (memmove dst src n traced).memory (byteAt dst index) = traced.memory (byteAt src index) := by
  obtain ⟨indices, hperm, hcopy⟩ := memmove_eq_copyAll dst src n traced
  have hbound (i : ℕ) (hi : i ∈ indices) : i < n.toNat :=
    List.mem_range.mp (hperm.mem_iff.mp hi)
  have hnodup : indices.Nodup := hperm.nodup_iff.mpr List.nodup_range
  rw [hcopy]
  apply copyAll_memory_inside
  · intro i hi j hj
    exact hapart i (hbound i hi) j (hbound j hj)
  · apply hnodup.imp_of_mem
    intro i j hi hj hne hsame
    have hword := n.isLt
    exact hne (byteAt_injective dst ((hbound i hi).trans hword) ((hbound j hj).trans hword) hsame)
  · exact hperm.mem_iff.mpr (List.mem_range.mpr hindex)

end OS537.Move
