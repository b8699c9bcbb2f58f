import Mathlib.Data.Finset.Card
import Mathlib.Data.List.Pairwise
import Mathlib.Order.Interval.Finset.Nat

/-!
# Blocks of an arena

Intervals of addresses that do not meet, inside one interval. Blocks have a least size, which is
positive, and a grain that all sizes are multiples of. A block may be cut in two and two neighbours
may be joined; the order in which the blocks are listed does not matter.
-/

namespace OS537.Blocks

/-- The addresses from `addr` on, `size` of them. -/
structure Block where
  addr : ℕ
  size : ℕ
deriving DecidableEq

/-- The first address after the block. -/
def Block.limit (block : Block) : ℕ := block.addr + block.size

/-- The blocks have no address in common. -/
def Block.Apart (first second : Block) : Prop :=
  first.limit ≤ second.addr ∨ second.limit ≤ first.addr

instance (first second : Block) : Decidable (first.Apart second) :=
  inferInstanceAs (Decidable (_ ∨ _))

theorem Block.Apart.symm {first second : Block} (h : first.Apart second) : second.Apart first :=
  Or.symm h

instance : Std.Symm Block.Apart :=
  ⟨fun _ _ hapart ↦ hapart.symm⟩

/-- The block lies in the region, is large enough and a multiple of the grain. -/
structure Block.Fits (block region : Block) (least grain : ℕ) : Prop where
  low : region.addr ≤ block.addr
  high : block.limit ≤ region.limit
  least_le : least ≤ block.size
  grain_dvd : grain ∣ block.size

/-- The blocks of the region, which do not meet. -/
structure Arena (region : Block) (least grain : ℕ) (blocks : List Block) : Prop where
  apart : blocks.Pairwise Block.Apart
  fits : ∀ block ∈ blocks, block.Fits region least grain

/-- Blocks of one kind that are related to each other, in whatever order they are listed. -/
structure Scattered (rel : Block → Block → Prop) (kind : Block → Prop) (blocks : List Block) :
    Prop where
  apart : blocks.Pairwise rel
  each : ∀ block ∈ blocks, kind block

section Scattered

variable {rel : Block → Block → Prop} {kind : Block → Prop} {block : Block}
  {blocks others : List Block}

theorem Scattered.perm [Std.Symm rel] (h : Scattered rel kind blocks)
    (hperm : blocks.Perm others) : Scattered rel kind others where
  apart := (hperm.pairwise_iff fun {_ _} hrel ↦ Std.Symm.symm _ _ hrel).mp h.apart
  each block hblock := h.each block (hperm.mem_iff.mpr hblock)

/-- The order in which one block is listed does not matter. -/
theorem scattered_middle [Std.Symm rel] : Scattered rel kind (blocks ++ block :: others) ↔
    Scattered rel kind (block :: (blocks ++ others)) :=
  ⟨fun h ↦ h.perm List.perm_middle, fun h ↦ h.perm List.perm_middle.symm⟩

theorem Scattered.tail (h : Scattered rel kind (block :: blocks)) : Scattered rel kind blocks :=
  ⟨h.apart.tail, fun other hother ↦ h.each other (List.mem_cons_of_mem block hother)⟩

theorem Scattered.cons (h : Scattered rel kind blocks) (hkind : kind block)
    (hrel : ∀ other ∈ blocks, rel block other) : Scattered rel kind (block :: blocks) := by
  refine ⟨List.pairwise_cons.mpr ⟨hrel, h.apart⟩, fun other hother ↦ ?_⟩
  rcases List.mem_cons.mp hother with rfl | hmem
  · exact hkind
  · exact h.each other hmem

theorem Scattered.head_apart (h : Scattered rel kind (block :: blocks)) :
    ∀ other ∈ blocks, rel block other :=
  fun _ hother ↦ List.rel_of_pairwise_cons h.apart hother

theorem Scattered.sublist (h : Scattered rel kind blocks) (hsub : others.Sublist blocks) :
    Scattered rel kind others :=
  ⟨h.apart.sublist hsub, fun block hblock ↦ h.each block (hsub.subset hblock)⟩

end Scattered

variable {region block first second : Block} {least grain : ℕ} {blocks others : List Block}

theorem arena_iff_scattered : Arena region least grain blocks ↔
    Scattered Block.Apart (fun block ↦ block.Fits region least grain) blocks :=
  ⟨fun h ↦ ⟨h.apart, h.fits⟩, fun h ↦ ⟨h.apart, h.each⟩⟩

theorem Arena.perm (h : Arena region least grain blocks) (hperm : blocks.Perm others) :
    Arena region least grain others :=
  arena_iff_scattered.mpr ((arena_iff_scattered.mp h).perm hperm)

theorem arena_middle : Arena region least grain (blocks ++ block :: others) ↔
    Arena region least grain (block :: (blocks ++ others)) :=
  ⟨fun h ↦ h.perm List.perm_middle, fun h ↦ h.perm List.perm_middle.symm⟩

theorem Arena.tail (h : Arena region least grain (block :: blocks)) :
    Arena region least grain blocks :=
  arena_iff_scattered.mpr (arena_iff_scattered.mp h).tail

theorem Arena.cons (h : Arena region least grain blocks) (hfits : block.Fits region least grain)
    (hapart : ∀ other ∈ blocks, block.Apart other) :
    Arena region least grain (block :: blocks) :=
  arena_iff_scattered.mpr ((arena_iff_scattered.mp h).cons hfits hapart)

theorem Arena.head_apart (h : Arena region least grain (block :: blocks)) :
    ∀ other ∈ blocks, block.Apart other :=
  (arena_iff_scattered.mp h).head_apart

theorem Arena.apart_of_ne (h : Arena region least grain blocks) (hfirst : first ∈ blocks)
    (hsecond : second ∈ blocks) (hne : first ≠ second) : first.Apart second :=
  h.apart.forall hfirst hsecond hne

/-- Two neighbours joined into one block. -/
theorem Arena.join (h : Arena region least grain (first :: second :: blocks))
    (hleast : 0 < least) (hnext : first.limit = second.addr) :
    Arena region least grain (⟨first.addr, first.size + second.size⟩ :: blocks) := by
  have hfirst := h.fits first List.mem_cons_self
  have hsecond := h.fits second (List.mem_cons_of_mem first List.mem_cons_self)
  have hlimit : (⟨first.addr, first.size + second.size⟩ : Block).limit = second.limit := by
    unfold Block.limit at hnext ⊢
    rw [← hnext]
    exact (Nat.add_assoc _ _ _).symm
  apply h.tail.tail.cons
  · refine ⟨hfirst.low, hlimit.trans_le hsecond.high, ?_, ?_⟩
    · exact hfirst.least_le.trans (Nat.le_add_right _ _)
    · exact Nat.dvd_add hfirst.grain_dvd hsecond.grain_dvd
  · intro other hother
    have hsize := (h.tail.tail.fits other hother).least_le
    unfold Block.Apart
    rw [hlimit]
    rcases h.tail.head_apart other hother with hafter | hbefore
    · exact Or.inl hafter
    · -- A block before the second one that is not before the first would be empty.
      rcases h.head_apart other (List.mem_cons_of_mem second hother) with hgap | hbefore'
      · unfold Block.limit at hnext hbefore hgap
        omega
      · exact Or.inr hbefore'

/-- A block cut in two. -/
theorem Arena.cut (h : Arena region least grain (block :: blocks)) {size : ℕ}
    (hsize : least ≤ size) (hrest : size + least ≤ block.size) (hgrain : grain ∣ size) :
    Arena region least grain
      (⟨block.addr, size⟩ :: ⟨block.addr + size, block.size - size⟩ :: blocks) := by
  have hblock := h.fits block List.mem_cons_self
  have hhigh := hblock.high
  have hcut : (⟨block.addr + size, block.size - size⟩ : Block).limit = block.limit := by
    simp only [Block.limit]
    omega
  have hfirst : (⟨block.addr, size⟩ : Block).limit ≤ block.limit := by
    simp only [Block.limit]
    omega
  have hapart (other : Block) (hother : other ∈ blocks) :
      block.limit ≤ other.addr ∨ other.limit ≤ block.addr := h.head_apart other hother
  apply Arena.cons
  · apply h.tail.cons
    · refine ⟨hblock.low.trans (Nat.le_add_right _ _), hcut.trans_le hhigh, ?_,
        Nat.dvd_sub hblock.grain_dvd hgrain⟩
      change least ≤ block.size - size
      omega
    · intro other hother
      exact (hapart other hother).imp hcut.le.trans fun hle ↦ hle.trans (Nat.le_add_right _ _)
  · exact ⟨hblock.low, hfirst.trans hhigh, hsize, hgrain⟩
  · intro other hother
    rcases List.mem_cons.mp hother with rfl | hmem
    · exact Or.inl le_rfl
    · exact (hapart other hmem).imp_left hfirst.trans

/-- The addresses of the blocks are different. -/
theorem Arena.nodup (h : Arena region least grain blocks) (hleast : 0 < least) :
    (blocks.map Block.addr).Nodup := by
  induction blocks with
  | nil => exact List.nodup_nil
  | cons block rest ih =>
    refine List.nodup_cons.mpr ⟨fun hmem ↦ ?_, ih h.tail⟩
    obtain ⟨other, hother, haddr⟩ := List.mem_map.mp hmem
    have hsize := (h.fits block List.mem_cons_self).least_le
    have hsize' := (h.tail.fits other hother).least_le
    have hapart := h.head_apart other hother
    simp only [Block.Apart, Block.limit] at hapart
    omega

/-- There are no more blocks with different addresses than addresses. -/
theorem length_le_size (hnodup : (blocks.map Block.addr).Nodup)
    (hinside : ∀ block ∈ blocks, region.addr ≤ block.addr ∧ block.addr < region.limit) :
    blocks.length ≤ region.size := by
  have hsubset : (blocks.map Block.addr).toFinset ⊆ Finset.Ico region.addr region.limit := by
    intro addr haddr
    obtain ⟨block, hblock, rfl⟩ := List.mem_map.mp (List.mem_toFinset.mp haddr)
    exact Finset.mem_Ico.mpr (hinside block hblock)
  calc
    blocks.length = (blocks.map Block.addr).toFinset.card := by
      rw [List.toFinset_card_of_nodup hnodup, List.length_map]
    _ ≤ (Finset.Ico region.addr region.limit).card := Finset.card_le_card hsubset
    _ = region.size := by
      rw [Nat.card_Ico]
      exact Nat.add_sub_cancel_left _ _

theorem Arena.length_le (h : Arena region least grain blocks) (hleast : 0 < least) :
    blocks.length ≤ region.size := by
  apply length_le_size (h.nodup hleast)
  intro block hblock
  have hfits := h.fits block hblock
  have hhigh := hfits.high
  have hsize := hfits.least_le
  refine ⟨hfits.low, ?_⟩
  simp only [Block.limit] at hhigh ⊢
  omega

end OS537.Blocks
