import OS537.Base.Blocks
import Mathlib.Algebra.GroupWithZero.Nat

/-!
# Neighbours

Two blocks are neighbours when one begins where the other ends, and joined they are one block. A
block that comes to others takes in the first neighbour it finds, and then the first neighbour of
the result. If the others have no neighbours among themselves, this is all there is to join: the
result is the union of the block and its neighbours, and the other blocks stay in their order.
-/

namespace OS537.Blocks

/-- One of the blocks begins where the other ends. -/
def Block.Touches (block chunk : Block) : Prop :=
  chunk.limit = block.addr ∨ block.limit = chunk.addr

instance (block chunk : Block) : Decidable (block.Touches chunk) :=
  inferInstanceAs (Decidable (_ ∨ _))

/-- Two neighbours as one block. -/
def Block.join (block chunk : Block) : Block :=
  if chunk.limit = block.addr then ⟨chunk.addr, chunk.size + block.size⟩
  else ⟨block.addr, block.size + chunk.size⟩

/-- The address is one of the block's. -/
def Block.Contains (block : Block) (addr : ℕ) : Prop :=
  block.addr ≤ addr ∧ addr < block.limit

/-- The block takes in its first neighbour. -/
def settle (block : Block) : List Block → Block × List Block
  | [] => (block, [])
  | chunk :: rest =>
    if block.Touches chunk then (block.join chunk, rest)
    else ((settle block rest).1, chunk :: (settle block rest).2)

/-- The block takes in its first neighbour, and what this gives takes in the first neighbour that
comes later. -/
def coalesce (block : Block) : List Block → Block × List Block
  | [] => (block, [])
  | chunk :: rest =>
    if block.Touches chunk then settle (block.join chunk) rest
    else ((coalesce block rest).1, chunk :: (coalesce block rest).2)

variable {region block chunk : Block} {least grain : ℕ} {blocks extra : List Block}

theorem Block.join_before (h : chunk.limit = block.addr) :
    block.join chunk = ⟨chunk.addr, chunk.size + block.size⟩ :=
  if_pos h

theorem Block.join_after (h : chunk.limit ≠ block.addr) :
    block.join chunk = ⟨block.addr, block.size + chunk.size⟩ :=
  if_neg h

theorem Block.join_size (block chunk : Block) :
    (block.join chunk).size = block.size + chunk.size := by
  unfold Block.join
  split
  · exact Nat.add_comm _ _
  · rfl

theorem Block.join_contains (h : block.Touches chunk) (addr : ℕ) :
    (block.join chunk).Contains addr ↔ block.Contains addr ∨ chunk.Contains addr := by
  unfold Block.join
  split <;> simp only [Block.Touches, Block.Contains, Block.limit] at * <;> omega

theorem settle_cons_of_touches (h : block.Touches chunk) (rest : List Block) :
    settle block (chunk :: rest) = (block.join chunk, rest) :=
  if_pos h

theorem settle_cons_of_not_touches (h : ¬ block.Touches chunk) (rest : List Block) :
    settle block (chunk :: rest) = ((settle block rest).1, chunk :: (settle block rest).2) :=
  if_neg h

theorem coalesce_cons_of_touches (h : block.Touches chunk) (rest : List Block) :
    coalesce block (chunk :: rest) = settle (block.join chunk) rest :=
  if_pos h

theorem coalesce_cons_of_not_touches (h : ¬ block.Touches chunk) (rest : List Block) :
    coalesce block (chunk :: rest) = ((coalesce block rest).1, chunk :: (coalesce block rest).2) :=
  if_neg h

theorem le_settle_size (block : Block) (blocks : List Block) :
    block.size ≤ (settle block blocks).1.size := by
  induction blocks with
  | nil => exact le_rfl
  | cons chunk rest ih =>
    by_cases htouch : block.Touches chunk
    · rw [settle_cons_of_touches htouch, Block.join_size]
      exact Nat.le_add_right _ _
    · rw [settle_cons_of_not_touches htouch]
      exact ih

theorem settle_of_not_touches (h : ∀ chunk ∈ blocks, ¬ block.Touches chunk) :
    settle block blocks = (block, blocks) := by
  induction blocks with
  | nil => rfl
  | cons chunk rest ih =>
    rw [settle_cons_of_not_touches (h chunk List.mem_cons_self),
      ih fun other hother ↦ h other (List.mem_cons_of_mem _ hother)]

theorem coalesce_append_of_not_touches (h : ∀ chunk ∈ extra, ¬ block.Touches chunk) :
    coalesce block (extra ++ blocks) =
      ((coalesce block blocks).1, extra ++ (coalesce block blocks).2) := by
  induction extra with
  | nil => rfl
  | cons chunk rest ih =>
    rw [List.cons_append, coalesce_cons_of_not_touches (h chunk List.mem_cons_self),
      ih fun other hother ↦ h other (List.mem_cons_of_mem _ hother), List.cons_append]

/-! ## What joining keeps -/

section Keeps

variable {holds : List Block → Prop} (hperm : ∀ {blocks others}, blocks.Perm others →
    holds blocks → holds others)
  (hjoin : ∀ {block chunk blocks}, block.Touches chunk → holds (block :: chunk :: blocks) →
    holds (block.join chunk :: blocks))

include hperm hjoin

/-- What is kept when two neighbours are joined. -/
theorem settle_keeps (h : holds (block :: (extra ++ blocks))) :
    holds ((settle block blocks).1 :: (extra ++ (settle block blocks).2)) := by
  induction blocks generalizing extra with
  | nil => exact h
  | cons chunk rest ih =>
    by_cases htouch : block.Touches chunk
    · rw [settle_cons_of_touches htouch]
      exact hjoin htouch (hperm (List.perm_middle.cons block) h)
    · rw [settle_cons_of_not_touches htouch]
      have hmoved : holds (block :: (extra ++ [chunk] ++ rest)) := by
        simpa using h
      simpa using ih hmoved

theorem coalesce_keeps (h : holds (block :: (extra ++ blocks))) :
    holds ((coalesce block blocks).1 :: (extra ++ (coalesce block blocks).2)) := by
  induction blocks generalizing extra with
  | nil => exact h
  | cons chunk rest ih =>
    by_cases htouch : block.Touches chunk
    · rw [coalesce_cons_of_touches htouch]
      apply settle_keeps hperm hjoin
      exact hjoin htouch (hperm (List.perm_middle.cons block) h)
    · rw [coalesce_cons_of_not_touches htouch]
      have hmoved : holds (block :: (extra ++ [chunk] ++ rest)) := by
        simpa using h
      simpa using ih hmoved

end Keeps

theorem Arena.join_touching (h : Arena region least grain (block :: chunk :: blocks))
    (hleast : 0 < least) (htouch : block.Touches chunk) :
    Arena region least grain (block.join chunk :: blocks) := by
  by_cases hbefore : chunk.limit = block.addr
  · rw [Block.join_before hbefore]
    exact (h.perm (List.Perm.swap _ _ _)).join hleast hbefore
  · rw [Block.join_after hbefore]
    exact h.join hleast (htouch.resolve_left hbefore)

theorem Arena.coalesce (h : Arena region least grain (block :: (extra ++ blocks)))
    (hleast : 0 < least) :
    Arena region least grain
      ((coalesce block blocks).1 :: (extra ++ (Blocks.coalesce block blocks).2)) :=
  coalesce_keeps (fun hperm harena ↦ harena.perm hperm)
    (fun htouch harena ↦ harena.join_touching hleast htouch) h

/-! ## Nothing is left to join -/

/-- The block with all its neighbours, and the blocks that are no neighbours in their order. -/
structure Merged (block : Block) (blocks : List Block) (result : Block × List Block) : Prop where
  others : result.2 = blocks.filter fun chunk ↦ ¬ block.Touches chunk
  size : result.1.size =
    block.size + ((blocks.filter fun chunk ↦ block.Touches chunk).map Block.size).sum
  contains : ∀ addr, result.1.Contains addr ↔
    block.Contains addr ∨ ∃ chunk ∈ blocks, block.Touches chunk ∧ chunk.Contains addr

/-- No two of the blocks are neighbours. -/
def Separate (blocks : List Block) : Prop :=
  ∀ first ∈ blocks, ∀ second ∈ blocks, first.limit ≠ second.addr

instance (blocks : List Block) : Decidable (Separate blocks) :=
  inferInstanceAs (Decidable (∀ first ∈ blocks, ∀ second ∈ blocks, first.limit ≠ second.addr))

theorem Separate.tail (h : Separate (block :: blocks)) : Separate blocks :=
  fun first hfirst second hsecond ↦
    h first (List.mem_cons_of_mem _ hfirst) second (List.mem_cons_of_mem _ hsecond)

theorem Merged.cons {result : Block × List Block} (h : Merged block blocks result)
    (htouch : ¬ block.Touches chunk) :
    Merged block (chunk :: blocks) (result.1, chunk :: result.2) where
  others := by simp [h.others, htouch]
  size := by simp [h.size, htouch]
  contains addr := by simp [h.contains addr, htouch]

theorem merged_nil (block : Block) : Merged block [] (block, []) where
  others := rfl
  size := rfl
  contains addr := by simp

/-- At most one of the blocks is a neighbour, and so it is the first. -/
theorem settle_merged (h : blocks.Pairwise fun first second ↦
      ¬ (block.Touches first ∧ block.Touches second)) :
    Merged block blocks (settle block blocks) := by
  induction blocks with
  | nil => exact merged_nil block
  | cons chunk rest ih =>
    obtain ⟨hchunk, hrest⟩ := List.pairwise_cons.mp h
    by_cases htouch : block.Touches chunk
    · have hnone (other : Block) (hother : other ∈ rest) : ¬ block.Touches other :=
        fun hboth ↦ hchunk other hother ⟨htouch, hboth⟩
      have hkept : (rest.filter fun other ↦ ¬ block.Touches other) = rest :=
        List.filter_eq_self.mpr fun other hother ↦ decide_eq_true (hnone other hother)
      have hdropped : (rest.filter fun other ↦ block.Touches other) = [] :=
        List.filter_eq_nil_iff.mpr fun other hother ↦ by simpa using hnone other hother
      rw [settle_cons_of_touches htouch]
      refine ⟨?_, ?_, fun addr ↦ ?_⟩
      · rw [List.filter_cons_of_neg (by simpa using htouch), hkept]
      · rw [List.filter_cons_of_pos (by simpa using htouch), hdropped, Block.join_size]
        rfl
      · rw [Block.join_contains htouch]
        constructor
        · rintro (hblock | hinside)
          · exact Or.inl hblock
          · exact Or.inr ⟨chunk, List.mem_cons_self, htouch, hinside⟩
        · rintro (hblock | ⟨other, hother, hboth, hinside⟩)
          · exact Or.inl hblock
          · rcases List.mem_cons.mp hother with rfl | hmem
            · exact Or.inr hinside
            · exact absurd hboth (hnone other hmem)
    · rw [settle_cons_of_not_touches htouch]
      exact (ih hrest).cons htouch

section Separate

variable {other : Block} (hblock : 0 < block.size) (hchunk : 0 < chunk.size)
  (htouch : block.Touches chunk)

include hblock hchunk htouch

/-- What a neighbour brings in are no neighbours of its own. -/
theorem join_touches_iff (hother : 0 < other.size) (hapart : chunk.Apart other)
    (hblockApart : block.Apart other) (hafter : chunk.limit ≠ other.addr)
    (hbefore : other.limit ≠ chunk.addr) :
    (block.join chunk).Touches other ↔ block.Touches other := by
  unfold Block.join
  split <;>
    simp only [Block.Touches, Block.Apart, Block.limit] at * <;>
    omega

/-- A block has at most one neighbour beside a given one. -/
theorem not_touches_both {third : Block} (hother : 0 < other.size) (hthird : 0 < third.size)
    (hapart : chunk.Apart other) (hthirdApart : chunk.Apart third) (hotherApart : other.Apart third)
    (hboth : block.Touches other ∧ block.Touches third) : False := by
  simp only [Block.Touches, Block.Apart, Block.limit] at *
  omega

end Separate

theorem coalesce_merged (happart : (block :: blocks).Pairwise Block.Apart)
    (hpos : ∀ chunk ∈ block :: blocks, 0 < chunk.size) (hseparate : Separate blocks) :
    Merged block blocks (coalesce block blocks) := by
  induction blocks with
  | nil => exact merged_nil block
  | cons chunk rest ih =>
    obtain ⟨hblockApart, hblocks⟩ := List.pairwise_cons.mp happart
    obtain ⟨hchunkApart, hrest⟩ := List.pairwise_cons.mp hblocks
    have hblockPos := hpos block List.mem_cons_self
    have hchunkPos := hpos chunk (by simp)
    have hrestPos (other : Block) (hother : other ∈ rest) : 0 < other.size :=
      hpos other (by simp [hother])
    by_cases htouch : block.Touches chunk
    · have hiff (other : Block) (hother : other ∈ rest) :
          (block.join chunk).Touches other ↔ block.Touches other :=
        join_touches_iff hblockPos hchunkPos htouch (hrestPos other hother)
          (hchunkApart other hother) (hblockApart other (List.mem_cons_of_mem _ hother))
          (hseparate chunk List.mem_cons_self other (List.mem_cons_of_mem _ hother))
          (hseparate other (List.mem_cons_of_mem _ hother) chunk List.mem_cons_self)
      have hfirst : rest.Pairwise fun first second ↦
          ¬ ((block.join chunk).Touches first ∧ (block.join chunk).Touches second) := by
        apply hrest.imp_of_mem
        intro first second hfirst hsecond hpair hboth
        rw [hiff first hfirst, hiff second hsecond] at hboth
        exact not_touches_both hblockPos hchunkPos htouch (hrestPos first hfirst)
          (hrestPos second hsecond) (hchunkApart first hfirst) (hchunkApart second hsecond) hpair
          hboth
      have hsettled := settle_merged hfirst
      have hkept : (rest.filter fun other ↦ ¬ (block.join chunk).Touches other) =
          rest.filter fun other ↦ ¬ block.Touches other :=
        List.filter_congr fun other hother ↦ decide_eq_decide.mpr (not_congr (hiff other hother))
      have hdropped : (rest.filter fun other ↦ (block.join chunk).Touches other) =
          rest.filter fun other ↦ block.Touches other :=
        List.filter_congr fun other hother ↦ decide_eq_decide.mpr (hiff other hother)
      rw [coalesce_cons_of_touches htouch]
      refine ⟨?_, ?_, fun addr ↦ ?_⟩
      · rw [hsettled.others, hkept, List.filter_cons_of_neg (by simpa using htouch)]
      · rw [hsettled.size, hdropped, List.filter_cons_of_pos (by simpa using htouch),
          Block.join_size, List.map_cons, List.sum_cons, Nat.add_assoc]
      · rw [hsettled.contains, Block.join_contains htouch, or_assoc]
        apply or_congr_right
        constructor
        · rintro (hinside | ⟨other, hother, hboth, hinside⟩)
          · exact ⟨chunk, List.mem_cons_self, htouch, hinside⟩
          · exact ⟨other, List.mem_cons_of_mem _ hother, (hiff other hother).mp hboth, hinside⟩
        · rintro ⟨other, hother, hboth, hinside⟩
          rcases List.mem_cons.mp hother with rfl | hmem
          · exact Or.inl hinside
          · exact Or.inr ⟨other, hmem, (hiff other hmem).mpr hboth, hinside⟩
    · rw [coalesce_cons_of_not_touches htouch]
      have hskip : (block :: rest).Pairwise Block.Apart :=
        List.pairwise_cons.mpr
          ⟨fun other hother ↦ hblockApart other (List.mem_cons_of_mem _ hother), hrest⟩
      apply Merged.cons _ htouch
      apply ih hskip _ hseparate.tail
      intro other hother
      rcases List.mem_cons.mp hother with rfl | hmem
      · exact hblockPos
      · exact hrestPos other hmem

/-- What is left is no neighbour of the result. -/
theorem Merged.not_touches {result : Block × List Block} (h : Merged block blocks result)
    (hpos : ∀ chunk ∈ block :: blocks, 0 < chunk.size) (hseparate : Separate blocks)
    {other : Block} (hother : other ∈ result.2) : ¬ result.1.Touches other := by
  rw [h.others, List.mem_filter, decide_eq_true_iff] at hother
  obtain ⟨hmem, hapart⟩ := hother
  have hblock := hpos block List.mem_cons_self
  have hsize : 0 < result.1.size := by
    rw [h.size]
    omega
  -- The first and the last address of the result belong to the block or to one of its neighbours.
  have hlow := (h.contains result.1.addr).mp ⟨le_rfl, by unfold Block.limit; omega⟩
  have hhigh := (h.contains (result.1.limit - 1)).mp
    ⟨by unfold Block.limit; omega, by unfold Block.limit; omega⟩
  have hinside (addr : ℕ) (hcontains : block.Contains addr) : result.1.Contains addr :=
    (h.contains addr).mpr (Or.inl hcontains)
  have hneighbour (chunk : Block) (hchunk : chunk ∈ blocks) (htouch : block.Touches chunk)
      (addr : ℕ) (hcontains : chunk.Contains addr) : result.1.Contains addr :=
    (h.contains addr).mpr (Or.inr ⟨chunk, hchunk, htouch, hcontains⟩)
  unfold Block.Touches at hapart
  rintro (hbefore | hafter)
  · rcases hlow with hlow | ⟨chunk, hchunk, htouch, hlow⟩
    · have hfirst := hinside block.addr ⟨le_rfl, by unfold Block.limit; omega⟩
      unfold Block.Contains at hlow hfirst
      omega
    · have hchunkPos := hpos chunk (List.mem_cons_of_mem _ hchunk)
      have hfirst := hneighbour chunk hchunk htouch chunk.addr
        ⟨le_rfl, by unfold Block.limit; omega⟩
      have hne := hseparate other hmem chunk hchunk
      unfold Block.Contains at hlow hfirst
      omega
  · rcases hhigh with hhigh | ⟨chunk, hchunk, htouch, hhigh⟩
    · have hlast := hinside (block.limit - 1)
        ⟨by unfold Block.limit; omega, by unfold Block.limit; omega⟩
      unfold Block.Contains at hhigh hlast
      omega
    · have hchunkPos := hpos chunk (List.mem_cons_of_mem _ hchunk)
      have hlast := hneighbour chunk hchunk htouch (chunk.limit - 1)
        ⟨by unfold Block.limit; omega, by unfold Block.limit; omega⟩
      have hne := hseparate chunk hchunk other hmem
      unfold Block.Contains at hhigh hlast
      omega

theorem Merged.separate {result : Block × List Block} (h : Merged block blocks result)
    (hpos : ∀ chunk ∈ block :: blocks, 0 < chunk.size) (hseparate : Separate blocks) :
    Separate (result.1 :: result.2) := by
  have hsize : 0 < result.1.size := by
    have hblock := hpos block List.mem_cons_self
    rw [h.size]
    omega
  have hkept (other : Block) (hother : other ∈ result.2) : other ∈ blocks := by
    rw [h.others] at hother
    exact (List.mem_filter.mp hother).1
  intro first hfirst second hsecond
  rcases List.mem_cons.mp hfirst with rfl | hfirst <;>
    rcases List.mem_cons.mp hsecond with rfl | hsecond
  · unfold Block.limit
    omega
  · exact fun hafter ↦ h.not_touches hpos hseparate hsecond (Or.inr hafter)
  · exact fun hbefore ↦ h.not_touches hpos hseparate hfirst (Or.inl hbefore)
  · exact hseparate first (hkept first hfirst) second (hkept second hsecond)

/-- A block has at most two neighbours, one at each side. -/
theorem touching_length_le (happart : blocks.Pairwise Block.Apart)
    (hpos : ∀ chunk ∈ blocks, 0 < chunk.size) :
    (blocks.filter fun chunk ↦ block.Touches chunk).length ≤ 2 := by
  rcases hfilter : blocks.filter fun chunk ↦ block.Touches chunk with
    _ | ⟨first, _ | ⟨second, _ | ⟨third, rest⟩⟩⟩
  · exact Nat.zero_le _
  · exact Nat.le_succ _
  · exact le_rfl
  · have hsub := happart.filter fun chunk ↦ block.Touches chunk
    rw [hfilter] at hsub
    have hmem (chunk : Block) (hchunk : chunk ∈ first :: second :: third :: rest) :
        chunk ∈ blocks ∧ block.Touches chunk := by
      rw [← hfilter, List.mem_filter, decide_eq_true_iff] at hchunk
      exact hchunk
    obtain ⟨hfirst, htouch⟩ := hmem first (by simp)
    obtain ⟨hsecond, htouch'⟩ := hmem second (by simp)
    obtain ⟨hthird, htouch''⟩ := hmem third (by simp)
    have hone : first.Apart second := List.rel_of_pairwise_cons hsub (by simp)
    have htwo : first.Apart third := List.rel_of_pairwise_cons hsub (by simp)
    have hthree : second.Apart third := List.rel_of_pairwise_cons hsub.tail (by simp)
    have hfirstPos := hpos first hfirst
    have hsecondPos := hpos second hsecond
    have hthirdPos := hpos third hthird
    simp only [Block.Touches, Block.Apart, Block.limit] at *
    omega

end OS537.Blocks
