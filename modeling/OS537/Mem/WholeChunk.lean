import OS537.Mem.Coalescing

/-!
# A chunk that is used up

When a request takes all of a chunk, `chunkNode` still writes the size of an empty rest, into the
four bytes behind the chunk, if there is memory, and takes the chunk out of the list. If the chunk
is the head of the list it sets the head to `NULL`, and all other chunks are lost.
-/

namespace OS537.Mem

open Blocks Bytes Chain Code

variable {heap : Heap} {held free before after : List Block} {block prev : Block}
  {addr fuel limit : ℕ}

/-! ## A size is set to 0 -/

/-- The block with the size that its header has after 0 was written at the address. -/
def zeroAt (addr : ℕ) (block : Block) : Block :=
  if block.addr = addr then ⟨block.addr, 0⟩ else block

theorem zeroAt_addr (addr : ℕ) (block : Block) : (zeroAt addr block).addr = block.addr := by
  unfold zeroAt
  split <;> rfl

theorem zeroAt_of_ne (h : block.addr ≠ addr) : zeroAt addr block = block :=
  if_neg h

theorem map_zeroAt_addr (addr : ℕ) (blocks : List Block) :
    (blocks.map (zeroAt addr)).map Block.addr = blocks.map Block.addr := by
  rw [List.map_map]
  apply List.map_congr_left
  intro block _
  exact zeroAt_addr addr block

theorem map_zeroAt_of_ne {blocks : List Block} (h : ∀ block ∈ blocks, block.addr ≠ addr) :
    blocks.map (zeroAt addr) = blocks := by
  calc
    blocks.map (zeroAt addr) = blocks.map id :=
      List.map_congr_left fun block hblock ↦ zeroAt_of_ne (h block hblock)
    _ = blocks := List.map_id _

/-- The four bytes at the address are those of the size in the header, or not of the header. -/
def Hits (addr : ℕ) (block : Block) : Prop :=
  block.addr = addr ∨ addr + 4 ≤ block.addr ∨ block.addr + 16 ≤ addr

theorem nextAt_putZero (h : Hits addr block) :
    nextAt (heap.putSize addr 0) block.addr = nextAt heap block.addr := by
  have hapart : block.addr + 8 + 8 ≤ addr ∨ addr + 4 ≤ block.addr + 8 := by
    unfold Hits at h
    omega
  rw [nextAt, Heap.putSize, (agreeOn_store32 _ _ hapart).load64_eq le_rfl le_rfl, nextAt]

theorem sizeAt_putZero (h : Hits addr block) (hsize : sizeAt heap block.addr = block.size) :
    sizeAt (heap.putSize addr 0) block.addr = (zeroAt addr block).size := by
  by_cases heq : block.addr = addr
  · rw [zeroAt, if_pos heq, heq]
    exact sizeAt_putSize_same (by decide)
  · have hapart : block.addr + 4 ≤ addr ∨ addr + 4 ≤ block.addr := by
      unfold Hits at h
      omega
    rw [zeroAt_of_ne heq, ← hsize, sizeAt, Heap.putSize, load32_store32_other _ _ hapart, sizeAt]

theorem IsNode.zeroAt (h : IsNode block) (addr : ℕ) : IsNode (zeroAt addr block) := by
  unfold Mem.zeroAt
  split
  · exact ⟨h.addr_pos, h.valid.2, Nat.two_pow_pos 31⟩
  · exact h

/-- 0 is written where it can only be the size of a header. -/
theorem Linked.zero (h : Linked heap held free) (addr : ℕ)
    (hhits : ∀ other ∈ held ++ free, Hits addr other) :
    Linked (heap.putSize addr 0) (held.map (zeroAt addr)) (free.map (zeroAt addr)) := by
  have hsize (other : Block) (hother : other ∈ held ++ free)
      (hbefore : sizeAt heap other.addr = other.size) :
      sizeAt (heap.putSize addr 0) (zeroAt addr other).addr = (zeroAt addr other).size := by
    rw [zeroAt_addr]
    exact sizeAt_putZero (hhits other hother) hbefore
  refine ⟨⟨?_, ?_⟩, ⟨?_, ?_⟩, ?_⟩
  · rw [← List.map_append, List.pairwise_map]
    simp only [zeroAt_addr]
    exact h.nodes.apart
  · intro block hblock
    rw [← List.map_append] at hblock
    obtain ⟨other, hother, rfl⟩ := List.mem_map.mp hblock
    exact (h.nodes.each other hother).zeroAt addr
  · rw [map_zeroAt_addr]
    apply h.list.path.congr
    intro listed hlisted
    obtain ⟨other, hother, rfl⟩ := List.mem_map.mp hlisted
    exact nextAt_putZero (hhits other (List.mem_append_right _ hother))
  · intro block hblock
    obtain ⟨other, hother, rfl⟩ := List.mem_map.mp hblock
    exact hsize other (List.mem_append_right _ hother) (h.list.size other hother)
  · intro block hblock
    obtain ⟨other, hother, rfl⟩ := List.mem_map.mp hblock
    exact hsize other (List.mem_append_left _ hother) (h.held_size other hother)

/-- The header of a block in hand is written again, with its size. -/
theorem Linked.rewrite (h : Linked heap (block :: held) free) :
    Linked ((heap.putSize block.addr block.size).putNext block.addr 0) (block :: held) free := by
  have hnodes : Nodes (block :: (held ++ free)) := h.nodes
  have hlt := (hnodes.each block List.mem_cons_self).size_lt
  have hsame (other : Block) (hother : other ∈ held ++ free) :
      SameHeader ((heap.putSize block.addr block.size).putNext block.addr 0) heap other.addr :=
    (sameHeader_putNext (hnodes.head_apart other hother) _).trans
      (sameHeader_putSize (hnodes.head_apart other hother) _)
  refine ⟨h.nodes, h.list.congr (fun other hother ↦ hsame other (by simp [hother])) rfl, ?_⟩
  intro other hother
  rcases List.mem_cons.mp hother with rfl | hheld
  · exact (sizeAt_putNext (Or.inl rfl) 0).trans (sizeAt_putSize_same (by omega))
  · exact (hsame other (List.mem_append_left _ hheld)).size.trans
      (h.held_size other (List.mem_cons_of_mem _ hheld))

/-! ## The list without the chunk -/

/-- What stays on the list when the chunk between the two parts is used up. -/
def keptChunks (before after : List Block) : List Block :=
  if before = [] then [] else before ++ after

theorem keptChunks_sublist (before after : List Block) :
    (keptChunks before after).Sublist (before ++ after) := by
  unfold keptChunks
  split
  · exact List.nil_sublist _
  · exact List.Sublist.refl _

/-- The chunk before takes the place of the chunk, or the head of the list is set to `NULL`. -/
theorem Linked.useUp (h : Linked heap held (before ++ block :: after)) :
    Linked (heap.putLink before (if before = [] then 0 else nextAt heap block.addr))
      (block :: held) (keptChunks before after) := by
  have hunlinked := h.unlink
  by_cases hbefore : before = []
  · subst hbefore
    refine ⟨hunlinked.nodes.sublist ((keptChunks_sublist [] after).append_left _),
      ⟨rfl, fun _ hother ↦ absurd hother List.not_mem_nil⟩, fun other hother ↦ ?_⟩
    have hsize := hunlinked.held_size other hother
    rwa [Mem.sizeAt_putLink (by simp)] at hsize ⊢
  · rwa [keptChunks, if_neg hbefore, if_neg hbefore]

theorem putZero_putLink (h : ∀ last ∈ before, Hits addr last) (next : ℕ) :
    (heap.putSize addr 0).putLink before next = (heap.putLink before next).putSize addr 0 := by
  rcases List.eq_nil_or_concat' before with rfl | ⟨init, last, rfl⟩
  · rfl
  · have hlast := h last (by simp)
    rw [putLink_concat, putLink_concat]
    apply putSize_putNext_comm
    unfold Hits at hlast
    omega

section Whole

variable {size : ℕ} (hwhole : headedSize size = block.size)

include hwhole

theorem hits_limit : Hits block.limit block := by
  have hheaded := sixteen_le_headedSize size
  unfold Hits Block.limit
  omega

/-- What `chunkNode` reads behind the chunk after it has written the size of the rest. -/
theorem rest_valid (h : IsNode block) : Valid (block.addr + headedSize size) := by
  rw [hwhole]
  exact ⟨h.addr_pos.trans_le (Nat.le_add_right _ _), h.limit_lt⟩

/-- The chunk is used up; if it is the first one the list is lost. -/
theorem chunkNode_whole (hsize : size < 2 ^ 31) (hfits : RestFits limit (headedSize size) block)
    (h : Linked heap held (before ++ block :: after))
    (hprev : heap.listPrev = ptr (lastAddr before))
    (hhits : ∀ other ∈ held ++ keptChunks before after, Hits block.limit other) :
    ∃ next, chunkNode limit (ptr block.addr) (word size) heap = some (ptr (block.addr + 16), next) ∧
      Linked next (block :: held.map (zeroAt block.limit))
        ((keptChunks before after).map (zeroAt block.limit)) := by
  have hblock := h.free_node block (by simp)
  have hblockLt := hblock.size_lt
  have hheaded := sixteen_le_headedSize size
  have hne : block.addr ≠ block.limit := by
    unfold Block.limit
    omega
  have hbefore : ∀ last ∈ before, Hits block.limit last := by
    intro last hlast
    apply hhits
    rw [keptChunks, if_neg (List.ne_nil_of_mem hlast)]
    simp [hlast]
  have hrun := h.chunkNode_eq hprev (blockSize_word hsize) (by omega) (rest_valid hwhole hblock)
    hfits (word_sub hwhole.le (by omega)) (by omega)
  refine ⟨_, hrun, ?_⟩
  have hzeroed := h.useUp.zero block.limit (by
    rintro other (_ | ⟨_, hother⟩)
    · exact hits_limit hwhole
    · exact hhits other hother)
  rw [List.map_cons, zeroAt_of_ne hne] at hzeroed
  rw [hwhole, Nat.sub_self, Heap.linkRest, if_pos rfl, ← Block.limit, putZero_putLink hbefore]
  exact hzeroed.rewrite

end Whole

/-! ## What an allocation takes -/

/-- What is left of a chunk after a request, if anything is. -/
def unusedTail (block : Block) (size : Word) : List Block :=
  if block.size = (blockSize size).toNat then []
  else [⟨block.addr + (blockSize size).toNat, block.size - (blockSize size).toNat⟩]

/-- The block is at the start of a largest chunk, which is replaced by what is left of it; all other
chunks stay on the list. -/
def TakesFromLargest (limit fuel : ℕ) (heap : Heap) (free : List Block) (size : Word) : Prop :=
  ∃ block ∈ free, (∀ other ∈ free, other.size ≤ block.size) ∧
    ∃ next free', memAlloc limit fuel size heap = some (ptr (block.addr + nodeSize), next) ∧
      FreeList next free' ∧ free'.Perm (unusedTail block size ++ free.erase block)

/-- If the first of the largest chunks is enough for the request, there is memory for the header of
what is left of it. -/
def WorstFits (limit : ℕ) (size : Word) (free : List Block) : Prop :=
  ∀ block ∈ free.argmax Block.size, size.toNat + nodeSize ≤ block.size →
    RestFits limit (blockSize size).toNat block

instance (limit : ℕ) (size : Word) (free : List Block) : Decidable (WorstFits limit size free) :=
  inferInstanceAs (Decidable (∀ block ∈ free.argmax Block.size, _ → _))

/-- The head of the list is a largest chunk, is used up by the request, and is not the only one. -/
def UsesUpHead (size : Word) : List Block → Prop
  | head :: second :: rest => (∀ other ∈ second :: rest, other.size ≤ head.size) ∧
      head.size = (blockSize size).toNat
  | _ => False

instance (size : Word) (free : List Block) : Decidable (UsesUpHead size free) :=
  match free with
  | [] => inferInstanceAs (Decidable False)
  | [_] => inferInstanceAs (Decidable False)
  | head :: second :: rest => inferInstanceAs (Decidable
      ((∀ other ∈ second :: rest, other.size ≤ head.size) ∧ head.size = (blockSize size).toNat))

section Takes

variable {size : Word}

theorem erase_middle (before after : List Block) (block : Block) :
    ((before ++ block :: after).erase block).Perm (before ++ after) := by
  have hperm : (before ++ block :: after).Perm (block :: (before ++ after)) := List.perm_middle
  simpa using hperm.erase block

/-- Otherwise the process dies. -/
theorem memAlloc_outside (h : Linked heap held free) (hsize : 0 ≤ size.toInt)
    (hfuel : free.length < fuel) (hroom : ∀ chunk ∈ free, size.toNat + 16 ≤ chunk.size →
      headedSize size.toNat < 2 ^ 31 ∧ Valid (chunk.addr + headedSize size.toNat))
    (hout : ¬ WorstFits limit size free) : memAlloc limit fuel size heap = none := by
  simp only [WorstFits, not_forall] at hout
  obtain ⟨worst, hworst, hlarge, hfits⟩ := hout
  have hne : free ≠ [] := by
    rintro rfl
    cases hworst
  obtain ⟨before, after, block, rfl, hlargest, hfirst, hrun⟩ :=
    memAlloc_eq limit h hne (toNat_lt_of_nonneg hsize) hfuel
  rw [argmax_of_split before hlargest hfirst] at hworst
  obtain rfl : block = worst := Option.some.inj hworst
  have hmem : block ∈ before ++ block :: after := by simp
  have hlisted := h.list.size block hmem
  have hlt := (h.free_node block hmem).size_lt
  obtain ⟨hheaded, hrest⟩ := hroom block hmem hlarge
  rw [word_toNat, if_pos hlarge] at hrun
  rw [toNat_blockSize hsize] at hfits
  have hrounded : blockSize size = word (headedSize size.toNat) := by
    rw [← blockSize_word (toNat_lt_of_nonneg hsize), word_toNat]
  rw [hrun]
  apply chunkNode_outside (h.free_node block hmem).valid hrounded hheaded hrest
  · change sizeAt heap block.addr < 2 ^ 32
    omega
  · change ¬ RestFits limit _ ⟨block.addr, sizeAt heap block.addr⟩
    rwa [hlisted]

/-- The largest chunk has room for the rounded request. -/
theorem headedSize_le {size limit : ℕ} (hlarge : size + 16 ≤ limit) (hdvd : 8 ∣ limit) :
    headedSize size ≤ limit := by
  unfold headedSize
  omega

/-- The chunk is cut. -/
theorem takes_of_cut (hfree : WellFormed heap (before ++ block :: after))
    (haligned : Aligned (before ++ block :: after)) (hsize : 0 ≤ size.toInt)
    (hlt : headedSize size.toNat < block.size)
    (hfits : RestFits limit (headedSize size.toNat) block)
    (hprev : heap.listPrev = ptr (lastAddr before)) :
    ∃ next free', chunkNode limit (ptr block.addr) (word size.toNat) heap =
        some (ptr (block.addr + 16), next) ∧ FreeList next free' ∧
      free'.Perm (unusedTail block size ++ (before ++ block :: after).erase block) := by
  have hdvd := eight_dvd_headedSize size.toNat
  have hblockSize := (haligned block (by simp)).2
  have hrest := hfree.rest_apart haligned (by omega : headedSize size.toNat + 8 ≤ block.size)
  obtain ⟨next, hrun, hnext⟩ := chunkNode_run hrest (hfree.linked haligned)
    (toNat_lt_of_nonneg hsize) hlt hfits hprev
  refine ⟨next, _, hrun, hnext.list, ?_⟩
  rw [unusedTail, toNat_blockSize hsize, if_neg hlt.ne']
  exact List.perm_middle.trans ((erase_middle before after block).symm.cons _)

/-- The chunk is used up, and either it is not the head or it is all there is. -/
theorem takes_of_whole (hfree : WellFormed heap (before ++ block :: after))
    (haligned : Aligned (before ++ block :: after)) (hsize : 0 ≤ size.toInt)
    (hwhole : headedSize size.toNat = block.size)
    (hfits : RestFits limit (headedSize size.toNat) block)
    (hprev : heap.listPrev = ptr (lastAddr before)) (hlast : before = [] → after = []) :
    ∃ next free', chunkNode limit (ptr block.addr) (word size.toNat) heap =
        some (ptr (block.addr + 16), next) ∧ FreeList next free' ∧
      free'.Perm (unusedTail block size ++ (before ++ block :: after).erase block) := by
  have hlt := toNat_lt_of_nonneg hsize
  have htail : unusedTail block size = [] := by
    rw [unusedTail, toNat_blockSize hsize, if_pos hwhole.symm]
  have hkept : keptChunks before after = before ++ after := by
    unfold keptChunks
    split
    next hbefore => rw [hbefore, hlast hbefore, List.append_nil]
    next => rfl
  have hmiss : ∀ other ∈ before ++ after, Hits block.limit other ∧ other.addr ≠ block.limit := by
    intro other hother
    have hgap := hfree.gap haligned other hother
    have hheaded := sixteen_le_headedSize size.toNat
    unfold Hits Block.limit
    omega
  obtain ⟨next, hrun, hnext⟩ := chunkNode_whole hwhole hlt hfits (hfree.linked haligned) hprev
    (by rw [hkept]; exact fun other hother ↦ (hmiss other hother).1)
  rw [hkept, map_zeroAt_of_ne fun other hother ↦ (hmiss other hother).2] at hnext
  refine ⟨next, _, hrun, hnext.list, ?_⟩
  rw [htail]
  exact (erase_middle before after block).symm

/-- The head is used up, and the list that is left is empty. -/
theorem not_takes_of_usesUpHead (hfree : WellFormed heap free) (haligned : Aligned free)
    (hsize : 0 ≤ size.toInt) (hfuel : free.length < fuel) (hworst : WorstFits limit size free)
    (hhead : UsesUpHead size free) :
    ¬ TakesFromLargest limit fuel heap free size := by
  rcases free with _ | ⟨head, _ | ⟨second, rest⟩⟩
  · exact hhead.elim
  · exact hhead.elim
  obtain ⟨hlargest, hwhole⟩ := hhead
  rw [toNat_blockSize hsize] at hwhole
  have hlt := toNat_lt_of_nonneg hsize
  have hlinked := hfree.linked haligned
  obtain ⟨before, after, block, hsplit, hmax, hfirst, hrun⟩ :=
    memAlloc_eq limit hlinked (List.cons_ne_nil _ _) hlt hfuel
  -- The head is the first of the largest chunks.
  have hbefore : before = [] := by
    rcases before with _ | ⟨first, init⟩
    · rfl
    · obtain ⟨rfl, htail⟩ := List.cons.inj hsplit
      have hsmaller := hfirst head List.mem_cons_self
      have hlarger := hlargest block (by rw [htail]; simp)
      omega
  subst hbefore
  obtain ⟨rfl, hafter⟩ := List.cons.inj hsplit
  have hheaded : size.toNat + 16 ≤ headedSize size.toNat := by
    unfold headedSize
    omega
  have hfits := hworst head (argmax_of_split [] hmax hfirst) (by
    simp only [nodeSize]
    omega)
  rw [toNat_blockSize hsize] at hfits
  have hlisted : Linked heap [] ([] ++ head :: second :: rest) := hlinked
  obtain ⟨next, hcut, hnext⟩ := chunkNode_whole hwhole.symm hlt hfits
    (hlisted.putListPrev (lastAddr [])) rfl fun _ hother ↦ absurd hother List.not_mem_nil
  rw [if_pos (by omega), hcut, word_toNat] at hrun
  rintro ⟨chosen, hchosen, -, final, free', hfinal, hlist, hperm⟩
  rw [hrun] at hfinal
  obtain ⟨-, rfl⟩ := Prod.mk.inj (Option.some.inj hfinal)
  have hempty : next.headFree.toNat = 0 := hnext.list.path
  -- Something is left on the list, but its head is `NULL`.
  rcases free' with _ | ⟨listed, others⟩
  · have hlength := hperm.length_eq
    rw [List.length_append, List.length_erase_of_mem hchosen] at hlength
    simp at hlength
  · have hstart : next.headFree.toNat = listed.addr := hlist.path.1
    have hlisted : listed ∈ unusedTail chosen size ++ (head :: second :: rest).erase chosen :=
      hperm.mem_iff.mp List.mem_cons_self
    have hpos : 0 < listed.addr := by
      rcases List.mem_append.mp hlisted with htail | hkept
      · unfold unusedTail at htail
        split at htail
        · exact absurd htail List.not_mem_nil
        · rw [List.mem_singleton.mp htail]
          exact (hfree.node chosen hchosen).addr_pos.trans_le (Nat.le_add_right _ _)
      · exact (hfree.node listed (List.mem_of_mem_erase hkept)).addr_pos
    omega

/-- An allocation takes memory from the chosen chunk only, unless it uses up the head of a list with
other chunks or has no memory for the header of the rest. -/
theorem takesFromLargest_iff (hfree : WellFormed heap free) (haligned : Aligned free)
    (hsize : 0 ≤ size.toInt) (hfits : ∃ chunk ∈ free, size.toNat + nodeSize ≤ chunk.size)
    (hfuel : free.length < fuel) :
    TakesFromLargest limit fuel heap free size ↔
      ¬ UsesUpHead size free ∧ WorstFits limit size free := by
  constructor
  · intro htakes
    have hworst : WorstFits limit size free := by
      by_contra hout
      obtain ⟨_, _, _, next, _, hrun, _⟩ := htakes
      rw [memAlloc_outside (hfree.linked haligned) hsize hfuel (fun chunk hchunk hlarge ↦ ?_) hout]
        at hrun
      · cases hrun
      · have hle := headedSize_le hlarge (haligned chunk hchunk).2
        have hnode := hfree.node chunk hchunk
        have hlimit : chunk.addr + chunk.size < 2 ^ 64 := hnode.limit_lt
        have hpos := hnode.addr_pos
        exact ⟨hle.trans_lt hnode.size_lt, by omega, by omega⟩
    exact ⟨fun hhead ↦ not_takes_of_usesUpHead hfree haligned hsize hfuel hworst hhead htakes,
      hworst⟩
  · rintro ⟨hnot, hworst⟩
    obtain ⟨chunk, hchunk, hroom⟩ := hfits
    obtain ⟨before, after, block, rfl, hlargest, hfirst, hrun⟩ :=
      memAlloc_eq limit (hfree.linked haligned) (List.ne_nil_of_mem hchunk)
        (toNat_lt_of_nonneg hsize) hfuel
    have hlarge : size.toNat + 16 ≤ block.size := hroom.trans (hlargest chunk hchunk)
    have hle := headedSize_le hlarge (haligned block (by simp)).2
    rw [if_pos hlarge] at hrun
    have hfits := hworst block (argmax_of_split before hlargest hfirst) hlarge
    rw [toNat_blockSize hsize] at hfits
    have hlisted : WellFormed (heap.putListPrev (lastAddr before)) (before ++ block :: after) :=
      hfree.perm (List.Perm.refl _) ⟨hfree.list.path, hfree.list.size⟩
    refine ⟨block, by simp, hlargest, ?_⟩
    rw [word_toNat] at hrun
    rcases hle.lt_or_eq with hlt | hwhole
    · have htaken := takes_of_cut hlisted haligned hsize hlt hfits rfl
      rwa [word_toNat, ← hrun] at htaken
    · have hlast (hbefore : before = []) : after = [] := by
        subst hbefore
        rcases after with _ | ⟨second, rest⟩
        · rfl
        · have hhead : UsesUpHead size (block :: second :: rest) := by
            refine ⟨fun other hother ↦ hlargest other (List.mem_cons_of_mem _ hother), ?_⟩
            rw [toNat_blockSize hsize]
            exact hwhole.symm
          exact absurd hhead hnot
      have htaken := takes_of_whole hlisted haligned hsize hwhole hfits rfl hlast
      rwa [word_toNat, ← hrun] at htaken

/-- The second of two chunks is used up. -/
theorem second_chunk_taken :
    TakesFromLargest 0x12000 3 (heapOf ⟨0x8000, 16⟩ [⟨0x10000, 64⟩, ⟨0x11000, 120⟩])
      [⟨0x10000, 64⟩, ⟨0x11000, 120⟩] 100 :=
  (takesFromLargest_iff (by decide +kernel) (by decide) (by decide) (by decide)
    (by decide)).mpr (by decide +kernel)

/-- The first of two chunks is used up, and the second is lost. -/
theorem second_chunk_lost :
    WellFormed (heapOf ⟨0x8000, 16⟩ [⟨0x11000, 120⟩, ⟨0x10000, 64⟩])
        [⟨0x11000, 120⟩, ⟨0x10000, 64⟩] ∧
      Aligned [⟨0x11000, 120⟩, ⟨0x10000, 64⟩] ∧
      ¬ TakesFromLargest 0x12000 3 (heapOf ⟨0x8000, 16⟩ [⟨0x11000, 120⟩, ⟨0x10000, 64⟩])
        [⟨0x11000, 120⟩, ⟨0x10000, 64⟩] 100 :=
  ⟨by decide +kernel, by decide, not_takes_of_usesUpHead (by decide +kernel) (by decide)
    (by decide) (by decide) (by decide +kernel) (by decide)⟩

end Takes

end OS537.Mem
