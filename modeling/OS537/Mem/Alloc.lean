import Mathlib.Data.List.MinMax
import OS537.Mem.Moves
import OS537.Mem.WorstFit

/-!
# Allocation

`getWorstFit` returns the first of the largest chunks of the free list and remembers the one before
it. When the rest of that chunk is large enough for a header, `chunkNode` cuts the chunk in two: the
front becomes a live block and the rest takes the place of the chunk in the list.
-/

namespace OS537.Mem

open Blocks Bytes Chain Code

variable {region : Region} {heap : Heap} {live held free rest : List Block} {block : Block}
  {start limit : ℕ}

/-! ## The largest chunk -/

def Heap.putListPrev (heap : Heap) (addr : ℕ) : Heap :=
  { heap with listPrev := ptr addr }

/-- The nodes of the blocks. -/
def nodesOf (blocks : List Block) : List Ptr := blocks.map fun block ↦ ptr block.addr

theorem lastNode_nodesOf (blocks : List Block) :
    lastNode (nodesOf blocks) = ptr (lastAddr blocks) := by
  rw [lastNode, nodesOf, List.getLast?_map, lastAddr]
  cases blocks.getLast? with
  | none => rfl
  | some block => rfl

theorem sizeIn_ptr (hnode : IsNode block) (hsize : sizeAt heap block.addr = block.size) :
    sizeIn heap (ptr block.addr) = block.size := by
  have hload : load32 heap.mem block.addr = word block.size := by
    rw [← hsize, sizeAt, word_toNat]
  rw [sizeIn, toNat_ptr hnode.valid.2, hload, toInt_word hnode.size_lt]

theorem path_nodesOf (hnode : ∀ block ∈ free, IsNode block)
    (hpath : Path (nextAt heap) start (free.map Block.addr) 0) :
    Path (nextIn heap) (ptr start) (nodesOf free) 0 := by
  induction free generalizing start with
  | nil =>
    have hstart : start = 0 := hpath
    rw [hstart]
    exact ptr_zero
  | cons block rest ih =>
    obtain ⟨rfl, htail⟩ := hpath
    have hnext : nextIn heap (ptr block.addr) = ptr (nextAt heap block.addr) := by
      rw [nextIn, toNat_ptr (hnode block List.mem_cons_self).valid.2, nextAt, ptr_toNat]
    refine ⟨rfl, ?_⟩
    rw [hnext]
    exact ih (fun other hother ↦ hnode other (List.mem_cons_of_mem block hother)) htail

theorem Linked.isList (h : Linked heap held free) : IsList heap (nodesOf free) where
  path := by
    have hpath := path_nodesOf h.free_node h.list.path
    rwa [ptr_toNat] at hpath
  not_null := by
    intro node hmem
    obtain ⟨block, hblock, rfl⟩ := List.mem_map.mp hmem
    exact (h.free_node block hblock).valid.ne_zero

/-- The loop of `getWorstFit` over the blocks of the free list. -/
theorem Linked.worstFitLoop_run (h : Linked heap held free) (hne : free ≠ []) {fuel : ℕ}
    (hfuel : free.length < fuel) :
    ∃ before after block, free = before ++ block :: after ∧
      (∀ other ∈ free, other.size ≤ block.size) ∧ (∀ other ∈ before, other.size < block.size) ∧
      worstFitLoop fuel 0 heap.headFree 0 heap =
        some (ptr block.addr, heap.putListPrev (lastAddr before)) := by
  have hlength : (nodesOf free).length < fuel := by rwa [nodesOf, List.length_map]
  obtain ⟨first, second, worst, hmax, hrun⟩ :=
    Mem.worstFitLoop_run h.isList (List.map_eq_nil_iff.not.mpr hne) hlength
  obtain ⟨before, rest, rfl, rfl, hrest⟩ := List.map_eq_append_iff.mp hmax.split
  obtain ⟨block, after, rfl, rfl, rfl⟩ := List.map_eq_cons_iff.mp hrest
  have hsize (other : Block) (hother : other ∈ before ++ block :: after) :
      sizeIn heap (ptr other.addr) = other.size :=
    sizeIn_ptr (h.free_node other hother) (h.list.size other hother)
  have hblock : block ∈ before ++ block :: after :=
    List.mem_append_right _ List.mem_cons_self
  refine ⟨before, after, block, rfl, fun other hother ↦ ?_, fun other hother ↦ ?_, ?_⟩
  · have hle := hmax.largest _ (List.mem_map_of_mem hother)
    rw [hsize other hother, hsize block hblock] at hle
    exact Int.ofNat_le.mp hle
  · have hlt := hmax.first _ (List.mem_map_of_mem hother)
    rw [hsize other (List.mem_append_left _ hother), hsize block hblock] at hlt
    exact Int.ofNat_lt.mp hlt
  · rw [hrun, Heap.setPrev, Heap.putListPrev]
    congr 3
    exact lastNode_nodesOf before

theorem fits_iff {size limit : ℕ} (hsize : size < 2 ^ 31) (hlimit : limit < 2 ^ 31) :
    (word limit).signExtend 64 ≥ (word size).signExtend 64 + 16 ↔ size + 16 ≤ limit := by
  have hsum : ptr size + 16 = ptr (size + 16) := by
    apply BitVec.eq_of_toNat_eq
    simp [ptr]
  rw [signExtend_word hsize, signExtend_word hlimit, hsum, ge_iff_le, BitVec.le_def,
    toNat_ptr (by omega), toNat_ptr (by omega)]

/-- The first of the largest chunks, for a request of any sign. -/
theorem getWorstFit_run (h : Linked heap held free) (hne : free ≠ []) {fuel : ℕ} (size : Word)
    (hfuel : free.length < fuel) :
    ∃ before after block, free = before ++ block :: after ∧
      (∀ other ∈ free, other.size ≤ block.size) ∧ (∀ other ∈ before, other.size < block.size) ∧
      getWorstFit fuel size heap =
        some (if (word block.size).signExtend 64 ≥ size.signExtend 64 + 16 then ptr block.addr
          else 0, heap.putListPrev (lastAddr before)) := by
  obtain ⟨before, after, block, hsplit, hlargest, hfirst, hloop⟩ := h.worstFitLoop_run hne hfuel
  refine ⟨before, after, block, hsplit, hlargest, hfirst, ?_⟩
  have hmem : block ∈ free := by
    rw [hsplit]
    simp
  have hread : getSize (ptr block.addr) (heap.putListPrev (lastAddr before)) =
      some (word (sizeAt heap block.addr), heap.putListPrev (lastAddr before)) :=
    getSize_run (h.free_node block hmem).valid
  unfold getWorstFit
  rw [bind_run get_run, bind_run hloop, bind_run hread, h.list.size block hmem]
  split
  · rfl
  · rfl

theorem argmax_of_split (before : List Block) {after : List Block}
    (hlargest : ∀ other ∈ before ++ block :: after, other.size ≤ block.size)
    (hfirst : ∀ other ∈ before, other.size < block.size) :
    (before ++ block :: after).argmax Block.size = some block := by
  rw [List.argmax_eq_some_iff]
  refine ⟨by simp, hlargest, fun other _ hle ↦ ?_⟩
  have hblock : block ∉ before := fun hmem ↦ (hfirst block hmem).ne rfl
  have hother : other ∉ before := fun hmem ↦ (hfirst other hmem).not_ge hle
  rw [List.idxOf_append_of_notMem hblock, List.idxOf_append_of_notMem hother,
    List.idxOf_cons_self]
  omega

/-! ## Cutting a chunk -/

/-- The memory has room for what `chunkNode` stores behind a block of `headed` bytes. -/
def RestFits (limit headed : ℕ) (chunk : Block) : Prop :=
  chunk.addr + headed + (if chunk.size = headed then 4 else nodeSize) ≤ limit

instance (limit headed : ℕ) (chunk : Block) : Decidable (RestFits limit headed chunk) :=
  inferInstanceAs (Decidable (_ ≤ _))

theorem restFits_of_room {headed : ℕ} (hroom : headed + 16 ≤ block.size)
    (hlimit : block.limit ≤ limit) : RestFits limit headed block := by
  unfold Block.limit at hlimit
  rw [RestFits, if_neg (by omega)]
  simp only [nodeSize]
  omega

theorem word_ne_zero {value : ℕ} (hpos : 0 < value) (h : value < 2 ^ 32) : word value ≠ 0 := by
  intro hzero
  have htoNat := toNat_word h
  rw [hzero] at htoNat
  exact hpos.ne htoNat

section Link

variable {before after : List Block} {addr restAddr restSize : ℕ}

/-- The heap after `chunkLink`, with `size` bytes left at `rest` of the chunk behind `before`. -/
def Heap.linkRest (heap : Heap) (before : List Block) (rest size next : ℕ) : Heap :=
  if size = 0 then (heap.putSize rest size).putLink before (if before = [] then 0 else next)
  else ((heap.putSize rest size).putLink before rest).putNext rest next

theorem Linked.chunkLink_run (h : Linked heap held (before ++ block :: after))
    (hprev : heap.listPrev = ptr (lastAddr before)) (hrest : Valid restAddr)
    (hlt : restSize < 2 ^ 32) (next : ℕ) :
    chunkLink (ptr block.addr) (ptr restAddr) (ptr next) (heap.putSize restAddr restSize) =
      some ((), heap.linkRest before restAddr restSize next) := by
  have hblock := (h.free_node block (by simp)).valid
  have hhead := h.headFree_eq_iff
  have hsize : sizeAt (heap.putSize restAddr restSize) restAddr = restSize :=
    sizeAt_putSize_same hlt
  have hread : (heap.putSize restAddr restSize).listPrev = ptr (lastAddr before) := hprev
  unfold chunkLink Heap.linkRest
  rw [bind_run get_run, bind_run (getSize_run hrest), hsize, hread]
  by_cases hzero : restSize = 0
  · subst hzero
    rw [if_pos rfl]
    rcases List.eq_nil_or_concat' before with rfl | ⟨init, last, rfl⟩
    · rw [if_neg fun hboth ↦ hboth.2 rfl, bind_run (getSize_run hrest), hsize,
        if_pos ⟨rfl, rfl⟩]
      change (setHeadFree (ptr 0) >>= _) _ = _
      rw [bind_run (setHeadFree_run 0)]
      dsimp only
      rw [bind_run get_run, if_neg fun heq ↦ hblock.ne_zero heq.symm]
      rfl
    · have hlast := (h.free_node last (by simp)).valid
      rw [lastAddr_concat, if_pos ⟨rfl, hlast.ne_zero⟩, bind_run (setNext_run hlast next)]
      dsimp only
      rw [bind_run get_run, putNext_headFree, putSize_headFree, if_neg (by simp [hhead]),
        putLink_concat, if_neg (by simp)]
      rfl
  · have hnonzero (prop : Prop) : ¬ (word restSize = 0 ∧ prop) := fun hboth ↦
      word_ne_zero (Nat.pos_of_ne_zero hzero) hlt hboth.1
    rw [if_neg hzero, if_neg (hnonzero _), bind_run (getSize_run hrest), hsize,
      if_neg (hnonzero _)]
    dsimp only
    rcases List.eq_nil_or_concat' before with rfl | ⟨init, last, rfl⟩
    · have hnull : ptr (lastAddr []) = 0 := rfl
      rw [if_neg (not_not.mpr hnull), bind_run (setNext_run hrest next), bind_run get_run,
        putNext_headFree, putSize_headFree, if_pos (hhead.mpr rfl)]
      rfl
    · have hlast := (h.free_node last (by simp)).valid
      rw [lastAddr_concat, if_pos hlast.ne_zero, bind_run (setNext_run hlast restAddr),
        bind_run (setNext_run hrest next), bind_run get_run, putNext_headFree, putNext_headFree,
        putSize_headFree, if_neg (by simp [hhead]), putLink_concat]
      rfl

theorem inMemory_rest {size headed : ℕ} (hrest : Valid (addr + headed)) (hsize : size < 2 ^ 32)
    (hheaded : headed < 2 ^ 31) :
    inMemory limit (ptr (addr + headed)) (if word size = word headed then 4 else nodeSize) heap =
      if RestFits limit headed ⟨addr, size⟩ then some ((), heap) else none := by
  have hsame : word size = word headed ↔ size = headed := by
    refine ⟨fun heq ↦ ?_, fun heq ↦ heq ▸ rfl⟩
    rw [← toNat_word hsize, heq, toNat_word (by omega)]
  simp only [inMemory, RestFits, toNat_ptr hrest.2, hsame]
  rfl

/-- `chunkNode` around the assignments to the list. -/
theorem Linked.chunkNode_eq {size : Word} {headed : ℕ}
    (h : Linked heap held (before ++ block :: after))
    (hprev : heap.listPrev = ptr (lastAddr before)) (hsize : blockSize size = word headed)
    (hheaded : headed < 2 ^ 31) (hrest : Valid (block.addr + headed))
    (hfits : RestFits limit headed block) (hvalue : word block.size - word headed = word restSize)
    (hlt : restSize < 2 ^ 32) :
    chunkNode limit (ptr block.addr) size heap = some (ptr (block.addr + 16),
      ((heap.linkRest before (block.addr + headed) restSize (nextAt heap block.addr)).putSize
        block.addr headed).putNext block.addr 0) := by
  have hblock := h.free_node block (by simp)
  have hblockLt := hblock.size_lt
  have haddr := hblock.valid
  have hresult : ptr block.addr + 16 = ptr (block.addr + 16) := by
    apply BitVec.eq_of_toNat_eq
    simp [ptr]
  unfold chunkNode
  rw [hsize, bind_run (getSize_run haddr), bind_run (getNext_run haddr),
    h.list.size block (by simp)]
  rw [addSizeToNode_ptr hheaded,
    bind_run ((inMemory_rest hrest (by omega) hheaded).trans (if_pos hfits)), hvalue,
    bind_run (setSize_run hrest _), bind_run (h.chunkLink_run hprev hrest hlt _),
    bind_run (setSize_run haddr _), ← ptr_zero, bind_run (setNext_run haddr 0), hresult]
  rfl

/-- Without room for the header of the rest the process dies. -/
theorem chunkNode_outside {size : Word} {headed : ℕ} (haddr : Valid addr)
    (hsize : blockSize size = word headed) (hheaded : headed < 2 ^ 31)
    (hrest : Valid (addr + headed)) (hlt : sizeAt heap addr < 2 ^ 32)
    (hfits : ¬ RestFits limit headed ⟨addr, sizeAt heap addr⟩) :
    chunkNode limit (ptr addr) size heap = none := by
  unfold chunkNode
  rw [hsize, bind_run (getSize_run haddr), bind_run (getNext_run haddr), addSizeToNode_ptr hheaded]
  exact bind_run_none ((inMemory_rest hrest hlt hheaded).trans (if_neg hfits))

end Link

section Cut

variable {before after : List Block} {size : ℕ}
  (hrest : ∀ other ∈ held ++ before ++ after,
    HeadersApart (block.addr + headedSize size) other.addr)

theorem sixteen_le_headedSize (size : ℕ) : 16 ≤ headedSize size :=
  Nat.le_add_left _ _

theorem eight_dvd_headedSize (size : ℕ) : 8 ∣ headedSize size := by
  unfold headedSize
  omega

include hrest

/-- The headers after the cut: the new block, the rest of the chunk, and all others. -/
theorem Linked.cut_nodes (h : Linked heap held (before ++ block :: after))
    (hlt : headedSize size < block.size) :
    Nodes (⟨block.addr, headedSize size⟩ ::
      ⟨block.addr + headedSize size, block.size - headedSize size⟩ ::
        (held ++ before ++ after)) := by
  have hnodes := h.hold_nodes
  rw [List.cons_append, ← List.append_assoc] at hnodes
  exact nodes_cut hnodes (sixteen_le_headedSize size) hlt.le hrest

/-- The headers after the cut, from the heap in which the list has the rest of the chunk. -/
theorem Linked.of_cut {linked : Heap} (h : Linked heap held (before ++ block :: after))
    (hlt : headedSize size < block.size)
    (hpath : Path (nextAt linked) linked.headFree.toNat
      ((before ++ ⟨block.addr + headedSize size, block.size - headedSize size⟩ :: after).map
        Block.addr) 0)
    (hcut : sizeAt linked (block.addr + headedSize size) = block.size - headedSize size)
    (hother : ∀ other ∈ held ++ before ++ after,
      sizeAt linked other.addr = sizeAt heap other.addr) :
    Linked ((linked.putSize block.addr (headedSize size)).putNext block.addr 0)
      (⟨block.addr, headedSize size⟩ :: held)
      (before ++ ⟨block.addr + headedSize size, block.size - headedSize size⟩ :: after) := by
  have hnodes := h.cut_nodes hrest hlt
  have hapart := hnodes.head_apart
  have hblockLt := (h.free_node block (by simp)).size_lt
  let final := (linked.putSize block.addr (headedSize size)).putNext block.addr 0
  have hsame (other : Block) (hmem : other ∈
      ⟨block.addr + headedSize size, block.size - headedSize size⟩ :: (held ++ before ++ after)) :
      SameHeader final linked other.addr :=
    (sameHeader_putNext (hapart other hmem) _).trans (sameHeader_putSize (hapart other hmem) _)
  have hkept (other : Block) (hmem : other ∈ held ++ before ++ after) :
      sizeAt final other.addr = sizeAt heap other.addr :=
    (hsame other (List.mem_cons_of_mem _ hmem)).size.trans (hother other hmem)
  refine ⟨?_, ⟨?_, ?_⟩, ?_⟩
  · rw [← List.append_assoc, nodes_middle]
    exact hnodes.perm (List.Perm.swap _ _ _)
  · apply hpath.congr
    intro addr hmem
    obtain ⟨other, hlisted, rfl⟩ := List.mem_map.mp hmem
    rw [List.mem_append, List.mem_cons] at hlisted
    apply (hsame other _).next
    rcases hlisted with hbefore | rfl | hafter
    · simp [hbefore]
    · simp
    · simp [hafter]
  · intro other hmem
    rw [List.mem_append, List.mem_cons] at hmem
    rcases hmem with hbefore | rfl | hafter
    · rw [hkept other (by simp [hbefore])]
      exact h.list.size other (by simp [hbefore])
    · exact (hsame _ List.mem_cons_self).size.trans hcut
    · rw [hkept other (by simp [hafter])]
      exact h.list.size other (by simp [hafter])
  · intro other hmem
    rcases List.mem_cons.mp hmem with rfl | hheld
    · calc
        sizeAt final block.addr = sizeAt (linked.putSize block.addr (headedSize size)) block.addr :=
          sizeAt_putNext (Or.inl rfl) 0
        _ = headedSize size := sizeAt_putSize_same (by omega)
    · rw [hkept other (by simp [hheld])]
      exact h.held_size other hheld

/-- `chunkNode` cuts the chunk that `getWorstFit` has chosen. -/
theorem chunkNode_run (h : Linked heap held (before ++ block :: after))
    (hsize : size < 2 ^ 31) (hlt : headedSize size < block.size)
    (hfits : RestFits limit (headedSize size) block)
    (hprev : heap.listPrev = ptr (lastAddr before)) :
    ∃ next, chunkNode limit (ptr block.addr) (word size) heap = some (ptr (block.addr + 16), next) ∧
      Linked next (⟨block.addr, headedSize size⟩ :: held)
        (before ++ ⟨block.addr + headedSize size, block.size - headedSize size⟩ :: after) := by
  have hcut : Valid (block.addr + headedSize size) :=
    ((h.cut_nodes hrest hlt).tail.each _ List.mem_cons_self).valid
  have hblockLt := (h.free_node block (by simp)).size_lt
  have hrun := h.chunkNode_eq hprev (blockSize_word hsize) (by omega) hcut hfits
    (word_sub hlt.le (by omega)) (by omega)
  refine ⟨_, hrun, ?_⟩
  rw [Heap.linkRest, if_neg (by omega)]
  -- The header of the rest overlaps no other.
  have hsized : Linked (heap.putSize (block.addr + headedSize size)
      (block.size - headedSize size)) held (before ++ block :: after) := by
    refine h.congr (fun other hother ↦ sameHeader_putSize ?_ _) rfl
    by_cases heq : other = block
    · exact Or.inr (heq ▸ Nat.add_le_add_left (sixteen_le_headedSize size) _)
    · apply hrest
      simp only [List.mem_append, List.mem_cons] at hother ⊢
      tauto
  have hbefore : ∀ last ∈ before, HeadersApart (block.addr + headedSize size) last.addr :=
    fun last hlast ↦ hrest last (by simp [hlast])
  apply h.of_cut hrest hlt
  · rw [List.map_append]
    refine path_append.mpr ⟨_, (hsized.path_putLink hcut.2).congr ?_, rfl, ?_⟩
    · intro addr hmem
      obtain ⟨other, hother, rfl⟩ := List.mem_map.mp hmem
      exact nextAt_putNext_other (hbefore other hother) _
    · have hnext : nextAt heap block.addr < 2 ^ 64 := BitVec.isLt _
      dsimp only
      rw [nextAt_putNext_same hnext]
      apply h.list.path_after.congr
      intro addr hmem
      obtain ⟨other, hother, rfl⟩ := List.mem_map.mp hmem
      have hother' := hrest other (by simp [hother])
      rw [nextAt_putNext_other hother', nextAt_putLink, nextAt_putSize (Or.inr hother')]
      exact fun last hlast ↦ hsized.apart_before hlast (by simp [hother])
  · rw [sizeAt_putNext (Or.inl rfl), sizeAt_putLink, sizeAt_putSize_same (by omega)]
    exact fun last hlast ↦ Or.inr (hbefore last hlast).symm
  · intro other hother
    have hother' := hrest other hother
    rw [sizeAt_putNext (Or.inr hother'), hsized.sizeAt_putLink, sizeAt_putSize_other hother']
    simp only [List.mem_append, List.mem_cons] at hother ⊢
    tauto

end Cut

/-! ## Whole calls -/

theorem Linked.putListPrev (h : Linked heap held free) (addr : ℕ) :
    Linked (heap.putListPrev addr) held free :=
  ⟨h.nodes, ⟨h.list.path, h.list.size⟩, h.held_size⟩

/-- `Mem_Alloc` goes to the first of the largest chunks, and returns `NULL` if that is too small. -/
theorem memAlloc_eq (limit : ℕ) (h : Linked heap held free) (hne : free ≠ []) {size fuel : ℕ}
    (hsize : size < 2 ^ 31) (hfuel : free.length < fuel) :
    ∃ before after block, free = before ++ block :: after ∧
      (∀ other ∈ free, other.size ≤ block.size) ∧ (∀ other ∈ before, other.size < block.size) ∧
      memAlloc limit fuel (word size) heap =
        if size + 16 ≤ block.size then
          chunkNode limit (ptr block.addr) (word size) (heap.putListPrev (lastAddr before))
        else some (0, { heap.putListPrev (lastAddr before) with mError := eNoSpace }) := by
  obtain ⟨before, after, block, hsplit, hlargest, hfirst, hworst⟩ :=
    getWorstFit_run h hne (word size) hfuel
  have hmem : block ∈ free := by
    rw [hsplit]
    simp
  have hfits := fits_iff hsize (h.free_node block hmem).size_lt
  refine ⟨before, after, block, hsplit, hlargest, hfirst, ?_⟩
  unfold memAlloc
  rw [bind_run hworst]
  simp only [hfits]
  by_cases hlarge : size + 16 ≤ block.size
  · rw [if_pos hlarge, if_pos hlarge, if_neg (h.free_node block hmem).valid.ne_zero]
  · rw [if_neg hlarge, if_neg hlarge, if_pos rfl]
    rfl

/-- The arena after the cut: the new block, the rest of the chunk, and all others. -/
theorem Sound.cut_arena {before after : List Block} {size : ℕ}
    (h : Sound region heap live (before ++ block :: after))
    (hrest : headedSize size + 16 ≤ block.size) :
    Arena region.toBlock 16 8 (⟨block.addr, headedSize size⟩ ::
      ⟨block.addr + headedSize size, block.size - headedSize size⟩ ::
        (live ++ before ++ after)) := by
  have harena := h.arena
  rw [← List.append_assoc, arena_middle] at harena
  exact harena.cut (sixteen_le_headedSize size) hrest (eight_dvd_headedSize size)

theorem Sound.length_le (h : Sound region heap live free) : free.length ≤ region.size := by
  have hlength := h.arena.length_le (by decide)
  rw [List.length_append] at hlength
  omega

/-- `Mem_Alloc` returns `NULL`, or it cuts the largest chunk. -/
theorem memAlloc_run (h : Sound region heap live free) (hne : free ≠ []) {size fuel : ℕ}
    (hsize : size < 2 ^ 31) (hfuel : region.size < fuel) (hlimit : region.toBlock.limit ≤ limit)
    (hrest : ∀ block ∈ free, (∀ other ∈ free, other.size ≤ block.size) →
      size + 16 ≤ block.size → headedSize size + 16 ≤ block.size) :
    (∃ next, memAlloc limit fuel (word size) heap = some (0, next) ∧ Sound region next live free) ∨
      ∃ next addr free', memAlloc limit fuel (word size) heap = some (ptr (addr + 16), next) ∧
        Sound region next (⟨addr, headedSize size⟩ :: live) free' := by
  obtain ⟨before, after, block, rfl, hlargest, -, hrun⟩ :=
    memAlloc_eq limit h.linked hne hsize (h.length_le.trans_lt hfuel)
  have hmem : block ∈ before ++ block :: after := by simp
  by_cases hlarge : size + 16 ≤ block.size
  · right
    have hroom := hrest block hmem hlargest hlarge
    have harena := h.cut_arena hroom
    have hlt : headedSize size < block.size := by omega
    have hblock : block.limit ≤ limit := (h.arena.fits block (by simp)).high.trans hlimit
    obtain ⟨next, hchunk, hnext⟩ := chunkNode_run (nodes_of_arena harena).tail.head_apart
      (h.linked.putListPrev (lastAddr before)) hsize hlt (restFits_of_room hroom hblock) rfl
    rw [if_pos hlarge, hchunk] at hrun
    refine ⟨next, block.addr, _, hrun, ?_, hnext.list, hnext.held_size⟩
    rw [← List.append_assoc, arena_middle]
    exact harena.perm (List.Perm.swap _ _ _)
  · left
    rw [if_neg hlarge] at hrun
    exact ⟨_, hrun, h.arena, ⟨h.list.path, h.list.size⟩, h.live_size⟩

end OS537.Mem
