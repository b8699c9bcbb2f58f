import OS537.XV6.Reach

/-!
# What a call of `bmap` adds

`Extends` compares the blocks that an inode reaches after a call of `bmap` with those it reached
before and those the call allocated. Two things keep them apart, and both can be read off the state
before the call. `strays` are blocks that the inode reaches afterwards although the call did not
allocate them, and a call `Loses` a block that it allocates and does not record.
-/

namespace OS537.XV6

open Bytes

/-- The blocks that a call of `bmap` makes reachable without allocating them: the 24 bits that an
extent keeps of a longer address, and the entries that a new indirect block comes with. -/
def strays (disk : Disk) (node : Dinode) (bn : Word) : List Word :=
  match disk.nextFree with
  | none => []
  | some free =>
    if node.type = .extent then
      if node.addrs.slotOf bn = none ∧ node.addrs.growing bn free = none ∧ 2 ^ 24 ≤ free.toNat then
        [extentBase ((free <<< 8) + 1)]
      else []
    else if 12 ≤ bn.toNat ∧ node.addrs 12 = 0 then disk.entryBlocks free
    else []

/-- The inode cannot record the new block `free`: it goes to an extent whose length is 255, or has
an address of more than 24 bits, or is block 0, which a pointer takes for no block. -/
def unrecorded (node : Dinode) (bn free : Word) : Bool :=
  if node.type = .extent then
    match node.addrs.growing bn free with
    | some k => extentLength (node.addrs.packed k) == 255
    | none => 2 ^ 24 ≤ free.toNat
  else free == 0

/-- A call of `bmap` allocates a block and loses it. -/
def Loses (disk : Disk) (node : Dinode) (bn : Word) : Prop :=
  lookup disk node bn = none ∧ ∃ free ∈ disk.nextFree, unrecorded node bn free = true

instance (disk : Disk) (node : Dinode) (bn : Word) : Decidable (Loses disk node bn) :=
  decidable_of_iff (lookup disk node bn = none ∧ disk.nextFree.any (unrecorded node bn) = true)
    (and_congr_right fun _ ↦ Option.any_eq_true _ _)

/-- What a call of `bmap` has done: the blocks `new` are allocated, and the only contents that may
change are those of the indirect block, by one entry that was clear. -/
structure Extends (disk : Disk) (node : Dinode) (bn : Word) (disk' : Disk) (node' : Dinode)
    (addr : Word) (new : List Word) : Prop where
  takes : Takes disk disk' new
  node_eq : node' = { node with addrs := node'.addrs }
  subperm : (reach disk' node').Subperm (new ++ (strays disk node bn ++ reach disk node))
  perm : ¬ Loses disk node bn →
    (reach disk' node').Perm (new ++ (strays disk node bn ++ reach disk node))
  block : disk'.block = disk.block ∨ ∃ j < 128, ∃ entry ∈ new,
    node.type ≠ .extent ∧ disk.entry (node'.addrs 12) j = 0 ∧
      (node.addrs 12 = 0 ∧ node'.addrs 12 ∈ new ∨
        node.addrs 12 ≠ 0 ∧ node'.addrs 12 = node.addrs 12) ∧
      disk'.block = (disk.setEntry (node'.addrs 12) j entry).block
  last : node.type = .extent ∨ node.addrs 12 ≠ 0 → node'.addrs 12 = node.addrs 12
  data : node.type ≠ .extent →
    addr = 0 ∨ addr ∈ node'.addrs.directBlocks ++ disk'.entryBlocks (node'.addrs 12)
  first_mem : lookup disk node bn = none → ∀ free, disk.NextFree free → free ∈ new
  addr_mem : addr ∈ new ∨ addr ∈ strays disk node bn ∨ addr ∈ reach disk node

/-! ## Blocks that are there -/

section Lookup

variable {disk : Disk} {node : Dinode} {addrs : Addrs} {bn addr : Word}

theorem covers_iff {k : Fin 6} : addrs.covers bn k = true ↔
    (addrs.start k).toNat ≤ bn.toNat ∧
      bn.toNat < (addrs.start k).toNat + (extentLength (addrs.packed k)).toNat ∧
      (addrs.start k).toNat + (extentLength (addrs.packed k)).toNat < 2 ^ 32 := by
  have hstart := (addrs.start k).isLt
  have hlength := extentLength_lt (addrs.packed k)
  simp only [Addrs.covers, Bool.and_eq_true, decide_eq_true_eq, BitVec.le_def, BitVec.lt_def,
    BitVec.toNat_add]
  omega

theorem addrIn_mem_extentBlocks {k : Fin 6} (h : addrs.covers bn k = true) :
    addrs.addrIn bn k ∈ addrs.extentBlocks k := by
  obtain ⟨hle, hlt, -⟩ := covers_iff.mp h
  have hsub : (bn - addrs.start k).toNat = bn.toNat - (addrs.start k).toNat :=
    BitVec.toNat_sub_of_le hle
  refine List.mem_map.mpr ⟨(bn - addrs.start k).toNat, List.mem_range.mpr (by omega), ?_⟩
  rw [BitVec.ofNat_toNat, BitVec.setWidth_eq, Addrs.addrIn]

theorem lookup_mem_data (htype : node.type ≠ .extent) (h : lookup disk node bn = some addr) :
    addr ∈ node.addrs.directBlocks ++ disk.entryBlocks (node.addrs 12) := by
  rw [List.mem_append]
  obtain ⟨i, -, hset, rfl⟩ | ⟨j, hj, -, -, hset, rfl⟩ := lookup_pointer_cases htype h
  · exact .inl (mem_directBlocks i hset)
  · exact .inr (mem_entryBlocks hj hset)

theorem lookup_mem_reach (h : lookup disk node bn = some addr) : addr ∈ reach disk node := by
  by_cases htype : node.type = .extent
  · rw [lookup_extent htype, Addrs.addrOf, Option.map_eq_some_iff] at h
    obtain ⟨k, hslot, rfl⟩ := h
    rw [reach_extent htype]
    have hcovers := List.find?_some hslot
    exact List.mem_flatMap.mpr ⟨k, List.mem_finRange k, addrIn_mem_extentBlocks hcovers⟩
  · rw [reach_pointer htype, Disk.pointees, List.mem_append]
    obtain ⟨i, -, hset, rfl⟩ | ⟨j, hj, -, hindirect, hset, rfl⟩ := lookup_pointer_cases htype h
    · exact .inl (mem_directBlocks i hset)
    · rw [Disk.indirectBlocks, if_neg hindirect, List.mem_append]
      exact .inr (.inl (mem_entryBlocks hj hset))

theorem strays_of_lookup (h : lookup disk node bn = some addr) : strays disk node bn = [] := by
  unfold strays
  cases disk.nextFree with
  | none => rfl
  | some free =>
    by_cases htype : node.type = .extent
    · rw [lookup_extent htype, Addrs.addrOf, Option.map_eq_some_iff] at h
      obtain ⟨k, hslot, -⟩ := h
      simp [htype, hslot]
    · have hset : ¬ (12 ≤ bn.toNat ∧ node.addrs 12 = 0) := by
        rintro ⟨hle, hclear⟩
        obtain ⟨i, hbn, -⟩ | ⟨j, -, -, hindirect, -⟩ := lookup_pointer_cases htype h
        · omega
        · exact hindirect hclear
      simp only [htype, if_false, if_neg hset]

theorem Extends.of_lookup (h : lookup disk node bn = some addr) :
    Extends disk node bn disk node addr [] where
  takes := .nil disk
  node_eq := rfl
  subperm := by rw [strays_of_lookup h]; exact .refl _
  perm := fun _ ↦ by rw [strays_of_lookup h]; exact .rfl
  block := .inl rfl
  last := fun _ ↦ rfl
  data := fun htype ↦ .inr (lookup_mem_data htype h)
  first_mem := by simp [h]
  addr_mem := .inr (.inr (lookup_mem_reach h))

end Lookup

/-! ## New blocks -/

section New

variable {disk disk' : Disk} {node : Dinode} {addrs' : Addrs} {bn addr : Word}

theorem strays_extent (htype : node.type = .extent) (hslot : node.addrs.slotOf bn = none)
    (hfree : disk.NextFree addr) :
    strays disk node bn =
      if node.addrs.growing bn addr = none ∧ 2 ^ 24 ≤ addr.toNat then
        [extentBase ((addr <<< 8) + 1)]
      else [] := by
  simp [strays, Disk.nextFree_eq_some_iff.mpr hfree, htype, hslot]

theorem bmapExtent_extends (htype : node.type = .extent) (hlookup : lookup disk node bn = none)
    (h : bmapExtent disk node.addrs bn = some (addr, addrs', disk')) :
    Extends disk node bn disk' { node with addrs := addrs' } addr [addr] := by
  rw [lookup_extent htype, Addrs.addrOf, Option.map_eq_none_iff] at hlookup
  obtain ⟨k, hslot, -⟩ | ⟨-, hfree, rfl, hrecord⟩ := bmapExtent_cases h
  · rw [hlookup] at hslot
    contradiction
  have hstrays := strays_extent htype hlookup hfree
  have hnext := Disk.nextFree_eq_some_iff.mpr hfree
  have hparts : (reach (disk.mark addr) { node with addrs := addrs' }).Subperm
        ([addr] ++ (strays disk node bn ++ reach disk node)) ∧
      (¬ Loses disk node bn → (reach (disk.mark addr) { node with addrs := addrs' }).Perm
        ([addr] ++ (strays disk node bn ++ reach disk node))) := by
    have hafter : reach (disk.mark addr) { node with addrs := addrs' } = addrs'.extents :=
      if_pos htype
    rw [hafter, reach_extent htype, hstrays]
    obtain ⟨k, hgrowing, rfl⟩ | ⟨k, hgrowing, hfill, rfl⟩ := hrecord
    · simp only [hgrowing, reduceCtorEq, false_and, if_false, List.nil_append]
      by_cases hfull : (extentLength (node.addrs.packed k)).toNat = 255
      · refine ⟨(Addrs.grow_extents_full hfull).trans (List.sublist_append_right _ _).subperm, ?_⟩
        intro hkeeps
        refine absurd ⟨by simp [lookup_extent htype, Addrs.addrOf, hlookup], addr, hnext, ?_⟩ hkeeps
        have hlength : extentLength (node.addrs.packed k) = 255 := BitVec.eq_of_toNat_eq hfull
        simp only [unrecorded, htype, if_true, hgrowing, hlength, beq_self_eq_true]
      · have hperm := Addrs.grow_extents_perm hgrowing hfull
        exact ⟨hperm.subperm, fun _ ↦ hperm⟩
    · have hperm := Addrs.fill_extents_perm addr bn hfill
      by_cases hwide : 2 ^ 24 ≤ addr.toNat
      · simp only [hgrowing, hwide, and_self, if_true]
        refine ⟨hperm.subperm.trans (List.sublist_append_right _ _).subperm, fun hkeeps ↦ ?_⟩
        refine absurd ⟨by simp [lookup_extent htype, Addrs.addrOf, hlookup], addr, hnext, ?_⟩ hkeeps
        simp only [unrecorded, htype, if_true, hgrowing, hwide, decide_true]
      · rw [extentBase_single (by omega)] at hperm
        simp only [hwide, and_false, if_false, List.nil_append]
        exact ⟨hperm.subperm, fun _ ↦ hperm⟩
  have hlast : addrs' 12 = node.addrs 12 := by
    obtain ⟨k, -, rfl⟩ | ⟨k, -, -, rfl⟩ := hrecord
    · exact Addrs.grow_last node.addrs k
    · exact Addrs.fill_last node.addrs k addr bn
  exact ⟨.mark hfree, rfl, hparts.1, hparts.2, .inl rfl, fun _ ↦ hlast, fun h ↦ absurd htype h,
    fun _ free hnext ↦ List.mem_singleton.mpr (hnext.unique hfree),
    .inl (List.mem_singleton_self addr)⟩

/-- A lost block is not reached, unless it was in use before. -/
theorem bmapExtent_loses (htype : node.type = .extent) (hloses : Loses disk node bn)
    (hused : ∀ b ∈ reach disk node, disk.used b = true)
    (h : bmapExtent disk node.addrs bn = some (addr, addrs', disk')) :
    disk.NextFree addr ∧ addr ∉ addrs'.extents := by
  obtain ⟨hlookup, free, hnext, hunrecorded⟩ := hloses
  rw [lookup_extent htype, Addrs.addrOf, Option.map_eq_none_iff] at hlookup
  obtain ⟨k, hslot, -⟩ | ⟨-, hfree, -, hrecord⟩ := bmapExtent_cases h
  · rw [hlookup] at hslot
    contradiction
  cases hfree.unique (Disk.nextFree_eq_some_iff.mp hnext)
  refine ⟨hfree, ?_⟩
  have hnotReached : addr ∉ node.addrs.extents := by
    intro hmem
    have htrue := hused addr (by rwa [reach_extent htype])
    rw [hfree.clear] at htrue
    contradiction
  unfold unrecorded at hunrecorded
  obtain ⟨k, hgrowing, rfl⟩ | ⟨k, hgrowing, hfill, rfl⟩ := hrecord
  · simp only [htype, if_true, hgrowing, beq_iff_eq] at hunrecorded
    have hfull : (extentLength (node.addrs.packed k)).toNat = 255 := by
      rw [hunrecorded]
      rfl
    exact fun hmem ↦ hnotReached ((Addrs.grow_extents_full hfull).subset hmem)
  · simp only [htype, if_true, hgrowing, decide_eq_true_eq] at hunrecorded
    rw [(Addrs.fill_extents_perm addr bn hfill).mem_iff, List.singleton_append, List.mem_cons,
      not_or]
    refine ⟨fun heq ↦ ?_, hnotReached⟩
    have hlt := extentBase_lt ((addr <<< 8) + 1)
    rw [← heq] at hlt
    omega

theorem Takes.setEntry {new : List Word} (h : Takes disk disk' new) (b : Word) (j : ℕ)
    (entry : Word) : Takes disk (disk'.setEntry b j entry) new :=
  ⟨h.nodup, h.clear, h.used_iff, h.dinode, h.size⟩

/-- A pointer is lost only if it is 0. -/
theorem ne_zero_of_not_loses (htype : node.type ≠ .extent) (hlookup : lookup disk node bn = none)
    (hfree : disk.NextFree addr) (hkeeps : ¬ Loses disk node bn) : addr ≠ 0 := by
  rintro rfl
  refine hkeeps ⟨hlookup, 0, Disk.nextFree_eq_some_iff.mpr hfree, ?_⟩
  rw [unrecorded, if_neg htype, beq_self_eq_true]

theorem strays_pointer (htype : node.type ≠ .extent) (hfree : disk.NextFree addr) :
    strays disk node bn =
      if 12 ≤ bn.toNat ∧ node.addrs 12 = 0 then disk.entryBlocks addr else [] := by
  simp only [strays, Disk.nextFree_eq_some_iff.mpr hfree, if_neg htype]

/-- One new pointer, where there is no stray. -/
theorem pointer_parts {after : List Word} (htype : node.type ≠ .extent)
    (hlookup : lookup disk node bn = none) (hfree : disk.NextFree addr)
    (hlow : ¬ (12 ≤ bn.toNat ∧ node.addrs 12 = 0))
    (hafter : after.Perm (pointerBlock addr ++ reach disk node)) :
    after.Subperm ([addr] ++ (strays disk node bn ++ reach disk node)) ∧
      (¬ Loses disk node bn →
        after.Perm ([addr] ++ (strays disk node bn ++ reach disk node))) := by
  rw [strays_pointer htype hfree, if_neg hlow, List.nil_append]
  constructor
  · exact hafter.subperm.trans ((List.subperm_append_right _).mpr (pointerBlock_subperm addr))
  · intro hkeeps
    rwa [← pointerBlock_of_ne (ne_zero_of_not_loses htype hlookup hfree hkeeps)]

/-- A new direct pointer. -/
theorem direct_extends (htype : node.type ≠ .extent) {i : Fin 12} (hbn : bn.toNat = i)
    (hclear : node.addrs i.castSucc = 0) (hfree : disk.NextFree addr) :
    Extends disk node bn (disk.mark addr)
      { node with addrs := Function.update node.addrs i.castSucc addr } addr [addr] := by
  have hlookup : lookup disk node bn = none := by
    rw [lookup_direct htype hbn, if_pos hclear]
  have hlast : Function.update node.addrs i.castSucc addr 12 = node.addrs 12 := by
    refine Function.update_of_ne (fun h ↦ ?_) _ _
    have hval : 12 = (i : ℕ) := congrArg Fin.val h
    omega
  have hafter : (disk.pointees (Function.update node.addrs i.castSucc addr)).Perm
      (pointerBlock addr ++ reach disk node) := by
    rw [reach_pointer htype, Disk.pointees, Disk.pointees, hlast, ← List.append_assoc]
    exact (directBlocks_update hclear).append_right _
  have hparts := pointer_parts htype hlookup hfree (by omega) hafter
  have hreach : reach (disk.mark addr)
      { node with addrs := Function.update node.addrs i.castSucc addr } =
        disk.pointees (Function.update node.addrs i.castSucc addr) := if_neg htype
  rw [← hreach] at hparts
  have hdata : addr = 0 ∨ addr ∈
      Addrs.directBlocks (Function.update node.addrs i.castSucc addr) := by
    by_cases hzero : addr = 0
    · exact .inl hzero
    · rw [(directBlocks_update hclear).mem_iff, pointerBlock_of_ne hzero]
      exact .inr (List.mem_append_left _ (List.mem_singleton_self addr))
  exact ⟨.mark hfree, rfl, hparts.1, hparts.2, .inl rfl, fun _ ↦ hlast,
    fun _ ↦ hdata.imp_right (List.mem_append_left _),
    fun _ free hnext ↦ List.mem_singleton.mpr (hnext.unique hfree),
    .inl (List.mem_singleton_self addr)⟩

theorem setEntry_data (disk : Disk) (indirect addr : Word) {j : ℕ} (hj : j < 128) :
    addr = 0 ∨ addr ∈ (disk.setEntry indirect j addr).entryBlocks indirect := by
  by_cases hzero : addr = 0
  · exact .inl hzero
  · have hself := entry_setEntry_self disk indirect addr j
    have hmem : (disk.setEntry indirect j addr).entry indirect j ∈
        (disk.setEntry indirect j addr).entryBlocks indirect := by
      apply mem_entryBlocks hj
      rwa [hself]
    rw [hself] at hmem
    exact .inr hmem

/-- A new entry in the indirect block that is there. -/
theorem entry_extends (htype : node.type ≠ .extent) {j : ℕ} (hj : j < 128)
    (hbn : bn.toNat = j + 12) (hset : node.addrs 12 ≠ 0)
    (hclear : disk.entry (node.addrs 12) j = 0) (hfree : disk.NextFree addr) :
    Extends disk node bn ((disk.mark addr).setEntry (node.addrs 12) j addr) node addr [addr] := by
  have hlookup : lookup disk node bn = none := by
    rw [lookup_indirect htype hj hbn, if_pos (.inr hclear)]
  have hafter : (reach ((disk.mark addr).setEntry (node.addrs 12) j addr) node).Perm
      (pointerBlock addr ++ reach disk node) := by
    have hentries : (((disk.mark addr).setEntry (node.addrs 12) j addr).entryBlocks
        (node.addrs 12)).Perm (pointerBlock addr ++ disk.entryBlocks (node.addrs 12)) :=
      entryBlocks_setEntry hj hclear
    rw [reach_pointer htype, reach_pointer htype, Disk.pointees, Disk.pointees,
      Disk.indirectBlocks, Disk.indirectBlocks, if_neg hset, if_neg hset, List.perm_iff_count]
    intro b
    have hcount := hentries.count_eq b
    simp only [List.count_append] at hcount ⊢
    omega
  have hparts := pointer_parts htype hlookup hfree (fun h ↦ hset h.2) hafter
  have hdata := setEntry_data (disk.mark addr) (node.addrs 12) addr hj
  exact ⟨(Takes.mark hfree).setEntry _ _ _, rfl, hparts.1, hparts.2,
    .inr ⟨j, hj, addr, List.mem_singleton_self addr, htype, hclear, .inr ⟨hset, rfl⟩, rfl⟩,
    fun _ ↦ rfl, fun _ ↦ hdata.imp_right (List.mem_append_right _),
    fun _ free hnext ↦ List.mem_singleton.mpr (hnext.unique hfree),
    .inl (List.mem_singleton_self addr)⟩

/-- A new indirect block, with the list `entries` of its entries at the end of the call. -/
theorem indirect_parts {disk' : Disk} {indirect : Word} (new : List Word)
    (htype : node.type ≠ .extent) (hlow : 12 ≤ bn.toNat) (hclear : node.addrs 12 = 0)
    (hfree : disk.NextFree indirect)
    (hentries : (disk'.entryBlocks indirect).Subperm (new ++ disk.entryBlocks indirect))
    (hperm : indirect ≠ 0 →
      (disk'.entryBlocks indirect).Perm (new ++ disk.entryBlocks indirect)) :
    (disk'.pointees (Function.update node.addrs 12 indirect)).Subperm
        ((new ++ [indirect]) ++ (strays disk node bn ++ reach disk node)) ∧
      (indirect ≠ 0 → (disk'.pointees (Function.update node.addrs 12 indirect)).Perm
        ((new ++ [indirect]) ++ (strays disk node bn ++ reach disk node))) := by
  rw [strays_pointer htype hfree, if_pos ⟨hlow, hclear⟩, reach_pointer htype, Disk.pointees,
    Disk.pointees, directBlocks_update_indirect, Function.update_self, hclear]
  constructor
  · by_cases hzero : indirect = 0
    · simp only [Disk.indirectBlocks, hzero, if_true, List.append_nil]
      exact ((List.sublist_append_right _ _).trans (List.sublist_append_right _ _)).subperm
    · rw [List.subperm_iff_count]
      intro b
      have hcount := hentries.count_le b
      simp only [Disk.indirectBlocks, if_neg hzero, if_true, List.count_append,
        List.count_nil] at hcount ⊢
      omega
  · intro hset
    rw [List.perm_iff_count]
    intro b
    have hcount := (hperm hset).count_eq b
    simp only [Disk.indirectBlocks, if_neg hset, if_true, List.count_append,
      List.count_nil] at hcount ⊢
    omega

/-- A new indirect block, and perhaps a new entry in it. -/
theorem indirect_extends {indirect : Word} (htype : node.type ≠ .extent) {j : ℕ} (hj : j < 128)
    (hbn : bn.toNat = j + 12) (hclear : node.addrs 12 = 0) (hfree : disk.NextFree indirect)
    (hentry : indirectEntry (disk.mark indirect) indirect j = some (addr, disk')) :
    ∃ new, Extends disk node bn disk'
      { node with addrs := Function.update node.addrs 12 indirect } addr new := by
  have hlookup : lookup disk node bn = none := by
    rw [lookup_indirect htype hj hbn, if_pos (.inl hclear)]
  have hlow : 12 ≤ bn.toNat := by omega
  have hreach : ∀ after : Disk,
      reach after { node with addrs := Function.update node.addrs 12 indirect } =
        after.pointees (Function.update node.addrs 12 indirect) := fun _ ↦ if_neg htype
  have hlast : { node with addrs := Function.update node.addrs 12 indirect }.addrs 12 = indirect :=
    Function.update_self 12 indirect node.addrs
  obtain ⟨hset, rfl, rfl⟩ | ⟨hzero, hnext, rfl⟩ := indirectEntry_cases hentry
  · have hentries : (disk.entryBlocks indirect).Perm ([] ++ disk.entryBlocks indirect) := .rfl
    have hparts := indirect_parts [] htype hlow hclear hfree hentries.subperm fun _ ↦ hentries
    refine ⟨[indirect], .mark hfree, rfl, ?_, fun hkeeps ↦ ?_, .inl rfl, ?_, fun _ ↦ .inr ?_,
      fun _ free hnext ↦ List.mem_singleton.mpr (hnext.unique hfree), .inr (.inl ?_)⟩
    · rw [hreach]
      exact hparts.1
    · rw [hreach]
      exact hparts.2 (ne_zero_of_not_loses htype hlookup hfree hkeeps)
    · exact fun h ↦ h.elim (absurd · htype) (absurd hclear)
    · rw [hlast]
      exact List.mem_append_right _ (mem_entryBlocks hj hset)
    · rw [strays_pointer htype hfree, if_pos ⟨hlow, hclear⟩]
      exact mem_entryBlocks hj hset
  · have hentries : ((((disk.mark indirect).mark addr).setEntry indirect j addr).entryBlocks
        indirect).Perm (pointerBlock addr ++ disk.entryBlocks indirect) :=
      entryBlocks_setEntry hj hzero
    have hne : indirect ≠ 0 → addr ≠ 0 := by
      rintro hindirect rfl
      have hpos : (0 : Word).toNat < indirect.toNat :=
        Nat.pos_of_ne_zero fun h ↦ hindirect (BitVec.eq_of_toNat_eq h)
      have hused := (Takes.mark hfree).used_iff 0 |>.mpr (.inr (hfree.lowest 0 hpos))
      rw [hnext.clear] at hused
      cases hused
    have hparts := indirect_parts [addr] htype hlow hclear hfree
      (hentries.subperm.trans ((List.subperm_append_right _).mpr (pointerBlock_subperm addr)))
      fun hset ↦ by rwa [← pointerBlock_of_ne (hne hset)]
    refine ⟨[addr] ++ [indirect], ((Takes.mark hfree).trans (Takes.mark hnext)).setEntry _ _ _, rfl,
      ?_, fun hkeeps ↦ ?_, .inr ?_, ?_, fun _ ↦ ?_,
      fun _ free hother ↦ List.mem_append_right _ (List.mem_singleton.mpr (hother.unique hfree)),
      .inl (List.mem_append_left _ (List.mem_singleton_self addr))⟩
    · rw [hreach]
      exact hparts.1
    · rw [hreach]
      exact hparts.2 (ne_zero_of_not_loses htype hlookup hfree hkeeps)
    · refine ⟨j, hj, addr, by simp, htype, ?_, .inl ⟨hclear, ?_⟩, ?_⟩
      · rw [hlast]
        exact hzero
      · rw [hlast]
        simp
      · rw [hlast]
        rfl
    · exact fun h ↦ h.elim (absurd · htype) (absurd hclear)
    · rw [hlast]
      exact (setEntry_data _ indirect addr hj).imp_right (List.mem_append_right _)

theorem bmapPointer_extends (htype : node.type ≠ .extent) (hlookup : lookup disk node bn = none)
    (h : bmapPointer disk node.addrs bn = some (addr, addrs', disk')) :
    ∃ new, Extends disk node bn disk' { node with addrs := addrs' } addr new := by
  obtain ⟨i, hbn, hset, -⟩ | ⟨i, hbn, hclear, hfree, rfl, rfl⟩ |
    ⟨j, hj, hbn, indirect, disk₁, hindirect, hentry⟩ := bmapPointer_cases h
  · rw [lookup_direct htype hbn, if_neg hset] at hlookup
    cases hlookup
  · exact ⟨_, direct_extends htype hbn hclear hfree⟩
  · obtain ⟨hset, rfl, rfl, rfl⟩ | ⟨hclear, hfree, rfl, rfl⟩ := indirectBlock_cases hindirect
    · obtain ⟨hthere, -⟩ | ⟨hzero, hfree, rfl⟩ := indirectEntry_cases hentry
      · rw [lookup_indirect htype hj hbn, if_neg (not_or.mpr ⟨hset, hthere⟩)] at hlookup
        cases hlookup
      · exact ⟨_, entry_extends htype hj hbn hset hzero hfree⟩
    · exact indirect_extends htype hj hbn hclear hfree hentry

end New

/-- What every call of `bmap` does that does not panic. -/
theorem bmap_extends {disk disk' : Disk} {ip ip' : Inode} {bn addr : Word}
    (h : bmap disk ip bn = some (addr, ip', disk')) :
    ip' = { ip with addrs := ip'.addrs } ∧
      ∃ new, Extends disk ip.toDinode bn disk' ip'.toDinode addr new := by
  cases hlookup : lookup disk ip.toDinode bn with
  | some found =>
    rw [bmap_of_lookup hlookup, Option.some.injEq, Prod.mk.injEq, Prod.mk.injEq] at h
    obtain ⟨rfl, rfl, rfl⟩ := h
    exact ⟨rfl, [], .of_lookup hlookup⟩
  | none =>
    rw [bmap_eq] at h
    simp only [Option.map_eq_some_iff, Prod.exists, Prod.mk.injEq] at h
    obtain ⟨found, addrs', disk₁, hcode, rfl, rfl, rfl⟩ := h
    refine ⟨rfl, ?_⟩
    by_cases htype : ip.type = .extent
    · rw [if_pos htype] at hcode
      exact ⟨[found], bmapExtent_extends htype hlookup hcode⟩
    · rw [if_neg htype] at hcode
      exact bmapPointer_extends htype hlookup hcode

end OS537.XV6
