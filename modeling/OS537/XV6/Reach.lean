import OS537.XV6.Search
import Mathlib.Data.List.Perm.Subperm
import Mathlib.Data.List.Perm.Basic
import Mathlib.Data.List.Nodup

/-!
# The blocks of an inode

`reach` lists the blocks that an inode holds, in the order in which `itrunc` frees them, and
`Takes` says which blocks a call has allocated. What a call of `bmap` adds to the first list is
compared with the second: `bmap` loses a block where an extent is full, and reaches a block that
it did not allocate where an address does not fit the packed word or a new indirect block is not
zero.
-/

namespace OS537.XV6

open Bytes

/-! ## Lists made of parts -/

section Parts

variable {α β : Type*} [DecidableEq α] {parts : List α} {part : α} {before after : α → List β}
  {new : List β}

theorem flatMap_split (before : α → List β) (hpart : part ∈ parts) :
    (parts.flatMap before).Perm (before part ++ (parts.erase part).flatMap before) := by
  have hperm := (List.perm_cons_erase hpart).flatMap (f := before) (g := before) fun _ _ ↦ .rfl
  rwa [List.flatMap_cons] at hperm

theorem flatMap_erase_congr (hnodup : parts.Nodup)
    (hother : ∀ other ∈ parts, other ≠ part → after other = before other) :
    (parts.erase part).flatMap after = (parts.erase part).flatMap before := by
  apply List.flatMap_congr
  intro other hmem
  have hmem := hnodup.mem_erase_iff.mp hmem
  exact hother other hmem.2 hmem.1

/-- One part changes, and the whole list changes by what the part does. -/
theorem flatMap_subperm (hnodup : parts.Nodup) (hpart : part ∈ parts)
    (hother : ∀ other ∈ parts, other ≠ part → after other = before other)
    (hchange : (after part).Subperm (new ++ before part)) :
    (parts.flatMap after).Subperm (new ++ parts.flatMap before) := by
  have hafter := flatMap_split after hpart
  rw [flatMap_erase_congr hnodup hother] at hafter
  have hsub := hafter.subperm.trans ((List.subperm_append_right _).mpr hchange)
  rw [List.append_assoc] at hsub
  exact hsub.trans ((flatMap_split before hpart).symm.append_left new).subperm

theorem flatMap_perm (hnodup : parts.Nodup) (hpart : part ∈ parts)
    (hother : ∀ other ∈ parts, other ≠ part → after other = before other)
    (hchange : (after part).Perm (new ++ before part)) :
    (parts.flatMap after).Perm (new ++ parts.flatMap before) := by
  have hafter := flatMap_split after hpart
  rw [flatMap_erase_congr hnodup hother] at hafter
  have hperm := hafter.trans (hchange.append_right _)
  rw [List.append_assoc] at hperm
  exact hperm.trans ((flatMap_split before hpart).symm.append_left new)

end Parts

/-! ## Reachable blocks -/

/-- The blocks behind `addrs[NDIRECT]`. -/
def Disk.indirectBlocks (disk : Disk) (indirect : Word) : List Word :=
  if indirect = 0 then [] else disk.entryBlocks indirect ++ [indirect]

/-- The blocks of all extents. -/
def Addrs.extents (addrs : Addrs) : List Word := (List.finRange 6).flatMap addrs.extentBlocks

/-- The blocks behind all pointers. -/
def Disk.pointees (disk : Disk) (addrs : Addrs) : List Word :=
  addrs.directBlocks ++ disk.indirectBlocks (addrs 12)

/-- The blocks that an inode reaches, in the order in which `itrunc` frees them. -/
def reach (disk : Disk) (node : Dinode) : List Word :=
  if node.type = .extent then node.addrs.extents else disk.pointees node.addrs

theorem reach_extent {disk : Disk} {node : Dinode} (htype : node.type = .extent) :
    reach disk node = node.addrs.extents := if_pos htype

theorem reach_pointer {disk : Disk} {node : Dinode} (htype : node.type ≠ .extent) :
    reach disk node = disk.pointees node.addrs := if_neg htype

theorem bfreeAll_concat (disk : Disk) (blocks : List Word) (b : Word) :
    bfreeAll disk (blocks ++ [b]) = (bfreeAll disk blocks).bind fun disk ↦ bfree disk b := by
  rw [bfreeAll_append]
  congr 1
  funext next
  simp [bfreeAll]

theorem bfreeAll_eq_none {disk : Disk} {blocks : List Word} {b : Word} (hmem : b ∈ blocks)
    (hclear : disk.used b = false) : bfreeAll disk blocks = none := by
  cases hfree : bfreeAll disk blocks with
  | none => rfl
  | some disk' =>
    have hused := (bfreeAll_eq_some_iff.mp hfree).2.1 b hmem
    rw [hclear] at hused
    contradiction

theorem itruncPointer_eq (disk : Disk) (addrs : Addrs) :
    itruncPointer disk addrs =
      (bfreeAll disk (disk.pointees addrs)).map fun disk ↦ (fun _ ↦ 0, disk) := by
  unfold itruncPointer Disk.pointees Disk.indirectBlocks
  rw [bfreeAll_append]
  cases hdirect : bfreeAll disk addrs.directBlocks with
  | none => rfl
  | some disk₁ =>
    obtain ⟨-, -, rfl⟩ := bfreeAll_eq_some_iff.mp hdirect
    by_cases hset : addrs 12 = 0
    · simp [hset, bfreeAll]
    · have hcode : (bfreeAll (disk.freedAll addrs.directBlocks)
            ((disk.freedAll addrs.directBlocks).entryBlocks (addrs 12) ++ [addrs 12])) =
          bfreeAll (disk.freedAll addrs.directBlocks)
            (disk.entryBlocks (addrs 12) ++ [addrs 12]) := by
        -- The entries are read after the direct blocks have been zeroed.
        by_cases hmem : addrs 12 ∈ addrs.directBlocks
        · have hclear : (disk.freedAll addrs.directBlocks).used (addrs 12) = false := if_pos hmem
          rw [bfreeAll_eq_none (List.mem_append_right _ (List.mem_singleton_self _)) hclear,
            bfreeAll_eq_none (List.mem_append_right _ (List.mem_singleton_self _)) hclear]
        · have hblock : (disk.freedAll addrs.directBlocks).block (addrs 12) =
              disk.block (addrs 12) := if_neg hmem
          simp only [Disk.entryBlocks, Disk.entry, hblock]
      rw [bfreeAll_concat] at hcode
      simp only [hset, if_false, Option.bind_eq_bind, Option.bind_some, ← hcode]
      cases bfreeAll (disk.freedAll addrs.directBlocks)
          ((disk.freedAll addrs.directBlocks).entryBlocks (addrs 12)) with
      | none => rfl
      | some disk₂ =>
        simp only [Option.bind_some]
        cases bfree disk₂ (addrs 12) <;> rfl

theorem itruncExtent_eq (disk : Disk) (addrs : Addrs) :
    itruncExtent disk addrs =
      (bfreeAll disk addrs.extents).map
        fun disk ↦ (fun i ↦ if i = 12 then addrs i else 0, disk) := by
  unfold itruncExtent Addrs.extents
  cases bfreeAll disk ((List.finRange 6).flatMap addrs.extentBlocks) <;> rfl

/-- An inode after `itrunc`. -/
def Inode.truncated (ip : Inode) : Inode :=
  { ip with
    addrs := if ip.type = .extent then fun i ↦ if i = 12 then ip.addrs i else 0 else fun _ ↦ 0
    size := 0 }

/-- `itrunc` ends without a panic exactly when every block that the inode reaches is in use and is
reached once, and then these blocks become free. -/
theorem itrunc_eq_some_iff {disk disk' : Disk} {ip ip' : Inode} :
    itrunc disk ip = some (ip', disk') ↔
      (reach disk ip.toDinode).Nodup ∧ (∀ b ∈ reach disk ip.toDinode, disk.used b = true) ∧
        ip' = ip.truncated ∧
        disk' = iupdate (disk.freedAll (reach disk ip.toDinode)) ip.truncated := by
  have hcode : itrunc disk ip = (bfreeAll disk (reach disk ip.toDinode)).map
      fun disk ↦ (ip.truncated, iupdate disk ip.truncated) := by
    unfold itrunc reach Inode.truncated
    by_cases htype : ip.type = .extent
    · simp only [htype, if_true, itruncExtent_eq]
      cases bfreeAll disk ip.addrs.extents <;> rfl
    · simp only [htype, if_false, itruncPointer_eq]
      cases bfreeAll disk (disk.pointees ip.addrs) <;> rfl
  rw [hcode, Option.map_eq_some_iff]
  constructor
  · rintro ⟨disk₁, hfree, hpair⟩
    obtain ⟨hnodup, hused, rfl⟩ := bfreeAll_eq_some_iff.mp hfree
    exact ⟨hnodup, hused, (Prod.mk.inj hpair).1.symm, (Prod.mk.inj hpair).2.symm⟩
  · rintro ⟨hnodup, hused, rfl, rfl⟩
    exact ⟨_, bfreeAll_eq_some_iff.mpr ⟨hnodup, hused, rfl⟩, rfl⟩

/-! ## What a new block adds -/

section Extents

variable {addrs addrs' : Addrs} {k : Fin 6} {addr bn : Word}

theorem Addrs.extentBlocks_congr (h : addrs'.packed k = addrs.packed k) :
    addrs'.extentBlocks k = addrs.extentBlocks k := by
  simp only [Addrs.extentBlocks, h]

theorem Addrs.extentBlocks_eq_nil (h : (extentLength (addrs.packed k)).toNat = 0) :
    addrs.extentBlocks k = [] := by
  rw [Addrs.extentBlocks, h, List.range_zero, List.map_nil]

theorem Addrs.grow_extentBlocks (hroom : (extentLength (addrs.packed k)).toNat ≠ 255) :
    (addrs.grow k).extentBlocks k =
      addrs.extentBlocks k ++ [extentBase (addrs.packed k) + extentLength (addrs.packed k)] := by
  rw [Addrs.extentBlocks, Addrs.grow_packed_self, extentLength_succ hroom, extentBase_succ hroom,
    List.range_succ, List.map_append, List.map_singleton, BitVec.ofNat_toNat]
  simp [Addrs.extentBlocks]

theorem Addrs.fill_extentBlocks :
    (addrs.fill k addr bn).extentBlocks k = [extentBase ((addr <<< 8) + 1)] := by
  rw [Addrs.extentBlocks, Addrs.fill_packed_self, extentLength_single]
  simp [List.range_succ]

theorem Addrs.adjoins_iff : addrs.adjoins addr k = true ↔
    addr = extentBase (addrs.packed k) + extentLength (addrs.packed k) := by
  simp [Addrs.adjoins]

theorem Addrs.growing_eq_some_iff : addrs.growing bn addr = some k ↔
    addrs.neighborBlock bn = some k ∧ addrs.adjoins addr k = true := by
  simp [Addrs.growing, Option.filter_eq_some_iff]

theorem Addrs.packed_fillBlock (h : addrs.fillBlock = some k) : addrs.packed k = 0 := by
  have hfound := List.find?_some h
  simpa using hfound

/-- An extent with room takes a block that adjoins it. -/
theorem Addrs.grow_extents_perm (hgrowing : addrs.growing bn addr = some k)
    (hroom : (extentLength (addrs.packed k)).toNat ≠ 255) :
    (addrs.grow k).extents.Perm ([addr] ++ addrs.extents) := by
  apply flatMap_perm (List.nodup_finRange 6) (List.mem_finRange k)
  · intro j _ hj
    exact Addrs.extentBlocks_congr (addrs.grow_packed_of_ne k hj)
  · rw [Addrs.grow_extentBlocks hroom,
      ← Addrs.adjoins_iff.mp (Addrs.growing_eq_some_iff.mp hgrowing).2]
    exact List.perm_append_comm

/-- A full extent loses all its blocks, and does not take the new one. -/
theorem Addrs.grow_extents_full (hfull : (extentLength (addrs.packed k)).toNat = 255) :
    (addrs.grow k).extents.Subperm addrs.extents := by
  have hsub : (addrs.grow k).extents.Subperm ([] ++ addrs.extents) := by
    apply flatMap_subperm (List.nodup_finRange 6) (List.mem_finRange k)
    · intro j _ hj
      exact Addrs.extentBlocks_congr (addrs.grow_packed_of_ne k hj)
    · have hlength : (extentLength ((addrs.grow k).packed k)).toNat = 0 := by
        rw [Addrs.grow_packed_self, extentLength_succ_of_full hfull]
      rw [Addrs.extentBlocks_eq_nil hlength]
      exact List.nil_subperm
  rwa [List.nil_append] at hsub

theorem Addrs.fill_extents_perm (addr bn : Word) (hfill : addrs.fillBlock = some k) :
    (addrs.fill k addr bn).extents.Perm ([extentBase ((addr <<< 8) + 1)] ++ addrs.extents) := by
  apply flatMap_perm (List.nodup_finRange 6) (List.mem_finRange k)
  · intro j _ hj
    exact Addrs.extentBlocks_congr (addrs.fill_packed_of_ne k addr bn hj)
  · have hlength : (extentLength (addrs.packed k)).toNat = 0 := by
      rw [Addrs.packed_fillBlock hfill]
      rfl
    rw [Addrs.fill_extentBlocks, Addrs.extentBlocks_eq_nil hlength, List.append_nil]

end Extents

section Pointers

variable {disk : Disk} {addrs : Addrs} {addr indirect : Word}

theorem pointerBlock_of_ne (h : addr ≠ 0) : pointerBlock addr = [addr] := if_neg h

theorem pointerBlock_zero : pointerBlock 0 = [] := if_pos rfl

theorem pointerBlock_subperm (addr : Word) : (pointerBlock addr).Subperm [addr] := by
  by_cases h : addr = 0
  · rw [h, pointerBlock_zero]
    exact List.nil_subperm
  · rw [pointerBlock_of_ne h]

theorem mem_pointerBlock {b : Word} : b ∈ pointerBlock addr ↔ b = addr ∧ addr ≠ 0 := by
  by_cases h : addr = 0
  · rw [h, pointerBlock_zero]
    simp only [List.not_mem_nil, ne_eq, not_true_eq_false, and_false]
  · rw [pointerBlock_of_ne h, List.mem_singleton]
    exact ⟨fun hb ↦ ⟨hb, h⟩, fun hb ↦ hb.1⟩

theorem mem_directBlocks (i : Fin 12) (hset : addrs i.castSucc ≠ 0) :
    addrs i.castSucc ∈ addrs.directBlocks :=
  List.mem_flatMap.mpr ⟨i, List.mem_finRange i, mem_pointerBlock.mpr ⟨rfl, hset⟩⟩

theorem mem_entryBlocks {j : ℕ} (hj : j < 128) (hset : disk.entry indirect j ≠ 0) :
    disk.entry indirect j ∈ disk.entryBlocks indirect :=
  List.mem_flatMap.mpr ⟨j, List.mem_range.mpr hj, mem_pointerBlock.mpr ⟨rfl, hset⟩⟩

theorem directBlocks_update {i : Fin 12} (hclear : addrs i.castSucc = 0) :
    Addrs.directBlocks (Function.update addrs i.castSucc addr) |>.Perm
      (pointerBlock addr ++ addrs.directBlocks) := by
  apply flatMap_perm (List.nodup_finRange 12) (List.mem_finRange i)
  · intro j _ hj
    rw [Function.update_of_ne fun h ↦ hj (Fin.castSucc_injective 12 h)]
  · rw [Function.update_self, hclear, pointerBlock_zero, List.append_nil]

theorem directBlocks_update_indirect :
    Addrs.directBlocks (Function.update addrs 12 indirect) = addrs.directBlocks := by
  apply List.flatMap_congr
  intro i _
  have hne : i.castSucc ≠ 12 := by
    intro h
    have hval : (i : ℕ) = 12 := congrArg Fin.val h
    omega
  rw [Function.update_of_ne hne]

theorem entry_setEntry_self (disk : Disk) (indirect addr : Word) (j : ℕ) :
    (disk.setEntry indirect j addr).entry indirect j = addr := by
  simp [Disk.entry, Disk.setEntry, load32_store32_same]

theorem entry_setEntry_of_ne {i j : ℕ} (h : i ≠ j) :
    (disk.setEntry indirect j addr).entry indirect i = disk.entry indirect i := by
  simp only [Disk.entry, Disk.setEntry, Disk.setBlock_block, Function.update_self]
  exact load32_store32_other _ _ (by omega)

theorem entry_setEntry_of_block_ne {b : Word} (h : b ≠ indirect) (i j : ℕ) :
    (disk.setEntry indirect j addr).entry b i = disk.entry b i := by
  simp only [Disk.entry, Disk.setEntry, Disk.setBlock_block, Function.update_of_ne h]

theorem entryBlocks_setEntry {j : ℕ} (hj : j < 128) (hclear : disk.entry indirect j = 0) :
    ((disk.setEntry indirect j addr).entryBlocks indirect).Perm
      (pointerBlock addr ++ disk.entryBlocks indirect) := by
  apply flatMap_perm List.nodup_range (List.mem_range.mpr hj)
  · intro i _ hi
    rw [entry_setEntry_of_ne hi]
  · rw [entry_setEntry_self, hclear, pointerBlock_zero, List.append_nil]

end Pointers

end OS537.XV6
