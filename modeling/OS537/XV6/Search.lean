import OS537.XV6.Bmap

/-!
# What `bmap` does

The packed words of an extent read as numbers, the search over the extents as three first-match
scans, and the ways in which a call of `bmap` can end.
-/

namespace OS537.XV6

open Bytes

/-! ## Packed words -/

theorem extentLength_toNat (word : Word) : (extentLength word).toNat = word.toNat % 256 := by
  have hmask : word.toNat &&& (2 ^ 8 - 1) = word.toNat % 2 ^ 8 :=
    Nat.and_two_pow_sub_one_eq_mod word.toNat 8
  simpa [extentLength] using hmask

theorem extentBase_toNat (word : Word) : (extentBase word).toNat = word.toNat / 256 := by
  simp [extentBase, Nat.shiftRight_eq_div_pow]

theorem extentLength_lt (word : Word) : (extentLength word).toNat < 256 := by
  rw [extentLength_toNat]
  omega

theorem extentBase_lt (word : Word) : (extentBase word).toNat < 2 ^ 24 := by
  rw [extentBase_toNat]
  have := word.isLt
  omega

theorem succ_toNat_of_room {word : Word} (hroom : (extentLength word).toNat ≠ 255) :
    (word + 1).toNat = word.toNat + 1 := by
  rw [extentLength_toNat] at hroom
  have hlt := word.isLt
  have hone : (1 : Word).toNat = 1 := rfl
  rw [BitVec.toNat_add, hone, Nat.mod_eq_of_lt (by omega)]

theorem extentLength_succ {word : Word} (hroom : (extentLength word).toNat ≠ 255) :
    (extentLength (word + 1)).toNat = (extentLength word).toNat + 1 := by
  rw [extentLength_toNat, succ_toNat_of_room hroom]
  rw [extentLength_toNat] at hroom ⊢
  omega

theorem extentBase_succ {word : Word} (hroom : (extentLength word).toNat ≠ 255) :
    extentBase (word + 1) = extentBase word := by
  apply BitVec.eq_of_toNat_eq
  rw [extentBase_toNat, extentBase_toNat, succ_toNat_of_room hroom]
  rw [extentLength_toNat] at hroom
  omega

/-- The length of a full extent wraps around. -/
theorem extentLength_succ_of_full {word : Word} (hfull : (extentLength word).toNat = 255) :
    (extentLength (word + 1)).toNat = 0 := by
  have hone : (1 : Word).toNat = 1 := rfl
  rw [extentLength_toNat] at hfull ⊢
  rw [BitVec.toNat_add, hone]
  omega

theorem single_toNat (addr : Word) :
    ((addr <<< 8) + 1 : Word).toNat = addr.toNat % 2 ^ 24 * 256 + 1 := by
  have hshift : (addr <<< 8 : Word).toNat = addr.toNat * 256 % 2 ^ 32 := by
    simp [Nat.shiftLeft_eq]
  have hone : (1 : Word).toNat = 1 := rfl
  rw [BitVec.toNat_add, hone, hshift]
  omega

theorem extentLength_single (addr : Word) : (extentLength ((addr <<< 8) + 1)).toNat = 1 := by
  rw [extentLength_toNat, single_toNat]
  omega

theorem extentBase_single_toNat (addr : Word) :
    (extentBase ((addr <<< 8) + 1)).toNat = addr.toNat % 2 ^ 24 := by
  rw [extentBase_toNat, single_toNat]
  omega

theorem extentBase_single {addr : Word} (hlt : addr.toNat < 2 ^ 24) :
    extentBase ((addr <<< 8) + 1) = addr := by
  apply BitVec.eq_of_toNat_eq
  rw [extentBase_single_toNat, Nat.mod_eq_of_lt hlt]

/-! ## Slots -/

section Slots

variable (addrs : Addrs) (k : Fin 6) (word : Word)

@[simp]
theorem Addrs.packed_setPacked_self : (addrs.setPacked k word).packed k = word := by
  simp [Addrs.packed, Addrs.setPacked]

@[simp]
theorem Addrs.start_setStart_self : (addrs.setStart k word).start k = word := by
  simp [Addrs.start, Addrs.setStart]

theorem Addrs.packed_setPacked_of_ne {j : Fin 6} (h : j ≠ k) :
    (addrs.setPacked k word).packed j = addrs.packed j := by
  have hne : (⟨2 * j, by omega⟩ : Fin 13) ≠ ⟨2 * k, by omega⟩ := by
    simp only [ne_eq, Fin.mk.injEq]
    omega
  rw [Addrs.packed, Addrs.setPacked, Function.update_of_ne hne, Addrs.packed]

theorem Addrs.start_setStart_of_ne {j : Fin 6} (h : j ≠ k) :
    (addrs.setStart k word).start j = addrs.start j := by
  have hne : (⟨2 * j + 1, by omega⟩ : Fin 13) ≠ ⟨2 * k + 1, by omega⟩ := by
    simp only [ne_eq, Fin.mk.injEq]
    omega
  rw [Addrs.start, Addrs.setStart, Function.update_of_ne hne, Addrs.start]

@[simp]
theorem Addrs.packed_setStart (j : Fin 6) : (addrs.setStart k word).packed j = addrs.packed j := by
  have hne : (⟨2 * j, by omega⟩ : Fin 13) ≠ ⟨2 * k + 1, by omega⟩ := by
    simp only [ne_eq, Fin.mk.injEq]
    omega
  rw [Addrs.packed, Addrs.setStart, Function.update_of_ne hne, Addrs.packed]

@[simp]
theorem Addrs.start_setPacked (j : Fin 6) : (addrs.setPacked k word).start j = addrs.start j := by
  have hne : (⟨2 * j + 1, by omega⟩ : Fin 13) ≠ ⟨2 * k, by omega⟩ := by
    simp only [ne_eq, Fin.mk.injEq]
    omega
  rw [Addrs.start, Addrs.setPacked, Function.update_of_ne hne, Addrs.start]

@[simp]
theorem Addrs.grow_packed_self : (addrs.grow k).packed k = addrs.packed k + 1 :=
  addrs.packed_setPacked_self k _

theorem Addrs.grow_packed_of_ne {j : Fin 6} (h : j ≠ k) :
    (addrs.grow k).packed j = addrs.packed j :=
  addrs.packed_setPacked_of_ne k _ h

@[simp]
theorem Addrs.grow_start (j : Fin 6) : (addrs.grow k).start j = addrs.start j :=
  addrs.start_setPacked k _ j

theorem Addrs.grow_last : (addrs.grow k) 12 = addrs 12 := by
  refine Function.update_of_ne (fun h ↦ ?_) _ _
  have hval : 12 = 2 * (k : ℕ) := congrArg Fin.val h
  omega

variable (addr bn : Word)

theorem Addrs.fill_last : (addrs.fill k addr bn) 12 = addrs 12 := by
  have hstart : (12 : Fin 13) ≠ ⟨2 * k + 1, by omega⟩ := by
    intro h
    have hval : 12 = 2 * (k : ℕ) + 1 := congrArg Fin.val h
    omega
  have hpacked : (12 : Fin 13) ≠ ⟨2 * k, by omega⟩ := by
    intro h
    have hval : 12 = 2 * (k : ℕ) := congrArg Fin.val h
    omega
  rw [Addrs.fill, Addrs.setStart, Function.update_of_ne hstart, Addrs.setPacked,
    Function.update_of_ne hpacked]

@[simp]
theorem Addrs.fill_packed_self : (addrs.fill k addr bn).packed k = (addr <<< 8) + 1 := by
  simp [Addrs.fill]

theorem Addrs.fill_packed_of_ne {j : Fin 6} (h : j ≠ k) :
    (addrs.fill k addr bn).packed j = addrs.packed j := by
  rw [Addrs.fill, Addrs.packed_setStart, Addrs.packed_setPacked_of_ne _ _ _ h]

@[simp]
theorem Addrs.fill_start_self : (addrs.fill k addr bn).start k = bn :=
  Addrs.start_setStart_self _ k bn

theorem Addrs.fill_start_of_ne {j : Fin 6} (h : j ≠ k) :
    (addrs.fill k addr bn).start j = addrs.start j := by
  rw [Addrs.fill, Addrs.start_setStart_of_ne _ _ _ h, Addrs.start_setPacked]

end Slots

/-! ## The search -/

section Search

variable (addrs : Addrs) (bn : Word)

/-- The extent in which `bmap` finds a block. -/
def Addrs.slotOf : Option (Fin 6) := (List.finRange 6).find? (addrs.covers bn)

/-- `fillBlock` at the end of the search: the first empty slot. -/
def Addrs.fillBlock : Option (Fin 6) := (List.finRange 6).find? fun k ↦ addrs.packed k = 0

/-- `neighborBlock` at the end of the search: the last extent that ends where `bn` begins. -/
def Addrs.neighborBlock : Option (Fin 6) := (List.finRange 6).reverse.find? (addrs.precedes bn)

theorem searchExtents_eq (slots : List (Fin 6)) (fillBlock neighborBlock : Option (Fin 6)) :
    searchExtents addrs bn slots fillBlock neighborBlock =
      match slots.find? (addrs.covers bn) with
      | some k => .found (addrs.addrIn bn k)
      | none => .missed (fillBlock.or (slots.find? fun k ↦ addrs.packed k = 0))
          ((slots.reverse.find? (addrs.precedes bn)).or neighborBlock) := by
  induction slots generalizing fillBlock neighborBlock with
  | nil => simp [searchExtents]
  | cons k rest ih =>
    rw [searchExtents, List.find?_cons]
    by_cases hcovers : addrs.covers bn k = true
    · simp [hcovers]
    · have hfill : (if fillBlock = none ∧ addrs.packed k = 0 then some k else fillBlock).or
          (rest.find? fun k ↦ addrs.packed k = 0) =
          fillBlock.or ((k :: rest).find? fun k ↦ addrs.packed k = 0) := by
        cases fillBlock with
        | some j => simp only [reduceCtorEq, false_and, if_false, Option.some_or]
        | none =>
          by_cases hpacked : addrs.packed k = 0 <;>
            simp only [hpacked, and_self, and_false, if_true, if_false, Option.some_or,
              Option.none_or, List.find?_cons, decide_true, decide_false]
      simp only [hcovers, Bool.false_eq_true, if_false, ih, hfill, List.reverse_cons,
        List.find?_append, Option.or_assoc]
      by_cases hprecedes : addrs.precedes bn k = true <;> simp [hprecedes]

theorem search_eq : searchExtents addrs bn (List.finRange 6) none none =
    match addrs.slotOf bn with
    | some k => .found (addrs.addrIn bn k)
    | none => .missed addrs.fillBlock (addrs.neighborBlock bn) := by
  rw [searchExtents_eq]
  simp [Addrs.slotOf, Addrs.fillBlock, Addrs.neighborBlock]

/-- The extent that takes the new block `addr` for `bn` at its end. -/
def Addrs.growing (addr : Word) : Option (Fin 6) :=
  (addrs.neighborBlock bn).filter (addrs.adjoins addr)

theorem bmapExtent_of_slot (disk : Disk) {k : Fin 6} (h : addrs.slotOf bn = some k) :
    bmapExtent disk addrs bn = some (addrs.addrIn bn k, addrs, disk) := by
  simp [bmapExtent, search_eq, h]

end Search

/-- A call of `bmap` on an extent inode finds the block, or adds a new block to the extent it
adjoins, or puts it into an empty slot. -/
theorem bmapExtent_cases {disk disk' : Disk} {addrs addrs' : Addrs} {bn addr : Word}
    (h : bmapExtent disk addrs bn = some (addr, addrs', disk')) :
    (∃ k, addrs.slotOf bn = some k ∧ addr = addrs.addrIn bn k ∧ addrs' = addrs ∧ disk' = disk) ∨
    (addrs.slotOf bn = none ∧ disk.NextFree addr ∧ disk' = disk.mark addr ∧
      ((∃ k, addrs.growing bn addr = some k ∧ addrs' = addrs.grow k) ∨
        (∃ k, addrs.growing bn addr = none ∧ addrs.fillBlock = some k ∧
          addrs' = addrs.fill k addr bn))) := by
  unfold bmapExtent at h
  rw [search_eq] at h
  cases hslot : addrs.slotOf bn with
  | some k =>
    simp only [hslot, Option.some.injEq, Prod.mk.injEq] at h
    exact .inl ⟨k, rfl, h.1.symm, h.2.1.symm, h.2.2.symm⟩
  | none =>
    simp only [hslot, Option.bind_eq_bind, Option.bind_eq_some_iff, Option.pure_def,
      Option.some.injEq, Prod.exists, Prod.mk.injEq] at h
    obtain ⟨new, disk₁, hballoc, addrs₁, hrecord, rfl, rfl, rfl⟩ := h
    obtain ⟨hfree, rfl⟩ := balloc_eq_some_iff.mp hballoc
    refine .inr ⟨rfl, hfree, rfl, ?_⟩
    unfold Addrs.record at hrecord
    cases hgrowing : addrs.growing bn new with
    | some k =>
      rw [Addrs.growing] at hgrowing
      simp only [hgrowing, Option.some.injEq] at hrecord
      exact .inl ⟨k, rfl, hrecord.symm⟩
    | none =>
      rw [Addrs.growing] at hgrowing
      simp only [hgrowing, Option.map_eq_some_iff] at hrecord
      obtain ⟨k, hfill, rfl⟩ := hrecord
      exact .inr ⟨k, rfl, hfill, rfl⟩

/-! ## Pointers -/

theorem indirectBlock_cases {disk disk' : Disk} {addrs addrs' : Addrs} {indirect : Word}
    (h : indirectBlock disk addrs = some (indirect, addrs', disk')) :
    (addrs 12 ≠ 0 ∧ indirect = addrs 12 ∧ addrs' = addrs ∧ disk' = disk) ∨
    (addrs 12 = 0 ∧ disk.NextFree indirect ∧ addrs' = Function.update addrs 12 indirect ∧
      disk' = disk.mark indirect) := by
  unfold indirectBlock at h
  by_cases hset : addrs 12 = 0
  · rw [if_pos hset] at h
    simp only [Option.bind_eq_bind, Option.bind_eq_some_iff, Option.pure_def, Option.some.injEq,
      Prod.exists, Prod.mk.injEq] at h
    obtain ⟨new, disk₁, hballoc, rfl, rfl, rfl⟩ := h
    obtain ⟨hfree, rfl⟩ := balloc_eq_some_iff.mp hballoc
    exact .inr ⟨hset, hfree, rfl, rfl⟩
  · rw [if_neg hset, Option.some.injEq, Prod.mk.injEq, Prod.mk.injEq] at h
    exact .inl ⟨hset, h.1.symm, h.2.1.symm, h.2.2.symm⟩

theorem indirectEntry_cases {disk disk' : Disk} {indirect addr : Word} {j : ℕ}
    (h : indirectEntry disk indirect j = some (addr, disk')) :
    (disk.entry indirect j ≠ 0 ∧ addr = disk.entry indirect j ∧ disk' = disk) ∨
    (disk.entry indirect j = 0 ∧ disk.NextFree addr ∧
      disk' = (disk.mark addr).setEntry indirect j addr) := by
  unfold indirectEntry at h
  by_cases hset : disk.entry indirect j = 0
  · rw [if_pos hset] at h
    simp only [Option.bind_eq_bind, Option.bind_eq_some_iff, Option.pure_def, Option.some.injEq,
      Prod.exists, Prod.mk.injEq] at h
    obtain ⟨new, disk₁, hballoc, rfl, rfl⟩ := h
    obtain ⟨hfree, rfl⟩ := balloc_eq_some_iff.mp hballoc
    exact .inr ⟨hset, hfree, rfl⟩
  · rw [if_neg hset, Option.some.injEq, Prod.mk.injEq] at h
    exact .inl ⟨hset, h.1.symm, h.2.symm⟩

/-- A call of `bmap` on any other inode finds or sets a direct pointer, or goes through the indirect
block. -/
theorem bmapPointer_cases {disk disk' : Disk} {addrs addrs' : Addrs} {bn addr : Word}
    (h : bmapPointer disk addrs bn = some (addr, addrs', disk')) :
    (∃ i : Fin 12, bn.toNat = i ∧ addrs i.castSucc ≠ 0 ∧ addr = addrs i.castSucc ∧
      addrs' = addrs ∧ disk' = disk) ∨
    (∃ i : Fin 12, bn.toNat = i ∧ addrs i.castSucc = 0 ∧ disk.NextFree addr ∧
      addrs' = Function.update addrs i.castSucc addr ∧ disk' = disk.mark addr) ∨
    (∃ j < 128, bn.toNat = j + 12 ∧ ∃ indirect disk₁,
      indirectBlock disk addrs = some (indirect, addrs', disk₁) ∧
      indirectEntry disk₁ indirect j = some (addr, disk')) := by
  unfold bmapPointer at h
  by_cases hdirect : bn.toNat < 12
  · rw [dif_pos hdirect] at h
    let i : Fin 12 := ⟨bn.toNat, hdirect⟩
    change (if addrs i.castSucc = 0 then _ else _) = _ at h
    by_cases hset : addrs i.castSucc = 0
    · rw [if_pos hset] at h
      simp only [Option.bind_eq_bind, Option.bind_eq_some_iff, Option.pure_def,
        Option.some.injEq, Prod.exists, Prod.mk.injEq] at h
      obtain ⟨new, disk₁, hballoc, rfl, rfl, rfl⟩ := h
      obtain ⟨hfree, rfl⟩ := balloc_eq_some_iff.mp hballoc
      exact .inr (.inl ⟨i, rfl, hset, hfree, rfl, rfl⟩)
    · rw [if_neg hset, Option.some.injEq, Prod.mk.injEq, Prod.mk.injEq] at h
      exact .inl ⟨i, rfl, hset, h.1.symm, h.2.1.symm, h.2.2.symm⟩
  · rw [dif_neg hdirect] at h
    by_cases hrange : bn.toNat < 140
    · rw [if_pos hrange] at h
      simp only [Option.bind_eq_bind, Option.bind_eq_some_iff, Option.pure_def,
        Option.some.injEq, Prod.exists, Prod.mk.injEq] at h
      obtain ⟨indirect, addrs₁, disk₁, hindirect, found, disk₂, hentry, rfl, rfl, rfl⟩ := h
      exact .inr (.inr ⟨bn.toNat - 12, by omega, by omega, indirect, disk₁, hindirect, hentry⟩)
    · rw [if_neg hrange] at h
      contradiction

theorem bmap_eq (disk : Disk) (ip : Inode) (bn : Word) :
    bmap disk ip bn =
      (if ip.type = .extent then bmapExtent disk ip.addrs bn
        else bmapPointer disk ip.addrs bn).map
          fun result ↦ (result.1, { ip with addrs := result.2.1 }, result.2.2) := by
  unfold bmap
  by_cases htype : ip.type = .extent
  · simp only [htype, if_true]
    cases bmapExtent disk ip.addrs bn <;> rfl
  · simp only [htype, if_false]
    cases bmapPointer disk ip.addrs bn <;> rfl

/-! ## Blocks that are there -/

/-- The address of a block in the extents. -/
def Addrs.addrOf (addrs : Addrs) (bn : Word) : Option Word :=
  (addrs.slotOf bn).map (addrs.addrIn bn)

/-- The address of a block, if the inode has one. -/
def lookup (disk : Disk) (node : Dinode) (bn : Word) : Option Word :=
  if node.type = .extent then node.addrs.addrOf bn
  else if hdirect : bn.toNat < 12 then
    if node.addrs ⟨bn.toNat, lt_of_direct hdirect⟩ = 0 then none
    else some (node.addrs ⟨bn.toNat, lt_of_direct hdirect⟩)
  else if bn.toNat < 140 ∧ node.addrs 12 ≠ 0 then
    if disk.entry (node.addrs 12) (bn.toNat - 12) = 0 then none
    else some (disk.entry (node.addrs 12) (bn.toNat - 12))
  else none

theorem lookup_extent {disk : Disk} {node : Dinode} (htype : node.type = .extent) (bn : Word) :
    lookup disk node bn = node.addrs.addrOf bn := by
  rw [lookup, if_pos htype]

theorem lookup_direct {disk : Disk} {node : Dinode} (htype : node.type ≠ .extent) {bn : Word}
    {i : Fin 12} (hi : bn.toNat = i) :
    lookup disk node bn =
      if node.addrs i.castSucc = 0 then none else some (node.addrs i.castSucc) := by
  have hindex : (⟨bn.toNat, by omega⟩ : Fin 13) = i.castSucc := Fin.ext hi
  rw [lookup, if_neg htype, dif_pos (by omega), hindex]

theorem lookup_indirect {disk : Disk} {node : Dinode} (htype : node.type ≠ .extent) {bn : Word}
    {j : ℕ} (hj : j < 128) (hbn : bn.toNat = j + 12) :
    lookup disk node bn =
      if node.addrs 12 = 0 ∨ disk.entry (node.addrs 12) j = 0 then none
      else some (disk.entry (node.addrs 12) j) := by
  have hindex : bn.toNat - 12 = j := by omega
  have hrange : bn.toNat < 140 := by omega
  rw [lookup, if_neg htype, dif_neg (by omega), hindex]
  by_cases hset : node.addrs 12 = 0
  · rw [if_neg (fun h ↦ h.2 hset), if_pos (.inl hset)]
  · rw [if_pos ⟨hrange, hset⟩]
    simp only [hset, false_or]

/-- Where an inode with pointers has a block. -/
theorem lookup_pointer_cases {disk : Disk} {node : Dinode} {bn addr : Word}
    (htype : node.type ≠ .extent) (h : lookup disk node bn = some addr) :
    (∃ i : Fin 12, bn.toNat = i ∧ node.addrs i.castSucc ≠ 0 ∧ addr = node.addrs i.castSucc) ∨
    (∃ j < 128, bn.toNat = j + 12 ∧ node.addrs 12 ≠ 0 ∧ disk.entry (node.addrs 12) j ≠ 0 ∧
      addr = disk.entry (node.addrs 12) j) := by
  by_cases hdirect : bn.toNat < 12
  · rw [lookup_direct htype (i := ⟨bn.toNat, hdirect⟩) rfl] at h
    by_cases hset : node.addrs (Fin.castSucc ⟨bn.toNat, hdirect⟩) = 0
    · rw [if_pos hset] at h
      contradiction
    · rw [if_neg hset, Option.some.injEq] at h
      exact .inl ⟨⟨bn.toNat, hdirect⟩, rfl, hset, h.symm⟩
  · by_cases hrange : bn.toNat < 140
    · rw [lookup_indirect htype (j := bn.toNat - 12) (by omega) (by omega)] at h
      by_cases hset : node.addrs 12 = 0 ∨ disk.entry (node.addrs 12) (bn.toNat - 12) = 0
      · rw [if_pos hset] at h
        contradiction
      · rw [if_neg hset, Option.some.injEq] at h
        rw [not_or] at hset
        exact .inr ⟨bn.toNat - 12, by omega, by omega, hset.1, hset.2, h.symm⟩
    · rw [lookup, if_neg htype, dif_neg hdirect, if_neg fun hboth ↦ hrange hboth.1] at h
      contradiction

/-- A block that is there is returned, and nothing changes. -/
theorem bmap_of_lookup {disk : Disk} {ip : Inode} {bn addr : Word}
    (h : lookup disk ip.toDinode bn = some addr) : bmap disk ip bn = some (addr, ip, disk) := by
  rw [bmap_eq]
  by_cases htype : ip.type = .extent
  · rw [lookup_extent htype, Addrs.addrOf, Option.map_eq_some_iff] at h
    obtain ⟨k, hslot, rfl⟩ := h
    rw [if_pos htype, bmapExtent_of_slot _ _ _ hslot]
    rfl
  · rw [if_neg htype]
    unfold bmapPointer
    obtain ⟨i, hbn, hset, rfl⟩ | ⟨j, hj, hbn, hindirect, hentry, rfl⟩ :=
      lookup_pointer_cases htype h
    · have hindex : (⟨bn.toNat, by omega⟩ : Fin 13) = i.castSucc := Fin.ext hbn
      rw [dif_pos (by omega), hindex, if_neg hset]
      rfl
    · have hindex : bn.toNat - 12 = j := by omega
      have hrange : bn.toNat < 140 := by omega
      rw [dif_neg (by omega), if_pos hrange, hindex]
      simp only [indirectBlock, if_neg hindirect, indirectEntry, if_neg hentry,
        Option.bind_eq_bind, Option.bind_some, Option.pure_def]
      rfl

end OS537.XV6
