import OS537.XV6.Zeroed

/-!
# Where a later call finds a block

A call of `bmap` that `Keeps` its block returns the address at which every later call finds it, and
leaves the addresses of the other blocks of the inode alone. The block comes with zeros, as the
free blocks of the disk do; `balloc` scans whole bitmap blocks, and what lies past the end of the
disk is not known to be zero.
-/

namespace OS537.XV6

open Bytes

variable {disk disk' : Disk} {node : Dinode} {ip ip' : Inode} {addrs addrs' : Addrs}
  {bn other addr : Word}

/-! ## Calls that keep their block -/

/-- The next `n` blocks that `balloc` hands out are on the disk. -/
def Disk.Provides : (n : ℕ) → Disk → Prop
  | 0, _ => True
  | n + 1, disk =>
    match balloc disk with
    | none => True
    | some (b, disk') => b.toNat < disk.size ∧ Provides n disk'

instance decidableProvides : (n : ℕ) → (disk : Disk) → Decidable (disk.Provides n)
  | 0, _ => isTrue trivial
  | n + 1, disk =>
    match hballoc : balloc disk with
    | none => isTrue (by rw [Disk.Provides, hballoc]; trivial)
    | some (b, disk') =>
      have := decidableProvides n disk'
      decidable_of_iff (b.toNat < disk.size ∧ disk'.Provides n) (by rw [Disk.Provides, hballoc])

/-- The number of blocks that `bmap` allocates for a missing block. -/
def Dinode.wants (node : Dinode) (bn : Word) : ℕ :=
  if node.type ≠ .extent ∧ 12 ≤ bn.toNat ∧ node.addrs 12 = 0 then 2 else 1

/-- A block that is missing can be recorded, and there is room for it on the disk. -/
structure Keeps (disk : Disk) (node : Dinode) (bn : Word) : Prop where
  recorded : ¬ Loses disk node bn
  room : lookup disk node bn = none → disk.Provides (node.wants bn)

instance (disk : Disk) (node : Dinode) (bn : Word) : Decidable (Keeps disk node bn) :=
  decidable_of_iff (¬ Loses disk node bn ∧
      (lookup disk node bn = none → disk.Provides (node.wants bn)))
    ⟨fun h ↦ ⟨h.1, h.2⟩, fun h ↦ ⟨h.recorded, h.room⟩⟩

theorem Disk.Provides.succ {n : ℕ} (h : disk.Provides (n + 1)) (hfree : disk.NextFree addr) :
    addr.toNat < disk.size ∧ (disk.mark addr).Provides n := by
  rw [Disk.Provides, balloc_eq_some_iff.mpr ⟨hfree, rfl⟩] at h
  exact h

theorem Dinode.wants_pos (node : Dinode) (bn : Word) : ∃ n, node.wants bn = n + 1 := by
  unfold Dinode.wants
  split
  · exact ⟨1, rfl⟩
  · exact ⟨0, rfl⟩

/-- The first block that a call allocates is on the disk. -/
theorem Keeps.first_lt (h : Keeps disk node bn) (hmissing : lookup disk node bn = none)
    (hfree : disk.NextFree addr) : addr.toNat < disk.size := by
  obtain ⟨n, hwants⟩ := node.wants_pos bn
  have hroom := h.room hmissing
  rw [hwants] at hroom
  exact (hroom.succ hfree).1

/-- A pointer does not take block 0. -/
theorem Keeps.first_ne_zero (h : Keeps disk node bn) (htype : node.type ≠ .extent)
    (hmissing : lookup disk node bn = none) (hfree : disk.NextFree addr) : addr ≠ 0 := by
  intro hzero
  refine h.recorded ⟨hmissing, addr, Disk.nextFree_eq_some_iff.mpr hfree, ?_⟩
  rw [unrecorded, if_neg htype, hzero]
  rfl

theorem load32_zero {store : Store} {pos : ℕ} (h : ∀ i < 4, store (pos + i) = 0) :
    load32 store pos = 0 := by
  have hzero : loadLE store pos 4 = loadLE (fun _ ↦ 0) 0 4 := loadLE_congr pos 0 4 h
  rw [load32, hzero]
  rfl

theorem Disk.ZeroBlock.entry_eq {b : Word} (h : disk.ZeroBlock b) {j : ℕ} (hj : j < 128) :
    disk.entry b j = 0 :=
  load32_zero fun i hi ↦ h (4 * j + i) (by omega)

/-- Free blocks that are zero have no entries. -/
theorem Keeps.strays_eq (h : Keeps disk node bn) (hzero : disk.FreeZero) :
    strays disk node bn = [] := by
  cases hlookup : lookup disk node bn with
  | some found => exact strays_of_lookup hlookup
  | none =>
    cases hnext : disk.nextFree with
    | none => rw [strays, hnext]
    | some free =>
      have hfree := Disk.nextFree_eq_some_iff.mp hnext
      rw [strays, hnext]
      dsimp only
      by_cases htype : node.type = .extent
      · rw [if_pos htype, if_neg]
        rintro ⟨-, hgrowing, hwide⟩
        refine h.recorded ⟨hlookup, free, hnext, ?_⟩
        simp only [unrecorded, htype, if_true, hgrowing, hwide, decide_true]
      · rw [if_neg htype]
        split
        · have hblock := hzero free (h.first_lt hlookup hfree) hfree.clear
          refine List.flatMap_eq_nil_iff.mpr fun j hj ↦ ?_
          rw [hblock.entry_eq (List.mem_range.mp hj)]
          exact pointerBlock_zero
        · rfl

/-! ## Extents -/

/-- The extents hold blocks of the first `MAXFILE` only. -/
def Addrs.Short (addrs : Addrs) : Prop :=
  ∀ k, (addrs.start k).toNat + (extentLength (addrs.packed k)).toNat ≤ 140

theorem Addrs.short_zero : Addrs.Short fun _ ↦ 0 := by
  intro k
  have hlength : (extentLength 0).toNat = 0 := rfl
  change 0 + (extentLength 0).toNat ≤ 140
  omega

/-- In short extents a block number does not wrap around. -/
theorem Addrs.Short.growing_toNat (h : addrs.Short) {k : Fin 6}
    (hgrowing : addrs.growing bn addr = some k) :
    bn.toNat = (addrs.start k).toNat + (extentLength (addrs.packed k)).toNat := by
  have hprecedes := List.find?_some (Addrs.growing_eq_some_iff.mp hgrowing).1
  have htoNat := congrArg BitVec.toNat (beq_iff_eq.mp hprecedes)
  have hshort := h k
  rw [BitVec.toNat_add] at htoNat
  omega

theorem Keeps.lasting (h : Keeps disk node bn) (hshort : node.addrs.Short)
    (hrange : bn.toNat < 140) : Lasting disk node bn := by
  refine ⟨h.recorded, fun _ ↦ ⟨by omega, fun free _ k hgrowing ↦ ?_⟩⟩
  have hbn := hshort.growing_toNat hgrowing
  rw [BitVec.le_def]
  omega

theorem Addrs.Short.bmapExtent (h : addrs.Short) (hrange : bn.toNat < 140)
    (hrun : bmapExtent disk addrs bn = some (addr, addrs', disk')) : addrs'.Short := by
  obtain ⟨k, -, -, rfl, -⟩ | ⟨-, -, -, hrecord⟩ := bmapExtent_cases hrun
  · exact h
  · obtain ⟨k, hgrowing, rfl⟩ | ⟨k, -, -, rfl⟩ := hrecord
    · intro j
      have hshort := h j
      rw [Addrs.grow_start]
      by_cases hj : j = k
      · have hbn := h.growing_toNat hgrowing
        subst hj
        rw [Addrs.grow_packed_self, extentLength_succ (by omega)]
        omega
      · rwa [Addrs.grow_packed_of_ne _ _ hj]
    · intro j
      by_cases hj : j = k
      · rw [hj, Addrs.fill_start_self, Addrs.fill_packed_self, extentLength_single]
        omega
      · rw [Addrs.fill_start_of_ne _ _ _ _ hj, Addrs.fill_packed_of_ne _ _ _ _ hj]
        exact h j

/-! ## Pointers -/

/-- Two inodes with pointers have a block at the same address if the one pointer to it, direct or
indirect, is the same. -/
theorem lookup_pointer_congr {node' : Dinode} (htype : node.type ≠ .extent)
    (htype' : node'.type ≠ .extent)
    (hdirect : ∀ i : Fin 12, other.toNat = i → node'.addrs i.castSucc = node.addrs i.castSucc)
    (hindirect : ∀ j < 128, other.toNat = j + 12 →
      lookup disk' node' other = lookup disk node other) :
    lookup disk' node' other = lookup disk node other := by
  by_cases hlow : other.toNat < 12
  · rw [lookup_direct htype (i := ⟨other.toNat, hlow⟩) rfl,
      lookup_direct htype' (i := ⟨other.toNat, hlow⟩) rfl, hdirect ⟨other.toNat, hlow⟩ rfl]
  · by_cases hrange : other.toNat < 140
    · exact hindirect (other.toNat - 12) (by omega) (by omega)
    · rw [lookup, lookup, if_neg htype, if_neg htype', dif_neg hlow, dif_neg hlow,
        if_neg fun h ↦ hrange h.1, if_neg fun h ↦ hrange h.1]

/-- The entry of the indirect block that `bmap` sets is found, and no other pointer changes. -/
theorem lookup_setEntry (disk : Disk) (htype : node.type ≠ .extent) {j : ℕ} (hj : j < 128)
    (hbn : bn.toNat = j + 12) (hset : node.addrs 12 ≠ 0) (haddr : addr ≠ 0) :
    lookup (disk.setEntry (node.addrs 12) j addr) node bn = some addr ∧
      ∀ other ≠ bn, lookup (disk.setEntry (node.addrs 12) j addr) node other =
        lookup disk node other := by
  constructor
  · rw [lookup_indirect htype hj hbn, entry_setEntry_self, if_neg (not_or_intro hset haddr)]
  · intro other hother
    refine lookup_pointer_congr htype htype (fun _ _ ↦ rfl) fun i hi hindex ↦ ?_
    have hne : i ≠ j := by
      rintro rfl
      exact hother (BitVec.eq_of_toNat_eq (hindex.trans hbn.symm))
    rw [lookup_indirect htype hi hindex, lookup_indirect htype hi hindex, entry_setEntry_of_ne hne]

/-- A new indirect block without entries adds no block. -/
theorem lookup_newIndirect {node' : Dinode} {indirect : Word} (htype : node.type ≠ .extent)
    (hnode : node' = { node with addrs := Function.update node.addrs 12 indirect })
    (hclear : node.addrs 12 = 0) (hzero : disk.ZeroBlock indirect) (other : Word) :
    lookup (disk.mark indirect) node' other = lookup disk node other := by
  have htype' : node'.type ≠ .extent := by rwa [hnode]
  have haddrs : node'.addrs = Function.update node.addrs 12 indirect := by rw [hnode]
  refine lookup_pointer_congr htype htype' (fun i _ ↦ ?_) fun j hj hindex ↦ ?_
  · rw [haddrs]
    refine Function.update_of_ne (fun heq ↦ ?_) _ _
    have hval : (i : ℕ) = 12 := congrArg Fin.val heq
    omega
  · have hentry : (disk.mark indirect).entry (node'.addrs 12) j = 0 := by
      rw [haddrs, Function.update_self]
      exact hzero.entry_eq hj
    rw [lookup_indirect htype hj hindex, lookup_indirect htype' hj hindex, if_pos (Or.inl hclear),
      if_pos (Or.inr hentry)]

/-- The direct pointer that `bmap` sets is found, and no other pointer changes. -/
theorem lookup_newDirect (disk : Disk) {node' : Dinode} {i : Fin 12} (htype : node.type ≠ .extent)
    (hnode : node' = { node with addrs := Function.update node.addrs i.castSucc addr })
    (hbn : bn.toNat = i) (haddr : addr ≠ 0) :
    lookup (disk.mark addr) node' bn = some addr ∧
      ∀ other ≠ bn, lookup (disk.mark addr) node' other = lookup disk node other := by
  have htype' : node'.type ≠ .extent := by rwa [hnode]
  have haddrs : node'.addrs = Function.update node.addrs i.castSucc addr := by rw [hnode]
  constructor
  · rw [lookup_direct htype' hbn, haddrs, Function.update_self, if_neg haddr]
  · intro other hother
    refine lookup_pointer_congr htype htype' (fun j hj ↦ ?_) fun j hj hindex ↦ ?_
    · rw [haddrs]
      refine Function.update_of_ne (fun heq ↦ hother ?_) _ _
      rw [Fin.castSucc_inj.mp heq, ← hbn] at hj
      exact BitVec.eq_of_toNat_eq hj
    · have hlast : node'.addrs 12 = node.addrs 12 := by
        rw [haddrs]
        refine Function.update_of_ne (fun heq ↦ ?_) _ _
        have hval : 12 = (i : ℕ) := congrArg Fin.val heq
        omega
      rw [lookup_indirect htype' hj hindex, hlast, lookup_indirect htype hj hindex]
      rfl

theorem Disk.used_of_mark {b first : Word} (h : (disk.mark first).used b = false) :
    disk.used b = false := by
  rw [Disk.mark_used, Function.update_apply] at h
  by_cases heq : b = first
  · rw [if_pos heq] at h
    contradiction
  · rwa [if_neg heq] at h

/-- The block after the first free one is not block 0 either. -/
theorem Disk.NextFree.ne_zero_of_mark {first : Word} (hfirst : disk.NextFree first)
    (hfree : (disk.mark first).NextFree addr) : addr ≠ 0 := by
  rintro rfl
  by_cases hzero : first = 0
  · have hclear := hfree.clear
    rw [hzero, Disk.mark_used, Function.update_self] at hclear
    contradiction
  · have hpos : (0 : Word).toNat < first.toNat := by
      refine Nat.pos_of_ne_zero fun heq ↦ hzero ?_
      exact BitVec.eq_of_toNat_eq heq
    have hused := hfirst.lowest 0 hpos
    rw [Disk.used_of_mark hfree.clear] at hused
    contradiction

/-- Loading or allocating the indirect block changes no lookup, and leaves a block for the data. -/
theorem Keeps.indirectBlock_lookup (h : Keeps disk node bn) (hzero : disk.FreeZero)
    (htype : node.type ≠ .extent) (hbn : 12 ≤ bn.toNat) (hmissing : lookup disk node bn = none)
    {indirect : Word} (hrun : indirectBlock disk node.addrs = some (indirect, addrs', disk')) :
    addrs' 12 = indirect ∧ indirect ≠ 0 ∧
      (∀ b, disk'.NextFree b → b ≠ 0 ∧ b.toNat < disk.size ∧ disk.used b = false) ∧
      ∀ other, lookup disk' { node with addrs := addrs' } other = lookup disk node other := by
  obtain ⟨hset, rfl, rfl, rfl⟩ | ⟨hclear, hfirst, rfl, rfl⟩ := indirectBlock_cases hrun
  · exact ⟨rfl, hset, fun b hfree ↦
      ⟨h.first_ne_zero htype hmissing hfree, h.first_lt hmissing hfree, hfree.clear⟩, fun _ ↦ rfl⟩
  · have hblock := hzero indirect (h.first_lt hmissing hfirst) hfirst.clear
    have hroom := h.room hmissing
    rw [Dinode.wants, if_pos ⟨htype, hbn, hclear⟩] at hroom
    exact ⟨Function.update_self _ _ _, h.first_ne_zero htype hmissing hfirst,
      fun b hfree ↦ ⟨hfirst.ne_zero_of_mark hfree, ((hroom.succ hfirst).2.succ hfree).1,
        Disk.used_of_mark hfree.clear⟩, lookup_newIndirect htype rfl hclear hblock⟩

/-! ## Both maps -/

/-- The new block of a file: it was free and on the disk, it is found, and the others stay. -/
structure Adds (disk : Disk) (node : Dinode) (bn : Word) (disk' : Disk) (node' : Dinode)
    (addr : Word) : Prop where
  found : lookup disk' node' bn = some addr
  others : ∀ other ≠ bn, lookup disk' node' other = lookup disk node other
  inside : addr.toNat < disk.size
  clear : disk.used addr = false

theorem Keeps.bmapPointer_adds (h : Keeps disk node bn) (hzero : disk.FreeZero)
    (htype : node.type ≠ .extent) (hmissing : lookup disk node bn = none)
    (hrun : bmapPointer disk node.addrs bn = some (addr, addrs', disk')) :
    Adds disk node bn disk' { node with addrs := addrs' } addr := by
  obtain ⟨i, hbn, hset, -⟩ | ⟨i, hbn, -, hfree, rfl, rfl⟩ |
    ⟨j, hj, hbn, indirect, disk₁, hindirect, hentry⟩ := bmapPointer_cases hrun
  · rw [lookup_direct htype hbn, if_neg hset] at hmissing
    contradiction
  · obtain ⟨hfound, hothers⟩ :=
      lookup_newDirect disk htype rfl hbn (h.first_ne_zero htype hmissing hfree)
    exact ⟨hfound, hothers, h.first_lt hmissing hfree, hfree.clear⟩
  · obtain ⟨rfl, hset, hnext, hsame⟩ :=
      h.indirectBlock_lookup hzero htype (by omega) hmissing hindirect
    have htype' : ({ node with addrs := addrs' } : Dinode).type ≠ .extent := htype
    obtain ⟨hthere, -⟩ | ⟨-, hfree, rfl⟩ := indirectEntry_cases hentry
    · rw [← hsame bn, lookup_indirect htype' hj hbn, if_neg (not_or_intro hset hthere)] at hmissing
      contradiction
    · obtain ⟨hne, hlt, hclear⟩ := hnext addr hfree
      obtain ⟨hfound, hothers⟩ := lookup_setEntry (disk₁.mark addr) htype' hj hbn hset hne
      exact ⟨hfound, fun other hother ↦ (hothers other hother).trans (hsame other), hlt, hclear⟩

theorem Keeps.bmapExtent_adds (h : Keeps disk node bn) (htype : node.type = .extent)
    (hrange : bn.toNat < 140) (hshort : node.addrs.Short) (hmissing : lookup disk node bn = none)
    (hrun : bmapExtent disk node.addrs bn = some (addr, addrs', disk')) :
    Adds disk node bn disk' { node with addrs := addrs' } addr := by
  have htype' : ({ node with addrs := addrs' } : Dinode).type = .extent := htype
  obtain ⟨hfound, hothers⟩ := bmapExtent_addrOf htype (h.lasting hshort hrange) hrun
  obtain ⟨k, hslot, -⟩ | ⟨-, hfree, -⟩ := bmapExtent_cases hrun
  · rw [lookup_extent htype, Addrs.addrOf, hslot] at hmissing
    contradiction
  · refine ⟨(lookup_extent htype' bn).trans hfound, fun other hother ↦ ?_,
      h.first_lt hmissing hfree, hfree.clear⟩
    rw [lookup_extent htype, ← hothers other hother]
    exact lookup_extent htype' other

/-- A call of `bmap` for a missing block adds it to the file. -/
theorem Keeps.bmap_adds (h : Keeps disk ip.toDinode bn) (hzero : disk.FreeZero)
    (hrange : bn.toNat < 140) (hshort : ip.type = .extent → ip.addrs.Short)
    (hmissing : lookup disk ip.toDinode bn = none)
    (hbmap : bmap disk ip bn = some (addr, ip', disk')) :
    Adds disk ip.toDinode bn disk' ip'.toDinode addr := by
  rw [bmap_eq] at hbmap
  obtain ⟨⟨found, addrs', last⟩, hrun, hresult⟩ := Option.map_eq_some_iff.mp hbmap
  cases hresult
  by_cases htype : ip.type = .extent
  · rw [if_pos htype] at hrun
    exact h.bmapExtent_adds htype hrange (hshort htype) hmissing hrun
  · rw [if_neg htype] at hrun
    exact h.bmapPointer_adds hzero htype hmissing hrun

theorem bmap_short (hrange : bn.toNat < 140) (hshort : ip.type = .extent → ip.addrs.Short)
    (hbmap : bmap disk ip bn = some (addr, ip', disk')) (htype : ip'.type = .extent) :
    ip'.addrs.Short := by
  rw [bmap_eq] at hbmap
  obtain ⟨⟨found, addrs', last⟩, hrun, hresult⟩ := Option.map_eq_some_iff.mp hbmap
  cases hresult
  have htype' : ip.type = .extent := htype
  rw [if_pos htype'] at hrun
  exact (hshort htype').bmapExtent hrange hrun

end OS537.XV6
