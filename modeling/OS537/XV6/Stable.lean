import OS537.XV6.Leaks

/-!
# Stability of the extent map

A call of `bmap` on an extent inode that is `Lasting` leaves its block where a later search finds
it, and leaves the address of every other block alone. What other inodes allocate and free in
between does not matter, since the map is in the inode.
-/

namespace OS537.XV6

open Bytes Run

variable {disk disk' : Disk} {addrs : Addrs} {bn other addr : Word} {k : Fin 6}

/-- The search finds the only extent that covers the block. -/
theorem slotOf_of_unique (h : ∀ j, addrs.covers bn j = true ↔ j = k) :
    addrs.slotOf bn = some k := by
  cases hslot : addrs.slotOf bn with
  | none =>
    have hcovers := List.find?_eq_none.mp hslot k (List.mem_finRange k)
    exact absurd ((h k).mpr rfl) hcovers
  | some j =>
    rw [(h j).mp (List.find?_some hslot)]

theorem not_covers_of_slotOf (h : addrs.slotOf bn = none) (j : Fin 6) :
    addrs.covers bn j = false := by
  have hcovers := List.find?_eq_none.mp h j (List.mem_finRange j)
  rwa [Bool.not_eq_true] at hcovers

theorem slotOf_congr {addrs' : Addrs} (h : ∀ j, addrs'.covers bn j = addrs.covers bn j) :
    addrs'.slotOf bn = addrs.slotOf bn := by
  have hcovers : addrs'.covers bn = addrs.covers bn := funext h
  rw [Addrs.slotOf, Addrs.slotOf, hcovers]

theorem covers_congr {addrs' : Addrs} (hpacked : addrs'.packed k = addrs.packed k)
    (hstart : addrs'.start k = addrs.start k) : addrs'.covers bn k = addrs.covers bn k := by
  rw [Addrs.covers, Addrs.covers, hpacked, hstart]

/-! ## Growing an extent -/

section Grow

variable (hgrowing : addrs.growing bn addr = some k) (hstart : addrs.start k ≤ bn)
  (hroom : (extentLength (addrs.packed k)).toNat ≠ 255) (hlast : bn.toNat ≠ 2 ^ 32 - 1)

include hgrowing hstart in
theorem growing_toNat :
    bn.toNat = (addrs.start k).toNat + (extentLength (addrs.packed k)).toNat := by
  have hprecedes := List.find?_some (Addrs.growing_eq_some_iff.mp hgrowing).1
  simp only [Addrs.precedes, beq_iff_eq] at hprecedes
  have htoNat := congrArg BitVec.toNat hprecedes
  have hlength := extentLength_lt (addrs.packed k)
  have hlt := (addrs.start k).isLt
  rw [BitVec.le_def] at hstart
  rw [BitVec.toNat_add] at htoNat
  omega

include hgrowing hstart hroom hlast in
theorem grow_covers (j : Fin 6) : (addrs.grow k).covers other j = true ↔
    addrs.covers other j = true ∨ j = k ∧ other = bn := by
  by_cases hj : j = k
  · have hbn := growing_toNat hgrowing hstart
    have hlt := bn.isLt
    rw [hj, covers_iff, covers_iff, Addrs.grow_start, Addrs.grow_packed_self,
      extentLength_succ hroom, BitVec.toNat_eq]
    omega
  · rw [covers_congr (addrs.grow_packed_of_ne k hj) (addrs.grow_start k j)]
    simp [hj]

include hgrowing hstart hroom hlast in
theorem grow_lookup (hslot : addrs.slotOf bn = none) :
    (addrs.grow k).slotOf bn = some k ∧ (addrs.grow k).addrIn bn k = addr := by
  constructor
  · apply slotOf_of_unique
    intro j
    rw [grow_covers hgrowing hstart hroom hlast]
    simp [not_covers_of_slotOf hslot j]
  · have hadjoins := Addrs.adjoins_iff.mp (Addrs.growing_eq_some_iff.mp hgrowing).2
    have hoffset : bn - addrs.start k = extentLength (addrs.packed k) := by
      apply BitVec.eq_of_toNat_eq
      have hbn := growing_toNat hgrowing hstart
      rw [BitVec.toNat_sub_of_le hstart]
      omega
    rw [Addrs.addrIn, Addrs.grow_start, Addrs.grow_packed_self, extentBase_succ hroom, hoffset,
      hadjoins]

end Grow

/-! ## Filling a slot -/

section Fill

variable (hfill : addrs.fillBlock = some k) (hlast : bn.toNat ≠ 2 ^ 32 - 1)

include hfill in
theorem ne_of_covers {j : Fin 6} (hcovers : addrs.covers other j = true) : j ≠ k := by
  rintro rfl
  have hlength : (extentLength (addrs.packed j)).toNat = 0 := by
    rw [Addrs.packed_fillBlock hfill]
    rfl
  have hrange := covers_iff.mp hcovers
  omega

include hfill hlast in
theorem fill_covers (addr : Word) (j : Fin 6) : (addrs.fill k addr bn).covers other j = true ↔
    addrs.covers other j = true ∨ j = k ∧ other = bn := by
  by_cases hj : j = k
  · have hlength : (extentLength (addrs.packed k)).toNat = 0 := by
      rw [Addrs.packed_fillBlock hfill]
      rfl
    have hlt := bn.isLt
    rw [hj, covers_iff, covers_iff, Addrs.fill_start_self, Addrs.fill_packed_self,
      extentLength_single, hlength, BitVec.toNat_eq]
    omega
  · rw [covers_congr (addrs.fill_packed_of_ne k addr bn hj) (addrs.fill_start_of_ne k addr bn hj)]
    simp [hj]

include hfill hlast in
theorem fill_lookup (hslot : addrs.slotOf bn = none) (hfits : addr.toNat < 2 ^ 24) :
    (addrs.fill k addr bn).slotOf bn = some k ∧ (addrs.fill k addr bn).addrIn bn k = addr := by
  constructor
  · apply slotOf_of_unique
    intro j
    rw [fill_covers hfill hlast]
    simp [not_covers_of_slotOf hslot j]
  · rw [Addrs.addrIn, Addrs.fill_start_self, Addrs.fill_packed_self, extentBase_single hfits,
      BitVec.sub_self, BitVec.add_zero]

end Fill

/-! ## Lasting calls -/

theorem addrOf_congr {addrs' : Addrs} (hcovers : ∀ j, addrs'.covers bn j = addrs.covers bn j)
    (hbase : ∀ j, addrs.covers bn j = true →
      extentBase (addrs'.packed j) = extentBase (addrs.packed j))
    (hstart : ∀ j, addrs.covers bn j = true → addrs'.start j = addrs.start j) :
    addrs'.addrOf bn = addrs.addrOf bn := by
  rw [Addrs.addrOf, Addrs.addrOf, slotOf_congr hcovers]
  cases hslot : addrs.slotOf bn with
  | none => rfl
  | some j =>
    have hj := List.find?_some hslot
    rw [Option.map_some, Option.map_some, Addrs.addrIn, Addrs.addrIn, hbase j hj, hstart j hj]

/-- A block that is not there yet is recorded so that the search finds it again: it is not lost,
and neither its number nor the end of the extent that takes it wraps around. -/
def Lasting (disk : Disk) (node : Dinode) (bn : Word) : Prop :=
  ¬ Loses disk node bn ∧
    (lookup disk node bn = none → bn.toNat ≠ 2 ^ 32 - 1 ∧
      ∀ free ∈ disk.nextFree, ∀ k, node.addrs.growing bn free = some k → node.addrs.start k ≤ bn)

theorem bmapExtent_addrOf {node : Dinode} {addrs' : Addrs} (htype : node.type = .extent)
    (hlasting : Lasting disk node bn)
    (h : bmapExtent disk node.addrs bn = some (addr, addrs', disk')) :
    addrs'.addrOf bn = some addr ∧ ∀ other ≠ bn, addrs'.addrOf other = node.addrs.addrOf other := by
  obtain ⟨k, hslot, rfl, rfl, rfl⟩ | ⟨hslot, hfree, rfl, hrecord⟩ := bmapExtent_cases h
  · exact ⟨by simp [Addrs.addrOf, hslot], fun _ _ ↦ rfl⟩
  have hlookup : lookup disk node bn = none := by simp [lookup_extent htype, Addrs.addrOf, hslot]
  have hnext := Disk.nextFree_eq_some_iff.mpr hfree
  obtain ⟨hlast, hwrap⟩ := hlasting.2 hlookup
  have hfits : unrecorded node bn addr = false := by
    rw [← Bool.not_eq_true]
    exact fun hlost ↦ hlasting.1 ⟨hlookup, addr, hnext, hlost⟩
  obtain ⟨k, hgrowing, rfl⟩ | ⟨k, hgrowing, hfill, rfl⟩ := hrecord
  · have hstart := hwrap addr hnext k hgrowing
    have hroom : (extentLength (node.addrs.packed k)).toNat ≠ 255 := by
      simp only [unrecorded, htype, if_true, hgrowing, beq_eq_false_iff_ne] at hfits
      exact fun hfull ↦ hfits (BitVec.eq_of_toNat_eq hfull)
    have hfound := grow_lookup hgrowing hstart hroom hlast hslot
    refine ⟨by rw [Addrs.addrOf, hfound.1, Option.map_some, hfound.2], fun other hother ↦ ?_⟩
    apply addrOf_congr
    · intro j
      rw [Bool.eq_iff_iff, grow_covers hgrowing hstart hroom hlast]
      simp [hother]
    · intro j _
      by_cases hj : j = k
      · rw [hj, Addrs.grow_packed_self, extentBase_succ hroom]
      · rw [Addrs.grow_packed_of_ne _ _ hj]
    · exact fun j _ ↦ Addrs.grow_start _ k j
  · have hshort : addr.toNat < 2 ^ 24 := by
      simp only [unrecorded, htype, if_true, hgrowing, decide_eq_false_iff_not, not_le] at hfits
      exact hfits
    have hfound := fill_lookup hfill hlast hslot hshort
    refine ⟨by rw [Addrs.addrOf, hfound.1, Option.map_some, hfound.2], fun other hother ↦ ?_⟩
    apply addrOf_congr
    · intro j
      rw [Bool.eq_iff_iff, fill_covers hfill hlast]
      simp [hother]
    · intro j hj
      rw [Addrs.fill_packed_of_ne _ _ _ _ (ne_of_covers hfill hj)]
    · intro j hj
      rw [Addrs.fill_start_of_ne _ _ _ _ (ne_of_covers hfill hj)]

/-! ## Runs -/

/-- What may happen to the map of one inode: a call of `bmap`, or other inodes allocate and free. -/
inductive MapCall where
  | bmap (bn : Word)
  | balloc
  | bfree (b : Word)

def Mapping.call (mapping : Mapping) : MapCall → Option Mapping
  | .bmap bn => mapping.map bn
  | .balloc => (balloc mapping.disk).map fun result ↦ { mapping with disk := result.2 }
  | .bfree b => (bfree mapping.disk b).map fun disk ↦ { mapping with disk := disk }

def Mapping.Lasts (mapping : Mapping) : MapCall → Prop
  | .bmap bn => Lasting mapping.disk mapping.ip.toDinode bn
  | .balloc => True
  | .bfree _ => True

def Mapping.IsExtent (mapping : Mapping) : Prop := mapping.ip.type = .extent

/-- The inode has the block at this address. -/
def Mapping.At (bn addr : Word) (mapping : Mapping) : Prop :=
  mapping.IsExtent ∧ mapping.ip.addrs.addrOf bn = some addr

theorem Mapping.At.bmap {mapping : Mapping} (h : mapping.At bn addr) :
    XV6.bmap mapping.disk mapping.ip bn = some (addr, mapping.ip, mapping.disk) :=
  bmap_of_lookup ((lookup_extent h.1 bn).trans h.2)

theorem Mapping.bmap_addrOf {mapping next : Mapping} (htype : mapping.IsExtent)
    (hlasts : mapping.Lasts (.bmap bn))
    (h : XV6.bmap mapping.disk mapping.ip bn = some (addr, next.ip, next.disk)) :
    next.At bn addr ∧
      ∀ other ≠ bn, next.ip.addrs.addrOf other = mapping.ip.addrs.addrOf other := by
  have hextent : mapping.ip.type = .extent := htype
  rw [bmap_eq, if_pos hextent] at h
  simp only [Option.map_eq_some_iff, Prod.exists, Prod.mk.injEq] at h
  obtain ⟨found, addrs', disk', hcode, rfl, hip, -⟩ := h
  have haddrs := bmapExtent_addrOf htype hlasts hcode
  rw [Mapping.At, Mapping.IsExtent, ← hip]
  exact ⟨⟨hextent, haddrs.1⟩, haddrs.2⟩

theorem Mapping.IsExtent.call {mapping next : Mapping} (call : MapCall) (h : mapping.IsExtent)
    (hcall : mapping.call call = some next) : next.IsExtent := by
  cases call with
  | bmap bn =>
    obtain ⟨addr, new, -, htype, -⟩ := Mapping.map_extends hcall
    exact htype.trans h
  | balloc =>
    obtain ⟨result, -, rfl⟩ := Option.map_eq_some_iff.mp hcall
    exact h
  | bfree b =>
    obtain ⟨disk', -, rfl⟩ := Option.map_eq_some_iff.mp hcall
    exact h

/-- No call moves a block. -/
theorem Mapping.At.call {mapping next : Mapping} (call : MapCall) (h : mapping.At bn addr)
    (hlasts : mapping.Lasts call) (hcall : mapping.call call = some next) : next.At bn addr := by
  cases call with
  | bmap other =>
    obtain ⟨⟨found, ip', disk'⟩, hbmap, rfl⟩ := Option.map_eq_some_iff.mp hcall
    have hother : (⟨disk', ip'⟩ : Mapping).At other found ∧ ∀ bn ≠ other,
        ip'.addrs.addrOf bn = mapping.ip.addrs.addrOf bn :=
      Mapping.bmap_addrOf h.1 hlasts hbmap
    by_cases hbn : bn = other
    · subst hbn
      rw [h.bmap, Option.some.injEq, Prod.mk.injEq, Prod.mk.injEq] at hbmap
      obtain ⟨-, rfl, -⟩ := hbmap
      exact h
    · exact ⟨hother.1.1, (hother.2 bn hbn).trans h.2⟩
  | balloc =>
    obtain ⟨result, -, rfl⟩ := Option.map_eq_some_iff.mp hcall
    exact h
  | bfree b =>
    obtain ⟨disk', -, rfl⟩ := Option.map_eq_some_iff.mp hcall
    exact h

/-- Once `bmap` has returned an address for a block of an extent inode, it returns that address
after any run of lasting calls, and changes nothing. -/
theorem bmap_stable_of_lasting {mapping first second last : Mapping} {before after : List MapCall}
    (htype : mapping.IsExtent)
    (hlasts : Guarded Mapping.call Mapping.Lasts mapping (before ++ .bmap bn :: after))
    (hbefore : Run.run Mapping.call mapping before = some first)
    (hbmap : bmap first.disk first.ip bn = some (addr, second.ip, second.disk))
    (hafter : Run.run Mapping.call second after = some last) :
    bmap last.disk last.ip bn = some (addr, last.ip, last.disk) := by
  obtain ⟨hlastsBefore, hlastsCall, hlastsAfter⟩ := hlasts.of_append hbefore
  have hfirst : first.IsExtent := hlastsBefore.invariant_of_run
    (fun state call next hextent _ hcall ↦ hextent.call call hcall) htype hbefore
  have hsecond : second.At bn addr := (Mapping.bmap_addrOf hfirst hlastsCall hbmap).1
  have hcall : first.call (.bmap bn) = some second := by
    simp [Mapping.call, Mapping.map, hbmap]
  have hlast := (hlastsAfter second hcall).invariant_of_run
    (fun state call next hat hlasts hcall ↦ hat.call call hlasts hcall) hsecond hafter
  exact hlast.bmap

theorem filled_lasts {n : ℕ} (hn : n < 255) : (filled n).Lasts (.bmap (BitVec.ofNat 32 n)) := by
  refine ⟨(filled_recorded hn).1 rfl, fun _ ↦ ⟨?_, fun free _ k _ ↦ ?_⟩⟩
  · rw [BitVec.toNat_ofNat]
    omega
  · have hodd : ¬ ((⟨2 * k + 1, by omega⟩ : Fin 13) = 0 ∧ n ≠ 0) := by
      rintro ⟨hzero, -⟩
      have hval : 2 * (k : ℕ) + 1 = 0 := congrArg Fin.val hzero
      omega
    have hstart : (filled n).ip.addrs.start k = 0 := by
      change (filledAddrs n).start k = 0
      rw [Addrs.start, filledAddrs, if_neg hodd]
    rw [hstart, BitVec.le_def]
    exact Nat.zero_le _

/-- The first block of a new file stays where it is when the second one is added. -/
theorem first_block_stable :
    bmap (filled 2).disk (filled 2).ip 0 = some (29, (filled 2).ip, (filled 2).disk) := by
  have htype : (filled 0).IsExtent := rfl
  have hfirst : (filled 0).call (.bmap 0) = some (filled 1) := filled_step (by decide)
  have hsecond : (filled 1).call (.bmap 1) = some (filled 2) := filled_step (by decide)
  have hlasts : Guarded Mapping.call Mapping.Lasts (filled 0) ([] ++ .bmap 0 :: [.bmap 1]) := by
    refine ⟨filled_lasts (by decide), fun next hnext ↦ ?_⟩
    rw [Option.some.inj (hnext.symm.trans hfirst)]
    exact ⟨filled_lasts (by decide), fun _ _ ↦ trivial⟩
  exact bmap_stable_of_lasting htype hlasts rfl (filled_bmap (by decide))
    (Run.run_cons_of_step [] hsecond)

/-- The first block of a file of 255 adjacent blocks moves when the next one is added. -/
theorem first_block_moves :
    bmap (filled 255).disk (filled 255).ip 0 = some (29, (filled 255).ip, (filled 255).disk) ∧
      (filled 255).call (.bmap 255) = some (filled 256) ∧
      ∃ ip disk, bmap (filled 256).disk (filled 256).ip 0 = some (285, ip, disk) := by
  have hlookup : lookup (filled 255).disk (filled 255).ip.toDinode 0 = some 29 := by
    decide +kernel
  have hsearch : searchExtents (filledAddrs 256) 0 (List.finRange 6) none none =
      .missed (some 1) (some 5) := by
    decide +kernel
  have hballoc : balloc (filledDisk 256) = some (285, filledDisk 257) :=
    balloc_eq_some_iff.mpr
      ⟨filledDisk_nextFree (by decide), (filledDisk_mark (by decide)).symm⟩
  have hcode : bmapExtent (filledDisk 256) (filledAddrs 256) 0 =
      some (285, (filledAddrs 256).fill 1 285 0, filledDisk 257) := by
    have hrecord : (filledAddrs 256).record 0 285 (some 1) (some 5) =
        some ((filledAddrs 256).fill 1 285 0) := by
      decide +kernel
    simp only [bmapExtent, hsearch, hballoc, hrecord, Option.bind_eq_bind, Option.bind_some,
      Option.pure_def]
  have htype : (filled 256).ip.type = .extent := rfl
  refine ⟨bmap_of_lookup hlookup, filled_step (by decide), ?_⟩
  rw [bmap_eq, if_pos htype]
  change ∃ ip disk, (bmapExtent (filledDisk 256) (filledAddrs 256) 0).map _ = _
  rw [hcode]
  exact ⟨_, _, rfl⟩

end OS537.XV6
