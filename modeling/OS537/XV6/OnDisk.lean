import OS537.XV6.Leaks
import OS537.XV6.Lookups

/-!
# Blocks that are on the disk

`balloc` scans the bitmap a block of `BPB` bits at a time and does not stop at `sb.size`. As long as
the lowest clear bit belongs to the disk, every block that `bmap` returns or stores is on the disk
and was free, and the scan fails exactly when the disk is full. On a full disk whose last bitmap
block is used in part, the scan goes on past the end of the disk.
-/

namespace OS537.XV6

open Bytes Run

/-! ## Volumes -/

/-- A disk and the inodes in memory. -/
structure Volume where
  disk : Disk
  inode : ℕ → Inode

inductive BlockCall where
  | bmap (i : ℕ) (bn : Word)
  | itrunc (i : ℕ)

def Volume.step (volume : Volume) : BlockCall → Option Volume
  | .bmap i bn => (XV6.bmap volume.disk (volume.inode i) bn).map fun result ↦
      ⟨result.2.2, Function.update volume.inode i result.2.1⟩
  | .itrunc i => (XV6.itrunc volume.disk (volume.inode i)).map fun result ↦
      ⟨result.2, Function.update volume.inode i result.1⟩

/-- The metadata is marked as used, and the inodes have data blocks of the disk only. -/
structure Volume.InPlace (volume : Volume) : Prop where
  metadata : volume.disk.Formatted
  reached : ∀ i, ∀ b ∈ reach volume.disk (volume.inode i).toDinode, volume.disk.InData b

/-- `balloc` panics exactly when every block of the disk is marked as used. -/
def Disk.PanicsWhenFull (disk : Disk) : Prop :=
  balloc disk = none ↔ ∀ b : Word, b.toNat < disk.size → disk.used b = true

/-- A call of `bmap` uses blocks of the disk that were free, apart from those the inode has, and
each of its calls of `balloc` panics when the disk is full and only then. -/
structure MapsOnDisk (disk : Disk) (ip : Inode) (bn : Word) : Prop where
  first : lookup disk ip.toDinode bn = none → disk.PanicsWhenFull
  second : lookup disk ip.toDinode bn = none → ip.toDinode.wants bn = 2 →
    ∀ first, disk.NextFree first → (disk.mark first).PanicsWhenFull
  returned : ∀ addr ip' disk', bmap disk ip bn = some (addr, ip', disk') →
    disk.InData addr ∧ (lookup disk ip.toDinode bn = some addr ∨ disk.used addr = false)
  stored : ∀ addr ip' disk', bmap disk ip bn = some (addr, ip', disk') →
    ∀ b ∈ reach disk' ip'.toDinode, b ∈ reach disk ip.toDinode ∨
      disk.InData b ∧ disk.used b = false

/-- The blocks that a call allocates are on the disk, and it makes no others reachable. -/
def Volume.StaysOnDisk (volume : Volume) : BlockCall → Prop
  | .bmap i bn =>
    (lookup volume.disk (volume.inode i).toDinode bn = none →
      volume.disk.Provides ((volume.inode i).toDinode.wants bn)) ∧
    strays volume.disk (volume.inode i).toDinode bn = []
  | .itrunc _ => True

/-! ## Allocation -/

section Allocation

variable {disk disk' : Disk} {ip ip' : Inode} {bn addr : Word}

theorem balloc_eq_none_iff :
    balloc disk = none ↔ ∀ b : Word, b.toNat < disk.scanned → disk.used b = true := by
  constructor
  · intro hnone b hb
    by_contra hclear
    obtain ⟨bit, hfirst, hle⟩ : ∃ bit,
        Scan.first (fun bit ↦ !disk.used (BitVec.ofNat 32 bit)) disk.scanned = some bit ∧
          bit ≤ b.toNat :=
      Scan.exists_first_of_hit hb (by simpa using hclear)
    have htoNat : (BitVec.ofNat 32 bit).toNat = bit := by
      rw [BitVec.toNat_ofNat, Nat.mod_eq_of_lt (hle.trans_lt b.isLt)]
    have hfree : disk.NextFree (BitVec.ofNat 32 bit) := by
      rw [← disk.scan_eq_some_iff, htoNat, hfirst]
    rw [balloc_eq_some_iff.mpr ⟨hfree, rfl⟩] at hnone
    cases hnone
  · intro hfull
    cases hballoc : balloc disk with
    | none => rfl
    | some pair =>
      obtain ⟨hfree, -⟩ := balloc_eq_some_iff.mp hballoc
      have hused := hfull pair.1 hfree.scanned
      rw [hfree.clear] at hused
      cases hused

/-- The scan fails on a full disk, and only there, exactly when it finds no block past the end. -/
theorem Disk.panicsWhenFull_iff :
    disk.PanicsWhenFull ↔ ∀ b, disk.NextFree b → b.toNat < disk.size := by
  constructor
  · intro h b hfree
    by_contra hpast
    have hfull (other : Word) (hother : other.toNat < disk.size) : disk.used other = true :=
      hfree.lowest other (by omega)
    have hnone := h.mpr hfull
    rw [balloc_eq_some_iff.mpr ⟨hfree, rfl⟩] at hnone
    cases hnone
  · intro h
    refine ⟨fun hnone b hb ↦ ?_, fun hfull ↦ ?_⟩
    · exact balloc_eq_none_iff.mp hnone b (hb.trans_le disk.size_le_scanned)
    · cases hballoc : balloc disk with
      | none => rfl
      | some pair =>
        obtain ⟨hfree, -⟩ := balloc_eq_some_iff.mp hballoc
        have hused := hfull pair.1 (h pair.1 hfree)
        rw [hfree.clear] at hused
        cases hused

theorem Disk.Provides.panicsWhenFull {n : ℕ} (h : disk.Provides (n + 1)) : disk.PanicsWhenFull :=
  Disk.panicsWhenFull_iff.mpr fun _ hfree ↦ (h.succ hfree).1

/-- What a call of `bmap` does to the bitmap: blocks of the disk are marked, and the block that it
returns is one of them unless the inode has it. -/
structure Fresh (disk : Disk) (node : Dinode) (bn : Word) (disk' : Disk) (addr : Word) : Prop where
  ninodes : disk'.ninodes = disk.ninodes
  marked : ∀ b, disk'.used b = true → disk.used b = true ∨ b.toNat < disk.size
  addr : lookup disk node bn = some addr ∨ disk.used addr = false ∧ disk'.used addr = true

theorem Disk.used_mark_cases {b first : Word} (h : (disk.mark first).used b = true) :
    disk.used b = true ∨ b = first := by
  rw [Disk.mark_used, Function.update_apply] at h
  by_cases heq : b = first
  · exact Or.inr heq
  · rw [if_neg heq] at h
    exact Or.inl h

/-- One block is allocated. -/
theorem Fresh.one {n : ℕ} (hroom : disk.Provides (n + 1)) (hfree : disk.NextFree addr)
    (hninodes : disk'.ninodes = disk.ninodes) (hused : disk'.used = (disk.mark addr).used) :
    Fresh disk ip.toDinode bn disk' addr where
  ninodes := hninodes
  marked b hb := by
    rw [hused] at hb
    obtain hb | rfl := Disk.used_mark_cases hb
    · exact Or.inl hb
    · exact Or.inr (hroom.succ hfree).1
  addr := Or.inr ⟨hfree.clear, by simp [hused]⟩

/-- A block is allocated for the entries and one for the data. -/
theorem Fresh.two {first : Word} (hroom : disk.Provides 2) (hfirst : disk.NextFree first)
    (hfree : (disk.mark first).NextFree addr) (hninodes : disk'.ninodes = disk.ninodes)
    (hused : disk'.used = ((disk.mark first).mark addr).used) :
    Fresh disk ip.toDinode bn disk' addr where
  ninodes := hninodes
  marked b hb := by
    obtain ⟨hlt, hsecond⟩ := hroom.succ hfirst
    rw [hused] at hb
    obtain hb | rfl := Disk.used_mark_cases hb
    · obtain hb | rfl := Disk.used_mark_cases hb
      · exact Or.inl hb
      · exact Or.inr hlt
    · exact Or.inr (hsecond.succ hfree).1
  addr := Or.inr ⟨Disk.used_of_mark hfree.clear, by simp [hused]⟩

theorem wants_indirect (htype : ip.type ≠ .extent) {j : ℕ} (hbn : bn.toNat = j + 12)
    (hclear : ip.addrs 12 = 0) : ip.toDinode.wants bn = 2 :=
  if_pos ⟨htype, by omega, hclear⟩

theorem bmapPointer_fresh {addrs' : Addrs} (htype : ip.type ≠ .extent)
    (hmissing : lookup disk ip.toDinode bn = none)
    (hroom : disk.Provides (ip.toDinode.wants bn)) (hstrays : strays disk ip.toDinode bn = [])
    (h : bmapPointer disk ip.addrs bn = some (addr, addrs', disk')) :
    Fresh disk ip.toDinode bn disk' addr := by
  obtain ⟨n, hwants⟩ := ip.toDinode.wants_pos bn
  obtain ⟨i, hbn, hset, rfl, rfl, rfl⟩ | ⟨i, -, -, hfree, rfl, rfl⟩ |
    ⟨j, hj, hbn, indirect, disk₁, hindirect, hentry⟩ := bmapPointer_cases h
  · rw [lookup_direct htype hbn, if_neg hset] at hmissing
    cases hmissing
  · exact .one (hwants ▸ hroom) hfree rfl rfl
  · obtain ⟨hset, rfl, rfl, rfl⟩ | ⟨hclear, hfirst, rfl, rfl⟩ := indirectBlock_cases hindirect
    · obtain ⟨hentry', rfl, rfl⟩ | ⟨-, hfree, rfl⟩ := indirectEntry_cases hentry
      · rw [lookup_indirect htype hj hbn, if_neg (not_or.mpr ⟨hset, hentry'⟩)] at hmissing
        cases hmissing
      · exact .one (hwants ▸ hroom) hfree rfl rfl
    · obtain ⟨hentry', -, -⟩ | ⟨-, hfree, rfl⟩ := indirectEntry_cases hentry
      · -- an entry that is set in a new indirect block would be a stray
        have hmem : disk.entry indirect j ∈ disk.entryBlocks indirect := mem_entryBlocks hj hentry'
        rw [strays_pointer htype hfirst, if_pos ⟨by omega, hclear⟩] at hstrays
        rw [hstrays] at hmem
        cases hmem
      · rw [wants_indirect htype hbn hclear] at hroom
        exact .two hroom hfirst hfree rfl rfl

theorem bmap_fresh (hroom : lookup disk ip.toDinode bn = none →
      disk.Provides (ip.toDinode.wants bn)) (hstrays : strays disk ip.toDinode bn = [])
    (h : bmap disk ip bn = some (addr, ip', disk')) : Fresh disk ip.toDinode bn disk' addr := by
  cases hlookup : lookup disk ip.toDinode bn with
  | some found =>
    rw [bmap_of_lookup hlookup] at h
    cases h
    exact ⟨rfl, fun b hb ↦ Or.inl hb, Or.inl hlookup⟩
  | none =>
    rw [bmap_eq] at h
    simp only [Option.map_eq_some_iff, Prod.exists, Prod.mk.injEq] at h
    obtain ⟨found, addrs', disk₁, hcode, rfl, rfl, rfl⟩ := h
    by_cases htype : ip.type = .extent
    · rw [if_pos htype] at hcode
      obtain ⟨k, hslot, -⟩ | ⟨-, hfree, rfl, -⟩ := bmapExtent_cases hcode
      · rw [lookup_extent htype, Addrs.addrOf, hslot] at hlookup
        cases hlookup
      · obtain ⟨n, hwants⟩ := ip.toDinode.wants_pos bn
        exact .one (hwants ▸ hroom hlookup) hfree rfl rfl
    · rw [if_neg htype] at hcode
      exact bmapPointer_fresh htype hlookup (hroom hlookup) hstrays hcode

end Allocation

/-! ## What the inodes reach -/

/-- When entries are only cleared or set to new blocks, an inode reaches what it did and new
blocks. -/
theorem mem_reach_of_entries {disk disk' : Disk} {new : List Word} (node : Dinode)
    (hentry : ∀ b, ∀ j < 128, disk'.entry b j = 0 ∨ disk'.entry b j = disk.entry b j ∨
      disk'.entry b j ∈ new) :
    ∀ b ∈ reach disk' node, b ∈ reach disk node ∨ b ∈ new := by
  intro b hb
  by_cases htype : node.type = .extent
  · rw [reach_extent htype] at hb ⊢
    exact Or.inl hb
  · rw [reach_pointer htype, Disk.pointees, List.mem_append] at hb ⊢
    obtain hdirect | hindirect := hb
    · exact Or.inl (Or.inl hdirect)
    · unfold Disk.indirectBlocks at hindirect ⊢
      by_cases hset : node.addrs 12 = 0
      · rw [if_pos hset] at hindirect
        cases hindirect
      · rw [if_neg hset, List.mem_append] at hindirect ⊢
        obtain hmem | hlast := hindirect
        · obtain ⟨j, hj, hpointer⟩ := List.mem_flatMap.mp hmem
          obtain ⟨rfl, hne⟩ := mem_pointerBlock.mp hpointer
          have hj' := List.mem_range.mp hj
          obtain hzero | hsame | hnew := hentry (node.addrs 12) j hj'
          · exact absurd hzero hne
          · rw [hsame] at hne ⊢
            exact Or.inl (Or.inr (Or.inl (mem_entryBlocks hj' hne)))
          · exact Or.inr hnew
        · exact Or.inl (Or.inr (Or.inr hlast))

/-- A call of `bmap` sets one entry at most, to a block it has allocated. -/
theorem Extends.entry_cases {disk disk' : Disk} {node node' : Dinode} {bn addr : Word}
    {new : List Word} (h : Extends disk node bn disk' node' addr new) (b : Word) (j : ℕ) :
    disk'.entry b j = 0 ∨ disk'.entry b j = disk.entry b j ∨ disk'.entry b j ∈ new := by
  obtain hsame | ⟨k, -, entry, hmem, -, -, -, hblock⟩ := h.block
  · exact Or.inr (Or.inl (by rw [Disk.entry, hsame, Disk.entry]))
  · have hentry : disk'.entry b j = (disk.setEntry (node'.addrs 12) k entry).entry b j := by
      rw [Disk.entry, hblock, Disk.entry]
    rw [hentry]
    by_cases hb : b = node'.addrs 12
    · rw [hb]
      by_cases hj : j = k
      · rw [hj, entry_setEntry_self]
        exact Or.inr (Or.inr hmem)
      · rw [entry_setEntry_of_ne hj]
        exact Or.inr (Or.inl rfl)
    · rw [entry_setEntry_of_block_ne hb]
      exact Or.inr (Or.inl rfl)

/-- Truncation clears the entries of the blocks it frees. -/
theorem entry_truncated (disk : Disk) (ip : Inode) (blocks : List Word) (b : Word) {j : ℕ}
    (hj : j < 128) :
    (iupdate (disk.freedAll blocks) ip).entry b j = 0 ∨
      (iupdate (disk.freedAll blocks) ip).entry b j = disk.entry b j := by
  by_cases hb : b ∈ blocks
  · have hzero : (iupdate (disk.freedAll blocks) ip).ZeroBlock b := by
      intro i _
      simp only [iupdate, Disk.freedAll, if_pos hb]
    exact Or.inl (hzero.entry_eq hj)
  · right
    simp only [iupdate, Disk.freedAll, Disk.entry, if_neg hb]

theorem reach_truncated (disk : Disk) (ip : Inode) : reach disk ip.truncated.toDinode = [] := by
  by_cases htype : ip.type = .extent
  · have htype' : ip.truncated.type = .extent := htype
    have haddrs : ip.truncated.addrs = fun i ↦ if i = 12 then ip.addrs i else 0 := if_pos htype
    rw [reach_extent htype', Addrs.extents, List.flatMap_eq_nil_iff]
    intro k _
    apply Addrs.extentBlocks_eq_nil
    have hne : (⟨2 * k, by omega⟩ : Fin 13) ≠ 12 := by
      intro h
      have hval : 2 * (k : ℕ) = 12 := congrArg Fin.val h
      omega
    rw [haddrs, Addrs.packed, if_neg hne]
    rfl
  · exact reach_zero (if_neg htype)

/-! ## Steps -/

section Steps

variable {volume next : Volume} {i : ℕ} {bn : Word}

/-- The new blocks of a call are data blocks that were free. -/
theorem Volume.InPlace.new_inData (h : volume.InPlace) {disk' : Disk} {node' : Dinode} {addr : Word}
    {new : List Word}
    (hextends : Extends volume.disk (volume.inode i).toDinode bn disk' node' addr new)
    (hfresh : Fresh volume.disk (volume.inode i).toDinode bn disk' addr) :
    ∀ b ∈ new, volume.disk.InData b ∧ volume.disk.used b = false := by
  intro b hb
  have hclear := hextends.takes.clear b hb
  have hused := (hextends.takes.used_iff b).mpr (Or.inl hb)
  obtain hbefore | hlt := hfresh.marked b hused
  · rw [hbefore] at hclear
    cases hclear
  · exact ⟨h.metadata.inData hlt hclear, hclear⟩

/-- What a call of `bmap` that stays on the disk does. -/
theorem Volume.InPlace.mapsOnDisk (h : volume.InPlace)
    (hstays : volume.StaysOnDisk (.bmap i bn)) : MapsOnDisk volume.disk (volume.inode i) bn := by
  obtain ⟨hroom, hstrays⟩ := hstays
  refine ⟨fun hmissing ↦ ?_, fun hmissing hwants first hfirst ↦ ?_,
    fun addr ip' disk' hbmap ↦ ?_, fun addr ip' disk' hbmap b hb ↦ ?_⟩
  · obtain ⟨n, hwants⟩ := (volume.inode i).toDinode.wants_pos bn
    exact Disk.Provides.panicsWhenFull (hwants ▸ hroom hmissing)
  · have hboth := hroom hmissing
    rw [hwants] at hboth
    exact (hboth.succ hfirst).2.panicsWhenFull
  · have hfresh := bmap_fresh hroom hstrays hbmap
    obtain hfound | ⟨hclear, hused⟩ := hfresh.addr
    · exact ⟨h.reached i addr (lookup_mem_reach hfound), Or.inl hfound⟩
    · obtain hbefore | hlt := hfresh.marked addr hused
      · rw [hbefore] at hclear
        cases hclear
      · exact ⟨h.metadata.inData hlt hclear, Or.inr hclear⟩
  · have hfresh := bmap_fresh hroom hstrays hbmap
    obtain ⟨-, new, hextends⟩ := bmap_extends hbmap
    have hmem := hextends.subperm.subset hb
    rw [hstrays, List.nil_append] at hmem
    obtain hnew | hold := List.mem_append.mp hmem
    · exact Or.inr (h.new_inData hextends hfresh b hnew)
    · exact Or.inl hold

theorem Disk.InData.congr {disk disk' : Disk} (hninodes : disk'.ninodes = disk.ninodes)
    (hsize : disk'.size = disk.size) {b : Word} : disk'.InData b ↔ disk.InData b := by
  rw [Disk.InData, Disk.InData, Disk.metadata, Disk.metadata, hninodes, hsize]

theorem Volume.InPlace.bmap (h : volume.InPlace) (hstays : volume.StaysOnDisk (.bmap i bn))
    (hstep : volume.step (.bmap i bn) = some next) : next.InPlace := by
  obtain ⟨⟨addr, ip', disk'⟩, hbmap, rfl⟩ := Option.map_eq_some_iff.mp hstep
  obtain ⟨hroom, hstrays⟩ := id hstays
  have hfresh := bmap_fresh hroom hstrays hbmap
  obtain ⟨-, new, hextends⟩ := bmap_extends hbmap
  have hdata {b : Word} : disk'.InData b ↔ volume.disk.InData b :=
    Disk.InData.congr hfresh.ninodes hextends.takes.size
  refine ⟨fun b hb ↦ ?_, fun other b hb ↦ ?_⟩
  · have hmeta : disk'.metadata = volume.disk.metadata := by
      rw [Disk.metadata, Disk.metadata, hfresh.ninodes, hextends.takes.size]
    exact (hextends.takes.used_iff b).mpr (Or.inr (h.metadata b (hmeta ▸ hb)))
  · dsimp only at hb ⊢
    rw [hdata]
    by_cases hother : other = i
    · rw [hother, Function.update_self] at hb
      obtain hold | hnew := (h.mapsOnDisk hstays).stored addr ip' disk' hbmap b hb
      · exact h.reached i b hold
      · exact hnew.1
    · rw [Function.update_of_ne hother] at hb
      obtain hold | hnew := mem_reach_of_entries _ (fun b j _ ↦ hextends.entry_cases b j) b hb
      · exact h.reached other b hold
      · exact (h.new_inData hextends hfresh b hnew).1

theorem Volume.InPlace.itrunc (h : volume.InPlace) (hstep : volume.step (.itrunc i) = some next) :
    next.InPlace := by
  obtain ⟨⟨ip', disk'⟩, htrunc, rfl⟩ := Option.map_eq_some_iff.mp hstep
  obtain ⟨-, -, rfl, rfl⟩ := itrunc_eq_some_iff.mp htrunc
  refine ⟨fun b hb ↦ ?_, fun other b hb ↦ ?_⟩
  · have hmeta : b ∉ reach volume.disk (volume.inode i).toDinode := by
      intro hmem
      exact absurd (h.reached i b hmem).1 (Nat.not_le.mpr hb)
    have hused := h.metadata b hb
    simpa only [iupdate, Disk.freedAll, if_neg hmeta] using hused
  · dsimp only at hb ⊢
    let disk' := iupdate (volume.disk.freedAll (reach volume.disk (volume.inode i).toDinode))
      (volume.inode i).truncated
    have hentries (b : Word) (j : ℕ) (hj : j < 128) : disk'.entry b j = 0 ∨
        disk'.entry b j = volume.disk.entry b j ∨ disk'.entry b j ∈ [] :=
      (entry_truncated volume.disk _ _ b hj).imp_right Or.inl
    by_cases hother : other = i
    · rw [hother, Function.update_self] at hb
      rw [reach_truncated] at hb
      cases hb
    · rw [Function.update_of_ne hother] at hb
      obtain hold | hnew := mem_reach_of_entries _ hentries b hb
      · exact h.reached other b hold
      · cases hnew

theorem Volume.InPlace.step {call : BlockCall} (h : volume.InPlace)
    (hstays : volume.StaysOnDisk call) (hstep : volume.step call = some next) : next.InPlace := by
  cases call with
  | bmap i bn => exact h.bmap hstays hstep
  | itrunc i => exact h.itrunc hstep

end Steps

/-! ## Runs -/

/-- In a run all of whose calls of `bmap` find the blocks they allocate on the disk, the inodes have
data blocks of the disk only, and every further such call returns and stores a block of the inode or
one that was free; `balloc` panics when the disk is full and only then. -/
theorem blocks_on_disk_of_run {start final : Volume} {calls : List BlockCall}
    (hstart : start.InPlace) (hguarded : Guarded Volume.step Volume.StaysOnDisk start calls)
    (hrun : run Volume.step start calls = some final) :
    final.InPlace ∧ ∀ i bn, final.StaysOnDisk (.bmap i bn) →
      MapsOnDisk final.disk (final.inode i) bn := by
  have hfinal : final.InPlace :=
    hguarded.invariant_of_run (fun _ _ _ h hstays hstep ↦ h.step hstays hstep) hstart hrun
  exact ⟨hfinal, fun i bn hstays ↦ hfinal.mapsOnDisk hstays⟩

/-- The disk of `filledDisk` with empty inodes, a `T_EXTENT` inode and `T_FILE` inodes. -/
def emptyVolume (n : ℕ) : Volume where
  disk := filledDisk n
  inode i := { (filled 0).ip with type := if i = 0 then .extent else .file }

theorem emptyVolume_inPlace (n : ℕ) : (emptyVolume n).InPlace := by
  refine ⟨fun b hb ↦ ?_, fun i b hb ↦ ?_⟩
  · change b.toNat < 200 / 8 + 3 + (1024 + 4095) / 4096 at hb
    exact decide_eq_true (by omega)
  · rw [reach_of_empty fun j ↦ by simp [emptyVolume, filled, filledAddrs]] at hb
    cases hb

/-- The first block of an inode. -/
theorem first_block_on_disk :
    ∃ final, run Volume.step (emptyVolume 0) [.bmap 0 0] = some final ∧ final.InPlace := by
  have hstays : (emptyVolume 0).StaysOnDisk (.bmap 0 0) := by
    refine ⟨fun _ ↦ ?_, ?_⟩ <;> decide +kernel
  have hguarded : Guarded Volume.step Volume.StaysOnDisk (emptyVolume 0) [.bmap 0 0] :=
    ⟨hstays, fun _ _ ↦ trivial⟩
  have hdefined : (run Volume.step (emptyVolume 0) [.bmap 0 0]).isSome = true := by decide +kernel
  obtain ⟨final, hrun⟩ := Option.isSome_iff_exists.mp hdefined
  exact ⟨final, hrun, (blocks_on_disk_of_run (emptyVolume_inPlace 0) hguarded hrun).1⟩

/-- On a full disk of 1024 blocks, `bmap` returns block 1024. -/
theorem full_disk_maps_past_end :
    (emptyVolume 995).InPlace ∧
      (bmap (emptyVolume 995).disk ((emptyVolume 995).inode 1) 0).map Prod.fst = some 1024 ∧
      ¬ MapsOnDisk (emptyVolume 995).disk ((emptyVolume 995).inode 1) 0 := by
  have hbmap :
      (bmap (emptyVolume 995).disk ((emptyVolume 995).inode 1) 0).map Prod.fst = some 1024 := by
    decide +kernel
  refine ⟨emptyVolume_inPlace 995, hbmap, fun h ↦ ?_⟩
  obtain ⟨⟨addr, ip', disk'⟩, hresult, rfl⟩ := Option.map_eq_some_iff.mp hbmap
  obtain ⟨⟨-, hlt⟩, -⟩ := h.returned _ ip' disk' hresult
  exact absurd hlt (by decide)

end OS537.XV6
