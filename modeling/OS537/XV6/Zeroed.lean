import OS537.XV6.LinkRuns

/-!
# Free blocks are zero

`balloc` does not clear the block that it hands out. It relies on `bfree`, which clears a block when
it becomes free, and on nobody writing to a free block. A write goes to an address that `bmap`
returned, and without cross-links that block is in use.
-/

namespace OS537.XV6

open Bytes Run

variable {fs fs' : FS} {slot : Slot} {disk' : Disk} {ip : Inode} {bn addr : Word}

/-- Every free block of the disk contains only zero bytes. -/
def Disk.FreeZero (disk : Disk) : Prop :=
  ∀ b : Word, b.toNat < disk.size → disk.used b = false → disk.ZeroBlock b

/-- The contents and the use of the blocks are those of another disk. -/
theorem Disk.FreeZero.congr {disk : Disk} (h : disk.FreeZero) (hsize : disk'.size = disk.size)
    (hused : disk'.used = disk.used) (hblock : disk'.block = disk.block) : disk'.FreeZero := by
  intro b hb hclear i hi
  rw [hsize] at hb
  rw [hused] at hclear
  rw [hblock]
  exact h b hb hclear i hi

theorem Disk.FreeZero.freedAll {disk : Disk} (h : disk.FreeZero) (blocks : List Word) :
    (disk.freedAll blocks).FreeZero := by
  intro b hb hclear i hi
  change (if b ∈ blocks then false else disk.used b) = false at hclear
  change (if b ∈ blocks then fun _ ↦ 0 else disk.block b) i = 0
  by_cases hmem : b ∈ blocks
  · rw [if_pos hmem]
  · rw [if_neg hmem] at hclear ⊢
    exact h b hb hclear i hi

/-- A block in use may get any contents. -/
theorem Disk.FreeZero.setBlock {disk : Disk} (h : disk.FreeZero) (hused : disk.used addr = true)
    (data : Store) : (disk.setBlock addr data).FreeZero := by
  intro b hb hclear i hi
  have hne : b ≠ addr := by
    rintro rfl
    exact absurd hused (Bool.eq_false_iff.mp hclear)
  rw [Disk.setBlock_block, Function.update_of_ne hne]
  exact h b hb hclear i hi

/-- A call of `bmap` writes to the indirect block only, and that one is in use afterwards. -/
theorem FS.Sound.map_freeZero (h : fs.Sound) (hzero : fs.disk.FreeZero) (hcached : fs.Cached slot)
    (hbmap : bmap fs.disk (fs.icache slot) bn = some (addr, ip, disk')) : disk'.FreeZero := by
  obtain ⟨-, new, hextends⟩ := bmap_extends hbmap
  have hversion := h.version hcached
  intro b hb hclear i hi
  rw [hextends.takes.size] at hb
  have hnot : ¬ (b ∈ new ∨ fs.disk.used b = true) := by
    rw [← hextends.takes.used_iff, hclear]
    exact Bool.false_ne_true
  have hblock : disk'.block b = fs.disk.block b := by
    refine hextends.block_eq (fun hnew ↦ hnot (Or.inl hnew)) fun htype hset heq ↦ hnot (Or.inr ?_)
    rw [heq]
    exact h.linked.used _ _ hversion _ (mem_reach_indirect htype hset)
  rw [hblock]
  exact hzero b hb (Bool.eq_false_iff.mpr fun htrue ↦ hnot (Or.inr htrue)) i hi

/-- The address that a call of `bmap` without stray blocks returns is in use afterwards. -/
theorem FS.Sound.addr_used (h : fs.Sound) (hcached : fs.Cached slot)
    (hbmap : bmap fs.disk (fs.icache slot) bn = some (addr, ip, disk'))
    (hstrays : strays fs.disk (fs.icache slot).toDinode bn = []) : disk'.used addr = true := by
  obtain ⟨-, new, hextends⟩ := bmap_extends hbmap
  rw [hextends.takes.used_iff]
  rcases hextends.addr_mem with hnew | hstray | hreach
  · exact Or.inl hnew
  · rw [hstrays] at hstray
    contradiction
  · exact Or.inr (h.linked.used _ _ (h.version hcached) addr hreach)

/-- The indirect block in which a missing block is looked up is in use and has no entry for it. -/
theorem FS.Sound.indirect_block_clear (h : fs.Sound) (hcached : fs.Cached slot)
    (htype : (fs.icache slot).type ≠ .extent) {j : ℕ} (hj : j < 128) (hbn : bn.toNat = j + 12)
    {indirect : Word} {addrs : Addrs}
    (hrun : indirectBlock fs.disk (fs.icache slot).addrs = some (indirect, addrs, disk'))
    (hstrays : strays fs.disk (fs.icache slot).toDinode bn = [])
    (hmissing : lookup fs.disk (fs.icache slot).toDinode bn = none) :
    disk'.block = fs.disk.block ∧ disk'.used indirect = true ∧
      (∀ b, fs.disk.used b = true → disk'.used b = true) ∧ disk'.entry indirect j = 0 := by
  obtain ⟨hset, rfl, -, rfl⟩ | ⟨hzero, hfree, -, rfl⟩ := indirectBlock_cases hrun
  · have hused := h.linked.used _ _ (h.version hcached) _ (mem_reach_indirect htype hset)
    rw [lookup_indirect htype hj hbn] at hmissing
    by_cases hclear : fs.disk.entry ((fs.icache slot).addrs 12) j = 0
    · exact ⟨rfl, hused, fun _ ↦ id, hclear⟩
    · rw [if_neg (not_or_intro hset hclear)] at hmissing
      contradiction
  · refine ⟨rfl, Function.update_self _ _ _, fun b htrue ↦ ?_, ?_⟩
    · rw [Disk.mark_used, Function.update_apply, htrue, ite_self]
    · -- An entry would be a stray block.
      rw [strays, Disk.nextFree_eq_some_iff.mpr hfree] at hstrays
      dsimp only at hstrays
      rw [if_neg htype, if_pos ⟨by omega, hzero⟩] at hstrays
      by_contra hset
      have hmem := mem_entryBlocks hj hset
      change _ ∈ fs.disk.entryBlocks indirect at hmem
      rw [hstrays] at hmem
      contradiction

/-- A data block that `bmap` allocates reads as zeros. -/
theorem FS.Sound.new_block_zero (h : fs.Sound) (hzero : fs.disk.FreeZero) (hcached : fs.Cached slot)
    (hbmap : bmap fs.disk (fs.icache slot) bn = some (addr, ip, disk'))
    (hstrays : strays fs.disk (fs.icache slot).toDinode bn = [])
    (hmissing : lookup fs.disk (fs.icache slot).toDinode bn = none)
    (hlt : addr.toNat < fs.disk.size) : disk'.ZeroBlock addr := by
  rw [bmap_eq] at hbmap
  obtain ⟨⟨found, addrs, last⟩, hrun, hresult⟩ := Option.map_eq_some_iff.mp hbmap
  cases hresult
  by_cases htype : (fs.icache slot).type = .extent
  · rw [lookup_extent htype, Addrs.addrOf, Option.map_eq_none_iff] at hmissing
    rw [if_pos htype] at hrun
    obtain ⟨k, hslot, -⟩ | ⟨-, hfree, rfl, -⟩ := bmapExtent_cases hrun
    · rw [hslot] at hmissing
      contradiction
    · exact hzero found hlt hfree.clear
  · rw [if_neg htype] at hrun
    obtain ⟨i, hi, hset, -⟩ | ⟨i, -, -, hfree, -, rfl⟩ |
      ⟨j, hj, hbn, indirect, disk₁, hindirect, hentry⟩ := bmapPointer_cases hrun
    · rw [lookup_direct htype hi, if_neg hset] at hmissing
      contradiction
    · exact hzero found hlt hfree.clear
    · obtain ⟨hblock, hused, hkept, hclear⟩ := h.indirect_block_clear hcached htype hj hbn hindirect
        hstrays hmissing
      obtain ⟨hset, -⟩ | ⟨-, hfree, rfl⟩ := indirectEntry_cases hentry
      · exact absurd hclear hset
      · have hne : found ≠ indirect := by
          rintro rfl
          rw [hfree.clear] at hused
          contradiction
        have hsame : ((disk₁.mark found).setEntry indirect j found).block found =
            fs.disk.block found := by
          rw [← hblock]
          exact Function.update_of_ne hne _ _
        intro i hi
        rw [hsame]
        refine hzero found hlt (Bool.eq_false_iff.mpr fun htrue ↦ ?_) i hi
        exact absurd (hkept found htrue) (Bool.eq_false_iff.mp hfree.clear)

/-! ## Acts -/

/-- Every step keeps the free blocks zero, unless `bmap` makes a stray block reachable. -/
theorem FS.Sound.act_freeZero (h : fs.Sound) (hzero : fs.disk.FreeZero) {act : Act}
    (hstrays : fs.NoStrays act) (hact : fs.act act = some fs') : fs'.disk.FreeZero := by
  cases act with
  | iput slot =>
    obtain ⟨-, hmap⟩ := Option.ite_none_right_eq_some.mp hact
    obtain ⟨⟨⟨⟩, next⟩, hrun, rfl⟩ := Option.map_eq_some_iff.mp hmap
    obtain ⟨-, -, rfl⟩ | rfl := iput_freed hrun
    · have hfreed := hzero.freedAll (reach fs.disk (fs.icache slot).toDinode)
      exact hfreed.congr rfl rfl rfl
    · exact hzero
  | load slot off =>
    obtain ⟨addr, ip, disk, hlocked, hbmap, rfl⟩ := FS.act_load hact
    exact h.map_freeZero hzero hlocked.1 hbmap
  | store slot off m src =>
    obtain ⟨addr, ip, disk, data, hlocked, hbmap, rfl⟩ := FS.act_store hact
    have hmapped := h.map_freeZero hzero hlocked.1 hbmap
    exact hmapped.setBlock (h.addr_used hlocked.1 hbmap hstrays) _
  | iget | idup | ialloc | ilock | iunlock | iupdate | assign =>
    obtain ⟨hsize, hused, hblock⟩ := FS.act_still rfl hact
    exact hzero.congr hsize hused hblock

/-! ## Whole runs -/

/-- The extent file is unlinked and its inode freed, and then the other file is opened and its first
byte written. -/
def freeThenWrite : List Act :=
  [.assign 0 ⟨0, 0, 0, 0⟩, .iunlock 0, .iput 0, .iget 1, .ilock 0, .store 0 0 1 fun _ ↦ 1]

theorem twoFiles_freeZero (n : ℕ) : (twoFiles n).FreeZero := fun _ _ _ _ _ ↦ rfl

/-- What a run from an image without cross-links keeps. -/
theorem FS.Linked.sound_of_run {acts : List Act} (h : fs.Linked) (hzero : fs.disk.FreeZero)
    (hempty : ∀ slot, (fs.icache slot).ref = 0)
    (hacts : Guarded FS.act FS.NoStrays fs acts) (hrun : run FS.act fs acts = some fs') :
    fs'.Sound ∧ fs'.disk.FreeZero := by
  have hstep (state : FS) (act : Act) (next : FS) (hstate : state.Sound ∧ state.disk.FreeZero)
      (hstrays : state.NoStrays act) (hact : state.act act = some next) :
      next.Sound ∧ next.disk.FreeZero :=
    ⟨hstate.1.act hstrays hact, hstate.1.act_freeZero hstate.2 hstrays hact⟩
  exact hacts.invariant_of_run hstep ⟨h.sound hempty, hzero⟩ hrun

/-- From an image without cross-links whose free blocks are zero, a run leads to states whose free
blocks are zero, and a block that `bmap` then allocates reads as zeros. -/
theorem freeZero_of_run {acts : List Act} (h : fs.Linked) (hzero : fs.disk.FreeZero)
    (hempty : ∀ slot, (fs.icache slot).ref = 0)
    (hacts : Guarded FS.act FS.NoStrays fs acts) (hrun : run FS.act fs acts = some fs') :
    fs'.disk.FreeZero ∧
      ∀ slot off addr next, fs'.Locked slot → fs'.NoStrays (.load slot off) →
        mapSlot slot off fs' = some (addr, next) →
        lookup fs'.disk (fs'.icache slot).toDinode (off / 512) = none →
        addr.toNat < fs'.disk.size → next.disk.ZeroBlock addr := by
  have hinvariant := h.sound_of_run hzero hempty hacts hrun
  refine ⟨hinvariant.2, fun slot off addr next hlocked hstrays hmap hmissing hlt ↦ ?_⟩
  obtain ⟨ip, disk, hbmap, rfl⟩ := mapSlot_cases hmap
  exact hinvariant.1.new_block_zero hinvariant.2 hlocked.1 hbmap hstrays hmissing hlt

/-- The block that the extent file gets is not free, and the free blocks stay zero. -/
theorem read_extent_freeZero : (mounted 5001).Linked ∧ (mounted 5001).disk.FreeZero ∧
    (extentRead 5001).disk.FreeZero :=
  ⟨mounted_linked (by decide), twoFiles_freeZero 5001,
    (freeZero_of_run (mounted_linked (by decide)) (twoFiles_freeZero 5001) (fun _ ↦ rfl)
      (guarded_readExtent (by decide)) (run_readExtent (by decide) (by decide))).1⟩

/-- The extent file frees block 5000 of the other file, which goes on writing to it. -/
theorem free_block_written : ∃ final, (mounted (2 ^ 24 + 5000)).Linked ∧
    (mounted (2 ^ 24 + 5000)).disk.FreeZero ∧
    (∀ slot, ((mounted (2 ^ 24 + 5000)).icache slot).ref = 0) ∧
    run FS.act (mounted (2 ^ 24 + 5000)) (openExtent ++ [.load 0 0] ++ freeThenWrite) = some final ∧
    ¬ final.disk.FreeZero := by
  have hwritten : (run FS.act (extentRead (2 ^ 24 + 5000)) freeThenWrite).map
      (fun fs ↦ (fs.disk.size, fs.disk.used 5000, fs.disk.block 5000 0)) =
        some (2 ^ 24 + 8192, false, 1) := by decide +kernel
  obtain ⟨final, hrun, hvalues⟩ := Option.map_eq_some_iff.mp hwritten
  obtain ⟨hsize, hused, hbyte⟩ : final.disk.size = 2 ^ 24 + 8192 ∧ final.disk.used 5000 = false ∧
      final.disk.block 5000 0 = 1 := by
    simpa only [Prod.mk.injEq] using hvalues
  refine ⟨final, mounted_linked (by decide), twoFiles_freeZero _, fun _ ↦ rfl, ?_, fun h ↦ ?_⟩
  · rw [run_append, run_readExtent (by decide) (by decide)]
    exact hrun
  · have hzero := h 5000 (by rw [hsize]; decide) hused 0 (by decide)
    rw [hbyte] at hzero
    exact absurd hzero (by decide)

end OS537.XV6
