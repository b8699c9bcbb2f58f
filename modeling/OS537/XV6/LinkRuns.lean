import OS537.XV6.LinkMaps

/-!
# Runs without cross-links

Truncation keeps the links between inodes and blocks, and so does every step of which the operations
on files consist, except a call of `bmap` that makes a block reachable which it did not allocate.
-/

namespace OS537.XV6

open Bytes Run

variable {fs fs' : FS} {slot : Slot} {inum : Word} {node : Dinode}

/-! ## Freeing an inode -/

/-- The disk and the cache after an inode has been truncated and freed. -/
def FS.freed (fs : FS) (slot : Slot) : FS :=
  let ip := fs.icache slot
  let blocks := reach fs.disk ip.toDinode
  let free : Inode := { ip.truncated with type := .free, busy := true }
  FS.set { fs with disk := iupdate (iupdate (fs.disk.freedAll blocks)
    { ip.truncated with busy := true }) free } slot
      { free with ref := ip.ref - 1, busy := false, valid := false }

/-- `iput` drops a reference, or frees the inode. -/
theorem iput_freed (hrun : iput slot fs = some ((), fs')) :
    (fs.icache slot).ref = 1 ∧ (fs.icache slot).valid = true ∧ fs' = fs.freed slot ∨
      fs' = fs.set slot { fs.icache slot with ref := (fs.icache slot).ref - 1 } := by
  obtain ⟨href, hvalid, -, -, ip, disk, htrunc, rfl⟩ | ⟨-, rfl⟩ := iput_cases hrun
  · obtain ⟨-, -, rfl, rfl⟩ := itrunc_eq_some_iff.mp htrunc
    exact Or.inl ⟨href, hvalid, rfl⟩
  · exact Or.inr rfl

theorem FS.Sound.version_of_freed (h : fs.Sound) (hcached : fs.Cached slot)
    (hversion : (fs.freed slot).Version inum node) :
    inum ≠ (fs.icache slot).inum ∧ fs.Version inum node := by
  obtain ⟨hallocated, hdisk | ⟨other, hne, hother, heq, hnode⟩ | ⟨-, hvalid, -⟩⟩ := hversion.of_set
  · by_cases heq : inum = (fs.icache slot).inum
    · have hfree : node.type = .free := by
        have hrecord : (fs.freed slot).disk.dinode (fs.icache slot).inum =
            { (fs.icache slot).truncated.toDinode with type := .free } := Function.update_self _ _ _
        rw [hdisk, heq]
        exact congrArg Dinode.type hrecord
      exact absurd hfree hallocated
    · have hrecord : node = fs.disk.dinode inum := by
        rw [hdisk]
        exact (Function.update_of_ne heq _ _).trans (Function.update_of_ne heq _ _)
      exact ⟨heq, hallocated, Or.inl hrecord⟩
  · exact ⟨fun heq' ↦ hne (h.slot_eq hcached hother (heq.trans heq')), hallocated,
      Or.inr ⟨other, hother, heq, hnode⟩⟩
  · cases hvalid

theorem FS.Sound.free (h : fs.Sound) (hcached : fs.Cached slot)
    (href : (fs.icache slot).ref = 1) : (fs.freed slot).Sound := by
  have hkept {other : Word} {node : Dinode} (hversion : (fs.freed slot).Version other node) :
      fs.Version other node ∧ reach (fs.freed slot).disk node = reach fs.disk node ∧
        ∀ b ∈ reach fs.disk node, (fs.freed slot).disk.used b = fs.disk.used b := by
    obtain ⟨hne, hold⟩ := h.version_of_freed hcached hversion
    have hapart := h.linked.apart other _ node _ hne hold (h.version hcached)
    refine ⟨hold, reach_congr fun htype hset ↦ ?_, fun b hb ↦ ?_⟩
    · exact if_neg (hapart _ (mem_reach_indirect htype hset))
    · exact if_neg (hapart b hb)
  have hslots (other : Slot) (hother : 0 < ((fs.freed slot).icache other).ref) :
      other ≠ slot ∧ (fs.freed slot).icache other = fs.icache other := by
    have hne : other ≠ slot := by
      rintro rfl
      unfold FS.freed at hother
      rw [FS.set_icache_self] at hother
      change 0 < (fs.icache other).ref - 1 at hother
      omega
    exact ⟨hne, FS.set_icache_of_ne _ _ hne⟩
  refine ⟨⟨?_, ?_, ?_, ?_⟩, ?_, ?_⟩
  · intro other node hversion b hb
    obtain ⟨hold, hreach, hused⟩ := hkept hversion
    rw [hreach] at hb
    rw [hused b hb]
    exact h.linked.used other node hold b hb
  · intro other node hversion
    obtain ⟨hold, hreach, -⟩ := hkept hversion
    rw [hreach]
    exact h.linked.once other node hold
  · intro first second node node' hne hversion hversion' b hb
    obtain ⟨hold, hreach, -⟩ := hkept hversion
    obtain ⟨hold', hreach', -⟩ := hkept hversion'
    rw [hreach] at hb
    rw [hreach']
    exact h.linked.apart first second node node' hne hold hold' b hb
  · intro other node hversion
    exact h.linked.separate other node (hkept hversion).1
  · intro first second hfirst hsecond heq
    have hfirst' := (hslots first hfirst).2
    have hsecond' := (hslots second hsecond).2
    rw [hfirst'] at hfirst heq
    rw [hsecond'] at hsecond heq
    exact h.unique first second hfirst hsecond heq
  · intro other hother
    obtain ⟨hne, hicache⟩ := hslots other hother.1
    have hcached' : fs.Cached other := by
      unfold FS.Cached at hother
      rwa [hicache] at hother
    have hinum : (fs.icache other).inum ≠ (fs.icache slot).inum :=
      fun heq ↦ hne (h.slot_eq hcached hcached' heq)
    have hrecord : (fs.freed slot).disk.dinode (fs.icache other).inum =
        fs.disk.dinode (fs.icache other).inum :=
      (Function.update_of_ne hinum _ _).trans (Function.update_of_ne hinum _ _)
    rw [hicache, hrecord]
    exact h.follows other hcached'

/-! ## Acts -/

/-- A call of `bmap` makes no block reachable that it does not allocate. -/
def FS.NoStrays (fs : FS) : Act → Prop
  | .load slot off => strays fs.disk (fs.icache slot).toDinode (off / 512) = []
  | .store slot off _ _ => strays fs.disk (fs.icache slot).toDinode (off / 512) = []
  | _ => True

instance (fs : FS) : (act : Act) → Decidable (fs.NoStrays act)
  | .load slot off =>
    inferInstanceAs (Decidable (strays fs.disk (fs.icache slot).toDinode (off / 512) = []))
  | .store slot off _ _ =>
    inferInstanceAs (Decidable (strays fs.disk (fs.icache slot).toDinode (off / 512) = []))
  | .iget _ | .ialloc _ | .idup _ | .ilock _ | .iunlock _ | .iput _ | .iupdate _ | .assign _ _ =>
    isTrue trivial

theorem blockNumber_lt (off : Word) : (off / 512).toNat < 2 ^ 31 := by
  have hoff := off.isLt
  have hdiv : (off / 512).toNat = off.toNat / 512 := BitVec.toNat_udiv
  omega

section Rounds

variable {off : Word}

theorem FS.act_load (hact : fs.act (.load slot off) = some fs') :
    ∃ addr ip disk, fs.Locked slot ∧
      bmap fs.disk (fs.icache slot) (off / 512) = some (addr, ip, disk) ∧
      fs' = FS.set { fs with disk := disk } slot ip := by
  obtain ⟨⟨addr, next⟩, hrun, rfl⟩ := Option.map_eq_some_iff.mp hact
  obtain ⟨hlocked, hrun⟩ := whenLocked_cases hrun
  obtain ⟨ip, disk, hbmap, rfl⟩ := mapSlot_cases hrun
  exact ⟨addr, ip, disk, hlocked, hbmap, rfl⟩

theorem FS.act_store {m : ℕ} {src : Store} (hact : fs.act (.store slot off m src) = some fs') :
    ∃ addr ip disk data, fs.Locked slot ∧
      bmap fs.disk (fs.icache slot) (off / 512) = some (addr, ip, disk) ∧
      fs' = FS.set { fs with disk := disk.setBlock addr data } slot ip := by
  obtain ⟨⟨⟨⟩, next⟩, hrun, rfl⟩ := Option.map_eq_some_iff.mp hact
  obtain ⟨hlocked, hrun⟩ := whenLocked_cases hrun
  obtain ⟨⟨addr, middle⟩, hmap, hwrite⟩ := Option.bind_eq_some_iff.mp hrun
  obtain ⟨ip, disk, hbmap, rfl⟩ := mapSlot_cases hmap
  cases hwrite
  exact ⟨addr, ip, disk, _, hlocked, hbmap, rfl⟩

end Rounds

/-- The act leaves the bitmap and the contents of the blocks alone. -/
def Act.still : Act → Bool
  | .iput _ | .load _ _ | .store _ _ _ _ => false
  | _ => true

theorem FS.act_still {act : Act} (hstill : act.still = true) (hact : fs.act act = some fs') :
    fs'.disk.size = fs.disk.size ∧ fs'.disk.used = fs.disk.used ∧
      fs'.disk.block = fs.disk.block := by
  have hget {fs fs' : FS} {inum : Word} {found : Slot}
      (hrun : XV6.iget inum fs = some (found, fs')) : fs'.disk = fs.disk := by
    obtain ⟨-, -, rfl⟩ | ⟨-, -, rfl⟩ := iget_cases hrun
    · rfl
    · rfl
  cases act with
  | iget inum =>
    obtain ⟨⟨found, next⟩, hrun, rfl⟩ := Option.map_eq_some_iff.mp hact
    rw [hget hrun]
    exact ⟨rfl, rfl, rfl⟩
  | idup slot =>
    obtain ⟨-, hrun⟩ := Option.ite_none_right_eq_some.mp hact
    cases hrun
    exact ⟨rfl, rfl, rfl⟩
  | ialloc type =>
    obtain ⟨⟨found, next⟩, hrun, rfl⟩ := Option.map_eq_some_iff.mp hact
    obtain ⟨inum, -, hrun⟩ := ialloc_cases hrun
    rw [hget hrun]
    exact ⟨rfl, rfl, rfl⟩
  | ilock slot =>
    obtain ⟨⟨⟨⟩, next⟩, hrun, rfl⟩ := Option.map_eq_some_iff.mp hact
    obtain ⟨-, -, ⟨-, rfl⟩ | ⟨-, -, rfl⟩⟩ := ilock_cases hrun
    · exact ⟨rfl, rfl, rfl⟩
    · exact ⟨rfl, rfl, rfl⟩
  | iunlock slot =>
    obtain ⟨⟨⟨⟩, next⟩, hrun, rfl⟩ := Option.map_eq_some_iff.mp hact
    obtain ⟨-, -, rfl⟩ := iunlock_cases hrun
    exact ⟨rfl, rfl, rfl⟩
  | iupdate slot | assign slot fields =>
    obtain ⟨⟨⟨⟩, next⟩, hrun, rfl⟩ := Option.map_eq_some_iff.mp hact
    cases (whenLocked_cases hrun).2
    exact ⟨rfl, rfl, rfl⟩
  | _ => cases hstill

theorem FS.Sound.act (h : fs.Sound) {act : Act} (hstrays : fs.NoStrays act)
    (hact : fs.act act = some fs') : fs'.Sound := by
  cases act with
  | iget inum =>
    obtain ⟨⟨found, next⟩, hrun, rfl⟩ := Option.map_eq_some_iff.mp hact
    exact h.iget hrun
  | idup slot =>
    obtain ⟨href, hrun⟩ := Option.ite_none_right_eq_some.mp hact
    cases hrun
    exact h.touch rfl rfl rfl (fun _ ↦ href) id
  | ialloc type =>
    obtain ⟨⟨found, next⟩, hrun, rfl⟩ := Option.map_eq_some_iff.mp hact
    exact h.ialloc hrun
  | ilock slot =>
    obtain ⟨⟨⟨⟩, next⟩, hrun, rfl⟩ := Option.map_eq_some_iff.mp hact
    exact h.ilock hrun
  | iunlock slot =>
    obtain ⟨⟨⟨⟩, next⟩, hrun, rfl⟩ := Option.map_eq_some_iff.mp hact
    obtain ⟨-, -, rfl⟩ := iunlock_cases hrun
    exact h.touch rfl rfl rfl id id
  | iput slot =>
    obtain ⟨href, hmap⟩ := Option.ite_none_right_eq_some.mp hact
    obtain ⟨⟨⟨⟩, next⟩, hrun, rfl⟩ := Option.map_eq_some_iff.mp hmap
    obtain ⟨hlast, hvalid, rfl⟩ | rfl := iput_freed hrun
    · exact h.free ⟨href, hvalid⟩ hlast
    · exact h.touch rfl rfl rfl (fun _ ↦ href) id
  | iupdate slot =>
    obtain ⟨⟨⟨⟩, next⟩, hrun, rfl⟩ := Option.map_eq_some_iff.mp hact
    obtain ⟨hlocked, hrun⟩ := whenLocked_cases hrun
    cases hrun
    exact h.iupdateSlot hlocked.1
  | load slot off =>
    obtain ⟨addr, ip, disk, hlocked, hbmap, rfl⟩ := FS.act_load hact
    exact h.map hlocked.1 hbmap (blockNumber_lt off) hstrays
  | store slot off m src =>
    obtain ⟨addr, ip, disk, data, hlocked, hbmap, rfl⟩ := FS.act_store hact
    have hmapped := h.map hlocked.1 hbmap (blockNumber_lt off) hstrays
    exact hmapped.setBlock _ fun inum node hversion ↦
      h.addr_ne_indirect hlocked.1 hbmap (blockNumber_lt off) hstrays hversion
  | assign slot fields =>
    obtain ⟨⟨⟨⟩, next⟩, hrun, rfl⟩ := Option.map_eq_some_iff.mp hact
    obtain ⟨-, hrun⟩ := whenLocked_cases hrun
    cases hrun
    exact h.touch rfl rfl rfl id id

/-! ## Two files on a large disk -/

/-- A disk of more than `2 ^ 24` blocks, of which the first `n` are in use; its bitmap ends below
block 5000. Inode 1 is a file that has block 5000, and inode 2 an empty extent file. -/
def twoFiles (n : ℕ) : Disk where
  size := 2 ^ 24 + 8192
  ninodes := 200
  size_fits := by decide
  used b := b.toNat < n
  dinode inum :=
    if inum = 1 then
      { Dinode.zero with type := .file, nlink := 1, addrs := fun i ↦ if i = 0 then 5000 else 0 }
    else if inum = 2 then { Dinode.zero with type := .extent, nlink := 1 }
    else Dinode.zero
  block _ _ := 0

/-- The inode cache after `iinit`. -/
def emptyCache : Slot → Inode := fun _ ↦ ⟨Dinode.zero, 0, 0, false, false⟩

def mounted (n : ℕ) : FS := ⟨twoFiles n, emptyCache⟩

theorem twoFiles_nextFree {n : ℕ} (hn : n < 2 ^ 24 + 8192) :
    (twoFiles n).NextFree (BitVec.ofNat 32 n) where
  scanned := by
    have hscanned := (twoFiles n).size_le_scanned
    have hsize : (twoFiles n).size = 2 ^ 24 + 8192 := rfl
    rw [BitVec.toNat_ofNat, Nat.mod_eq_of_lt (by omega)]
    omega
  clear := by
    have hself : (BitVec.ofNat 32 n).toNat = n := by
      rw [BitVec.toNat_ofNat, Nat.mod_eq_of_lt (by omega)]
    change decide (_ < n) = false
    rw [hself, decide_eq_false_iff_not]
    exact lt_irrefl n
  lowest := by
    intro other hlt
    rw [BitVec.toNat_ofNat, Nat.mod_eq_of_lt (by omega)] at hlt
    exact decide_eq_true hlt

theorem mounted_version {n : ℕ} (h : (mounted n).Version inum node) :
    inum = 1 ∧ node = (twoFiles n).dinode 1 ∨ inum = 2 ∧ node = (twoFiles n).dinode 2 := by
  obtain ⟨hallocated, hdisk | ⟨slot, ⟨href, -⟩, -⟩⟩ := h
  · change node = if inum = 1 then _ else if inum = 2 then _ else _ at hdisk
    by_cases hfirst : inum = 1
    · rw [if_pos hfirst] at hdisk
      exact Or.inl ⟨hfirst, hdisk⟩
    · rw [if_neg hfirst] at hdisk
      by_cases hsecond : inum = 2
      · rw [if_pos hsecond] at hdisk
        exact Or.inr ⟨hsecond, hdisk⟩
      · rw [if_neg hsecond] at hdisk
        exact absurd (congrArg Dinode.type hdisk) hallocated
  · exact absurd href (lt_irrefl 0)

theorem twoFiles_reach_second (n : ℕ) : reach (twoFiles n) ((twoFiles n).dinode 2) = [] :=
  reach_zero rfl

theorem mounted_linked {n : ℕ} (hn : 5000 < n) : (mounted n).Linked where
  used := by
    intro inum node hversion b hb
    obtain ⟨-, rfl⟩ | ⟨-, rfl⟩ := mounted_version hversion
    · rw [List.mem_singleton.mp hb]
      exact decide_eq_true hn
    · rw [mounted, twoFiles_reach_second] at hb
      contradiction
  once := by
    intro inum node hversion
    obtain ⟨-, rfl⟩ | ⟨-, rfl⟩ := mounted_version hversion
    · exact List.nodup_singleton 5000
    · rw [mounted, twoFiles_reach_second]
      exact List.nodup_nil
  apart := by
    intro inum other node node' hne hversion hversion' b hb
    obtain ⟨rfl, rfl⟩ | ⟨rfl, rfl⟩ := mounted_version hversion
    · obtain ⟨rfl, rfl⟩ | ⟨rfl, rfl⟩ := mounted_version hversion'
      · exact absurd rfl hne
      · rw [mounted, twoFiles_reach_second]
        exact List.not_mem_nil
    · rw [mounted, twoFiles_reach_second] at hb
      contradiction
  separate := by
    intro inum node hversion htype
    obtain ⟨-, rfl⟩ | ⟨-, rfl⟩ := mounted_version hversion
    · cases htype
    · exact Addrs.separate_zero

/-- The first block of an empty extent file goes to the first extent. -/
theorem bmapExtent_empty {disk : Disk} {addr : Word} (hfree : disk.NextFree addr)
    (hne : addr ≠ 0) : bmapExtent disk (fun _ ↦ 0) 0 =
      some (addr, Addrs.fill (fun _ ↦ 0) 0 addr 0, disk.mark addr) := by
  have hsearch : searchExtents (fun _ ↦ 0) 0 (List.finRange 6) none none =
      .missed (some 0) (some 5) := by decide
  have hapart : Addrs.adjoins (fun _ ↦ 0) addr 5 = false := beq_false_of_ne hne
  have hrecord : Addrs.record (fun _ ↦ 0) 0 addr (some 0) (some 5) =
      some (Addrs.fill (fun _ ↦ 0) 0 addr 0) := by
    rw [Addrs.record, Option.filter_some, hapart]
    rfl
  rw [bmapExtent, hsearch]
  simp only [balloc_eq_some_iff.mpr ⟨hfree, rfl⟩, hrecord, Option.bind_eq_bind, Option.bind_some,
    Option.pure_def]

/-- The extent file, opened and locked in the first slot. -/
def extentOpen (n : ℕ) : Inode :=
  { (twoFiles n).dinode 2 with inum := 2, ref := 1, busy := true, valid := true }

/-- A process opens the extent file. -/
def openExtent : List Act := [.iget 2, .ilock 0]

theorem run_openExtent (n : ℕ) :
    run FS.act (mounted n) openExtent = some ((mounted n).set 0 (extentOpen n)) :=
  congrArg some (FS.set_set (mounted n) 0 _ _)

/-- The state after the process has read the first block of the file. -/
def extentRead (n : ℕ) : FS :=
  FS.set { mounted n with disk := (twoFiles n).mark (BitVec.ofNat 32 n) } 0
    { extentOpen n with addrs := Addrs.fill (fun _ ↦ 0) 0 (BitVec.ofNat 32 n) 0 }

theorem mapSlot_openExtent {n : ℕ} (hpos : 0 < n) (hn : n < 2 ^ 24 + 8192) :
    mapSlot 0 0 ((mounted n).set 0 (extentOpen n)) = some (BitVec.ofNat 32 n, extentRead n) := by
  have hne : BitVec.ofNat 32 n ≠ 0 := by
    intro heq
    have hzero := congrArg BitVec.toNat heq
    rw [BitVec.toNat_ofNat, Nat.mod_eq_of_lt (by omega)] at hzero
    exact absurd hzero (Nat.ne_of_gt hpos)
  have htype : (extentOpen n).type = .extent := rfl
  have hbmap : bmap (twoFiles n) (extentOpen n) 0 =
      some (BitVec.ofNat 32 n,
        { extentOpen n with addrs := Addrs.fill (fun _ ↦ 0) 0 (BitVec.ofNat 32 n) 0 },
        (twoFiles n).mark (BitVec.ofNat 32 n)) := by
    have hextent := bmapExtent_empty (twoFiles_nextFree hn) hne
    rw [bmap_eq, if_pos htype]
    exact congrArg (Option.map _) hextent
  unfold mapSlot
  rw [FS.set_icache_self]
  change (bmap (twoFiles n) (extentOpen n) 0).bind _ = _
  rw [hbmap]
  exact congrArg (fun fs ↦ some (BitVec.ofNat 32 n, fs))
    (FS.set_set { mounted n with disk := (twoFiles n).mark (BitVec.ofNat 32 n) } 0 _ _)

theorem run_readExtent {n : ℕ} (hpos : 0 < n) (hn : n < 2 ^ 24 + 8192) :
    run FS.act (mounted n) (openExtent ++ [.load 0 0]) = some (extentRead n) := by
  have hmap := mapSlot_openExtent hpos hn
  have hlocked : FS.Locked ((mounted n).set 0 (extentOpen n)) 0 := ⟨⟨Int.one_pos, rfl⟩, rfl⟩
  have hload : FS.act ((mounted n).set 0 (extentOpen n)) (.load 0 0) = some (extentRead n) :=
    congrArg (Option.map Prod.snd) ((if_pos hlocked).trans hmap)
  rw [run_append, run_openExtent]
  exact (run_cons_of_step [] hload).trans rfl

/-- A new extent that gets a block number of 24 bits has no stray block. -/
theorem strays_extent_of_lt {disk : Disk} {bn free : Word} (htype : node.type = .extent)
    (hfree : disk.NextFree free) (hlt : free.toNat < 2 ^ 24) : strays disk node bn = [] := by
  rw [strays, Disk.nextFree_eq_some_iff.mpr hfree]
  dsimp only
  rw [if_pos htype, if_neg fun hstray ↦ absurd hstray.2.2 (Nat.not_le_of_lt hlt)]

theorem guarded_readExtent {n : ℕ} (hn : n < 2 ^ 24) :
    Guarded FS.act FS.NoStrays (mounted n) (openExtent ++ [.load 0 0]) := by
  refine Guarded.append ⟨trivial, fun _ _ ↦ ⟨trivial, fun _ _ ↦ trivial⟩⟩ ?_
  intro middle hopen
  rw [run_openExtent] at hopen
  cases hopen
  refine ⟨strays_extent_of_lt rfl (twoFiles_nextFree (Nat.lt_add_right 8192 hn)) ?_,
    fun _ _ ↦ trivial⟩
  rw [BitVec.toNat_ofNat, Nat.mod_eq_of_lt (by omega)]
  exact hn

/-! ## Whole runs -/

/-- Before an inode is read from the image, there are only the records. -/
theorem FS.Linked.sound (h : fs.Linked) (hempty : ∀ slot, (fs.icache slot).ref = 0) : fs.Sound where
  linked := h
  unique := fun slot _ href ↦ absurd href (by rw [hempty slot]; exact lt_irrefl 0)
  follows := fun slot hcached ↦ absurd hcached.1 (by rw [hempty slot]; exact lt_irrefl 0)

/-- A run from an image without cross-links leads to states without cross-links. -/
theorem linked_of_run {acts : List Act} (h : fs.Linked)
    (hempty : ∀ slot, (fs.icache slot).ref = 0)
    (hacts : Guarded FS.act FS.NoStrays fs acts) (hrun : run FS.act fs acts = some fs') :
    fs'.Linked :=
  (hacts.invariant_of_run (fun _ _ _ hsound hstrays hact ↦ hsound.act hstrays hact)
    (h.sound hempty) hrun).linked

/-- The new block of the extent file is its own. -/
theorem read_extent_linked : (mounted 5001).Linked ∧ (extentRead 5001).Linked :=
  ⟨mounted_linked (by decide), linked_of_run (mounted_linked (by decide)) (fun _ ↦ rfl)
    (guarded_readExtent (by decide)) (run_readExtent (by decide) (by decide))⟩

/-- Of the block number `2 ^ 24 + 5000` the extent keeps 5000, the block of the other file. -/
theorem read_extent_cross_linked : ∃ final, (mounted (2 ^ 24 + 5000)).Linked ∧
    (∀ slot, ((mounted (2 ^ 24 + 5000)).icache slot).ref = 0) ∧
    run FS.act (mounted (2 ^ 24 + 5000)) (openExtent ++ [.load 0 0]) = some final ∧
    ¬ final.Linked := by
  refine ⟨extentRead (2 ^ 24 + 5000), mounted_linked (by decide), fun _ ↦ rfl,
    run_readExtent (by decide) (by decide), fun h ↦ ?_⟩
  have hfile : (extentRead (2 ^ 24 + 5000)).Version 1 ((twoFiles (2 ^ 24 + 5000)).dinode 1) :=
    ⟨by decide, Or.inl rfl⟩
  have hextent : (extentRead (2 ^ 24 + 5000)).Version 2
      ((extentRead (2 ^ 24 + 5000)).icache 0).toDinode :=
    ⟨by decide, Or.inr ⟨0, by decide, rfl, rfl⟩⟩
  exact h.apart 1 2 _ _ (by decide) hfile hextent 5000 (by decide) (by decide)

end OS537.XV6
