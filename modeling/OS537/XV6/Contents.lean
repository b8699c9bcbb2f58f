import OS537.XV6.Files
import OS537.XV6.Lookups

/-!
# The bytes of a file

A file stores an array of bytes if each of its blocks holds the bytes of its part of the array, and
a block that it does not have stands for zeros. Reads and writes go through the array as they go
through the blocks, whichever map the inode has.
-/

namespace OS537.XV6

open Bytes Run

variable {fs fs' : FS} {slot : Slot} {bytes : Store} {disk disk' : Disk} {node : Dinode}
  {bn addr off : Word}

/-- Only the addresses of the inode have changed. -/
def Inode.Remaps (ip ip' : Inode) : Prop := ip' = { ip with addrs := ip'.addrs }

theorem Inode.Remaps.refl (ip : Inode) : ip.Remaps ip := rfl

theorem Inode.Remaps.trans {first second third : Inode} (h : first.Remaps second)
    (h' : second.Remaps third) : first.Remaps third := by
  unfold Inode.Remaps at h h' ⊢
  rw [h', h]

/-- Byte `i` of a block of the inode. A block that is missing reads as zeros. -/
def Disk.byteOf (disk : Disk) (node : Dinode) (bn : Word) (i : ℕ) : Byte :=
  match lookup disk node bn with
  | some addr => disk.block addr i
  | none => 0

theorem byteOf_of_lookup (h : lookup disk node bn = some addr) :
    disk.byteOf node bn = disk.block addr := by
  funext i
  rw [Disk.byteOf, h]

theorem byteOf_of_missing (h : lookup disk node bn = none) : disk.byteOf node bn = fun _ ↦ 0 := by
  funext i
  rw [Disk.byteOf, h]

/-- The cached inode stores the bytes in its `MAXFILE` blocks. -/
structure FS.Stores (fs : FS) (slot : Slot) (bytes : Store) : Prop where
  sound : fs.Sound
  zero : fs.disk.FreeZero
  cached : fs.Cached slot
  short : (fs.icache slot).type = .extent → (fs.icache slot).addrs.Short
  injective : ∀ bn bn' addr, lookup fs.disk (fs.icache slot).toDinode bn = some addr →
    lookup fs.disk (fs.icache slot).toDinode bn' = some addr → bn = bn'
  content : ∀ bn : Word, bn.toNat < 140 → ∀ i < 512,
    fs.disk.byteOf (fs.icache slot).toDinode bn i = bytes (512 * bn.toNat + i)

/-! ## Addresses -/

/-- A lookup reads the indirect block only. -/
theorem lookup_congr (h : node.type ≠ .extent → node.addrs 12 ≠ 0 →
    disk'.block (node.addrs 12) = disk.block (node.addrs 12)) (bn : Word) :
    lookup disk' node bn = lookup disk node bn := by
  by_cases htype : node.type = .extent
  · rw [lookup_extent htype, lookup_extent htype]
  · refine lookup_pointer_congr htype htype (fun _ _ ↦ rfl) fun j hj hbn ↦ ?_
    rw [lookup_indirect htype hj hbn, lookup_indirect htype hj hbn]
    by_cases hset : node.addrs 12 = 0
    · rw [if_pos (Or.inl hset), if_pos (Or.inl hset)]
    · have hentry : disk'.entry (node.addrs 12) j = disk.entry (node.addrs 12) j := by
        rw [Disk.entry, Disk.entry, h htype hset]
      rw [hentry]

/-- A block is found where it was, with the bytes it had, if the blocks that the inode reaches have
not changed. -/
theorem byteOf_congr (h : ∀ b ∈ reach disk node, disk'.block b = disk.block b) (bn : Word) :
    lookup disk' node bn = lookup disk node bn ∧
      disk'.byteOf node bn = disk.byteOf node bn := by
  have hlookup : lookup disk' node bn = lookup disk node bn :=
    lookup_congr (fun htype hset ↦ h _ (mem_reach_indirect htype hset)) bn
  refine ⟨hlookup, ?_⟩
  cases hfound : lookup disk node bn with
  | none => rw [byteOf_of_missing hfound, byteOf_of_missing (hlookup.trans hfound)]
  | some addr =>
    rw [byteOf_of_lookup hfound, byteOf_of_lookup (hlookup.trans hfound)]
    exact h addr (lookup_mem_reach hfound)

/-- The data of an inode are in other blocks than its pointers. -/
theorem lookup_ne_indirect (honce : (reach disk node).Nodup)
    (hlookup : lookup disk node bn = some addr) (htype : node.type ≠ .extent)
    (hset : node.addrs 12 ≠ 0) : addr ≠ node.addrs 12 := by
  rw [reach_pointer htype, Disk.pointees, Disk.indirectBlocks, if_neg hset,
    ← List.append_assoc] at honce
  exact (List.nodup_append.mp honce).2.2 addr (lookup_mem_data htype hlookup) _
    (List.mem_singleton_self _)

/-- The data of a cached inode are in other blocks than any pointers. -/
theorem FS.Sound.lookup_ne_indirect (h : fs.Sound) (hcached : fs.Cached slot)
    (hlookup : lookup fs.disk (fs.icache slot).toDinode bn = some addr) {inum : Word}
    (hversion : fs.Version inum node) (htype : node.type ≠ .extent) (hset : node.addrs 12 ≠ 0) :
    addr ≠ node.addrs 12 := by
  have hself := h.version hcached
  by_cases heq : inum = (fs.icache slot).inum
  · have hown := XV6.lookup_ne_indirect (h.linked.once _ _ hself) hlookup
    obtain ⟨-, hdisk | ⟨other, hother, hinum, hnode⟩⟩ := hversion
    · -- The record has the indirect block of the copy.
      rw [heq] at hdisk
      have hfollows := h.follows slot hcached
      rw [← hdisk] at hfollows
      have htype' : (fs.icache slot).type ≠ .extent := hfollows.type ▸ htype
      have hindirect := hfollows.indirect htype' hset
      rw [← hindirect] at hset ⊢
      exact hown htype' hset
    · rw [h.slot_eq hcached hother (hinum.trans heq)] at hnode
      rw [hnode] at htype hset ⊢
      exact hown htype hset
  · intro haddr
    exact h.linked.apart inum _ node _ heq hversion hself _ (mem_reach_indirect htype hset)
      (haddr ▸ lookup_mem_reach hlookup)

/-! ## One block -/

theorem FS.set_self (fs : FS) (slot : Slot) : fs.set slot (fs.icache slot) = fs := by
  unfold FS.set
  rw [Function.update_eq_self]

/-- The blocks that the file has keep their bytes when a block is added. -/
theorem FS.Stores.block_eq (h : fs.Stores slot bytes) {ip : Inode} {new : List Word}
    (hextends : Extends fs.disk (fs.icache slot).toDinode bn disk' ip.toDinode addr new)
    {other found : Word} (hlookup : lookup fs.disk (fs.icache slot).toDinode other = some found) :
    disk'.block found = fs.disk.block found := by
  have hversion := h.sound.version h.cached
  apply hextends.block_eq
  · intro hnew
    have hused := h.sound.linked.used _ _ hversion found (lookup_mem_reach hlookup)
    rw [hextends.takes.clear found hnew] at hused
    contradiction
  · exact XV6.lookup_ne_indirect (h.sound.linked.once _ _ hversion) hlookup

/-- `bmap` adds a block of zeros, so the file stores what it did. -/
theorem FS.Stores.add (h : fs.Stores slot bytes) {ip : Inode} (hrange : bn.toNat < 140)
    (hkeeps : Keeps fs.disk (fs.icache slot).toDinode bn)
    (hmissing : lookup fs.disk (fs.icache slot).toDinode bn = none)
    (hbmap : bmap fs.disk (fs.icache slot) bn = some (addr, ip, disk')) :
    (FS.set { fs with disk := disk' } slot ip).Stores slot bytes ∧
      lookup disk' ip.toDinode bn = some addr := by
  have hstrays := hkeeps.strays_eq h.zero
  have hadds := hkeeps.bmap_adds h.zero hrange h.short hmissing hbmap
  obtain ⟨hip, new, hextends⟩ := bmap_extends hbmap
  have hnew := h.sound.new_block_zero h.zero h.cached hbmap hstrays hmissing hadds.inside
  have hold (other found : Word)
      (hlookup : lookup fs.disk (fs.icache slot).toDinode other = some found) : found ≠ addr := by
    rintro rfl
    have hused := h.sound.linked.used _ _ (h.sound.version h.cached) found
      (lookup_mem_reach hlookup)
    rw [hadds.clear] at hused
    contradiction
  refine ⟨?_, hadds.found⟩
  constructor
  case sound => exact h.sound.map h.cached hbmap (by omega) hstrays
  case zero => exact h.sound.map_freeZero h.zero h.cached hbmap
  case cached =>
    rw [FS.cached_set_self, hip]
    exact h.cached
  case short =>
    rw [FS.set_icache_self]
    exact bmap_short hrange h.short hbmap
  case injective =>
    rw [FS.set_icache_self]
    intro first second found hfirst hsecond
    change lookup disk' ip.toDinode first = some found at hfirst
    change lookup disk' ip.toDinode second = some found at hsecond
    by_cases hbn : first = bn
    · by_cases hbn' : second = bn
      · exact hbn.trans hbn'.symm
      · rw [hbn, hadds.found] at hfirst
        rw [hadds.others second hbn'] at hsecond
        exact absurd (Option.some.inj hfirst).symm (hold second found hsecond)
    · rw [hadds.others first hbn] at hfirst
      by_cases hbn' : second = bn
      · rw [hbn', hadds.found] at hsecond
        exact absurd (Option.some.inj hsecond).symm (hold first found hfirst)
      · rw [hadds.others second hbn'] at hsecond
        exact h.injective first second found hfirst hsecond
  case content =>
    rw [FS.set_icache_self]
    intro other hother i hi
    rw [← h.content other hother i hi]
    change disk'.byteOf ip.toDinode other i = _
    by_cases hbn : other = bn
    · rw [hbn, byteOf_of_lookup hadds.found, byteOf_of_missing hmissing]
      exact hnew i hi
    · have hsame := hadds.others other hbn
      cases hfound : lookup fs.disk (fs.icache slot).toDinode other with
      | none => rw [byteOf_of_missing hfound, byteOf_of_missing (hsame.trans hfound)]
      | some found =>
        rw [byteOf_of_lookup hfound, byteOf_of_lookup (hsame.trans hfound),
          h.block_eq hextends hfound]

/-- `bmap` finds the block or adds it. -/
theorem FS.Stores.mapSlot (h : fs.Stores slot bytes) (hrange : (off / 512).toNat < 140)
    (hkeeps : Keeps fs.disk (fs.icache slot).toDinode (off / 512))
    (hrun : XV6.mapSlot slot off fs = some (addr, fs')) :
    fs'.Stores slot bytes ∧ lookup fs'.disk (fs'.icache slot).toDinode (off / 512) = some addr ∧
      (fs.icache slot).Remaps (fs'.icache slot) := by
  obtain ⟨ip, disk, hbmap, rfl⟩ := mapSlot_cases hrun
  rw [FS.set_icache_self]
  cases hlookup : lookup fs.disk (fs.icache slot).toDinode (off / 512) with
  | some found =>
    rw [bmap_of_lookup hlookup] at hbmap
    cases hbmap
    refine ⟨?_, hlookup, .refl _⟩
    change (fs.set slot (fs.icache slot)).Stores slot bytes
    rwa [FS.set_self]
  | none =>
    obtain ⟨hstores, hfound⟩ := h.add hrange hkeeps hlookup hbmap
    exact ⟨hstores, hfound, (bmap_extends hbmap).1⟩

/-- A write into a block of the file is a write into the array. -/
theorem FS.Stores.setBlock (h : fs.Stores slot bytes) {pos m : ℕ} (src : Store)
    (hpos : pos + m ≤ 512) (hlookup : lookup fs.disk (fs.icache slot).toDinode bn = some addr) :
    FS.Stores { fs with disk := fs.disk.setBlock addr (splice (fs.disk.block addr) pos m src) } slot
      (splice bytes (512 * bn.toNat + pos) m src) := by
  have hversion := h.sound.version h.cached
  have hindirect (inum : Word) (node : Dinode) (hnode : fs.Version inum node)
      (htype : node.type ≠ .extent) (hset : node.addrs 12 ≠ 0) : addr ≠ node.addrs 12 :=
    h.sound.lookup_ne_indirect h.cached hlookup hnode htype hset
  have hsame (other : Word) : lookup (fs.disk.setBlock addr (splice (fs.disk.block addr) pos m src))
      (fs.icache slot).toDinode other = lookup fs.disk (fs.icache slot).toDinode other :=
    lookup_congr (fun htype hset ↦
      Function.update_of_ne (hindirect _ _ hversion htype hset).symm _ _) other
  constructor
  case sound => exact h.sound.setBlock _ hindirect
  case zero =>
    exact h.zero.setBlock (h.sound.linked.used _ _ hversion addr (lookup_mem_reach hlookup)) _
  case cached => exact h.cached
  case short => exact h.short
  case injective =>
    intro first second found hfirst hsecond
    exact h.injective first second found ((hsame first).symm.trans hfirst)
      ((hsame second).symm.trans hsecond)
  case content =>
    intro other hother i hi
    by_cases hbn : other = bn
    · subst hbn
      have hcontent := h.content other hother i hi
      rw [byteOf_of_lookup hlookup] at hcontent
      rw [byteOf_of_lookup ((hsame other).trans hlookup), splice_add]
      change Function.update fs.disk.block addr _ addr i = _
      rw [Function.update_self, splice, splice, hcontent]
    · have hne : other.toNat ≠ bn.toNat := fun heq ↦ hbn (BitVec.eq_of_toNat_eq heq)
      rw [splice_apply_outside bytes src (by omega), ← h.content other hother i hi]
      cases hfound : lookup fs.disk (fs.icache slot).toDinode other with
      | none => rw [byteOf_of_missing hfound, byteOf_of_missing ((hsame other).trans hfound)]
      | some found =>
        have haddr : found ≠ addr := by
          rintro rfl
          exact hbn (h.injective other bn found hfound hlookup)
        rw [byteOf_of_lookup hfound, byteOf_of_lookup ((hsame other).trans hfound)]
        exact congrFun (Function.update_of_ne haddr _ _) i

theorem lookup_eq_of_addrs {node' : Dinode} (htype : node'.type = node.type)
    (haddrs : node'.addrs = node.addrs) (bn : Word) :
    lookup disk node' bn = lookup disk node bn := by
  unfold lookup
  rw [htype, haddrs]

/-- References, locks and the fields that say nothing about blocks may change. -/
theorem FS.Stores.touch (h : fs.Stores slot bytes) (ip : Inode)
    (hinum : ip.inum = (fs.icache slot).inum) (htype : ip.type = (fs.icache slot).type)
    (haddrs : ip.addrs = (fs.icache slot).addrs) (href : 0 < ip.ref) (hvalid : ip.valid = true) :
    (fs.set slot ip).Stores slot bytes := by
  have hlookup (bn : Word) : lookup fs.disk ip.toDinode bn =
      lookup fs.disk (fs.icache slot).toDinode bn := lookup_eq_of_addrs htype haddrs bn
  constructor
  case sound =>
    exact h.sound.touch hinum htype haddrs (fun _ ↦ h.cached.1) fun _ ↦ h.cached.2
  case zero => exact h.zero
  case cached => exact FS.cached_set_self.mpr ⟨href, hvalid⟩
  case short =>
    rw [FS.set_icache_self, htype, haddrs]
    exact h.short
  case injective =>
    rw [FS.set_icache_self]
    intro first second addr hfirst hsecond
    exact h.injective first second addr ((hlookup first).symm.trans hfirst)
      ((hlookup second).symm.trans hsecond)
  case content =>
    rw [FS.set_icache_self]
    intro bn hbn i hi
    rw [← h.content bn hbn i hi, FS.set_disk, Disk.byteOf, hlookup, Disk.byteOf]

/-- The record of the inode may be written. -/
theorem FS.Stores.iupdateSlot (h : fs.Stores slot bytes) :
    FS.Stores { fs with disk := iupdate fs.disk (fs.icache slot) } slot bytes where
  sound := h.sound.iupdateSlot h.cached
  zero := h.zero.congr rfl rfl rfl
  cached := h.cached
  short := h.short
  injective := h.injective
  content := h.content

/-! ## Rounds -/

/-- The acts of the loop in `readi`. -/
def loads (slot : Slot) (rounds : List Round) : List Act :=
  rounds.map fun round ↦ .load slot (BitVec.ofNat 32 round.off)

/-- The acts of the loop in `writei`. -/
def stores (slot : Slot) (src : Store) (rounds : List Round) : List Act :=
  rounds.map fun round ↦
    .store slot (BitVec.ofNat 32 round.off) round.m fun i ↦ src (round.tot + i)

/-- The call of `bmap` in an act keeps its block. -/
def FS.KeepsBlock (fs : FS) : Act → Prop
  | .load slot off => Keeps fs.disk (fs.icache slot).toDinode (off / 512)
  | .store slot off _ _ => Keeps fs.disk (fs.icache slot).toDinode (off / 512)
  | _ => True

instance (fs : FS) : (act : Act) → Decidable (fs.KeepsBlock act)
  | .load slot off =>
    inferInstanceAs (Decidable (Keeps fs.disk (fs.icache slot).toDinode (off / 512)))
  | .store slot off _ _ =>
    inferInstanceAs (Decidable (Keeps fs.disk (fs.icache slot).toDinode (off / 512)))
  | .iget _ | .ialloc _ | .idup _ | .ilock _ | .iunlock _ | .iput _ | .iupdate _ | .assign _ _ =>
    isTrue trivial

theorem Inode.Remaps.locked (h : (fs.icache slot).Remaps (fs'.icache slot))
    (hlocked : fs.Locked slot) : fs'.Locked slot := by
  unfold FS.Locked FS.Cached at hlocked ⊢
  rw [h]
  exact hlocked

theorem blockNumber_ofNat {off : ℕ} (hoff : off < 140 * 512) :
    (BitVec.ofNat 32 off / 512).toNat = off / 512 := by
  have hself : (BitVec.ofNat 32 off).toNat = off := by
    rw [BitVec.toNat_ofNat, Nat.mod_eq_of_lt (by omega)]
  rw [BitVec.toNat_udiv, hself]
  rfl

/-- A round of the loop in `readi`. -/
theorem FS.Stores.readRound (h : fs.Stores slot bytes) {off m : ℕ} {data : List Byte} {next : FS}
    (hoff : off < 140 * 512) (hm : off % 512 + m ≤ 512)
    (hkeeps : fs.KeepsBlock (.load slot (BitVec.ofNat 32 off)))
    (hmap : XV6.mapSlot slot (BitVec.ofNat 32 off) fs = some (addr, fs'))
    (hread : readBlock addr off m fs' = some (data, next)) :
    next = fs' ∧ fs'.Stores slot bytes ∧ (fs.icache slot).Remaps (fs'.icache slot) ∧
      data = (List.range m).map fun i ↦ bytes (off + i) := by
  have hbn := blockNumber_ofNat hoff
  obtain ⟨hstores, hlookup, hremaps⟩ := h.mapSlot (by omega) hkeeps hmap
  cases hread
  refine ⟨rfl, hstores, hremaps, List.map_congr_left fun i hi ↦ ?_⟩
  have hlt := List.mem_range.mp hi
  have hcontent := hstores.content (BitVec.ofNat 32 off / 512) (by omega) (off % 512 + i)
    (by omega)
  have hindex : 512 * (off / 512) + (off % 512 + i) = off + i := by omega
  rwa [byteOf_of_lookup hlookup, hbn, hindex] at hcontent

/-- The loop in `readi` reads the array. -/
theorem FS.Stores.readRounds (h : fs.Stores slot bytes) (hlocked : fs.Locked slot)
    {fuel tot off n : ℕ} {data : List Byte} (hfuel : n - tot ≤ fuel)
    (hrange : off + (n - tot) ≤ 140 * 512)
    (hkeeps : Guarded FS.act FS.KeepsBlock fs (loads slot (rounds fuel tot off n)))
    (hrun : XV6.readRounds slot (rounds fuel tot off n) fs = some (data, fs')) :
    fs'.Stores slot bytes ∧ (fs.icache slot).Remaps (fs'.icache slot) ∧
      data = (List.range (n - tot)).map fun i ↦ bytes (off + i) := by
  induction fuel generalizing fs tot off data with
  | zero =>
    have hlength : n - tot = 0 := by omega
    cases hrun
    rw [hlength]
    exact ⟨h, .refl _, rfl⟩
  | succ fuel ih =>
    rw [rounds] at hkeeps hrun
    by_cases hmore : tot < n
    · rw [if_pos hmore] at hkeeps hrun
      obtain ⟨addr, middle, hmap, hrun⟩ := Code.bind_eq_some hrun
      obtain ⟨first, next, hread, hrun⟩ := Code.bind_eq_some hrun
      obtain ⟨rest, last, hrest, hdata⟩ := Code.bind_eq_some hrun
      cases hdata
      have hoff : off < 140 * 512 := by omega
      have hm : off % 512 + min (n - tot) (512 - off % 512) ≤ 512 := by omega
      obtain ⟨rfl, hstores, hremaps, rfl⟩ := h.readRound hoff hm hkeeps.1 hmap hread
      have hact : fs.act (.load slot (BitVec.ofNat 32 off)) = some next :=
        congrArg (Option.map Prod.snd) ((if_pos hlocked).trans hmap)
      obtain ⟨hlast, hremaps', rfl⟩ := ih hstores (hremaps.locked hlocked) (by omega) (by omega)
        (hkeeps.2 next hact) hrest
      refine ⟨hlast, hremaps.trans hremaps', ?_⟩
      have hlength : n - tot = min (n - tot) (512 - off % 512) +
          (n - (tot + min (n - tot) (512 - off % 512))) := by omega
      rw [hlength, List.range_add, List.map_append, List.map_map, ← hlength]
      congr 1
      refine List.map_congr_left fun i _ ↦ ?_
      rw [Function.comp_apply, Nat.add_assoc]
    · have hlength : n - tot = 0 := by omega
      rw [if_neg hmore] at hrun
      cases hrun
      rw [hlength]
      exact ⟨h, .refl _, rfl⟩

/-- A round of the loop in `writei`. -/
theorem FS.Stores.storeRound (h : fs.Stores slot bytes) {off m : ℕ} {src : Store}
    (hoff : off < 140 * 512) (hm : off % 512 + m ≤ 512)
    (hkeeps : Keeps fs.disk (fs.icache slot).toDinode (BitVec.ofNat 32 off / 512))
    (hrun : XV6.storeRound slot (BitVec.ofNat 32 off) m src fs = some ((), fs')) :
    fs'.Stores slot (splice bytes off m src) ∧ (fs.icache slot).Remaps (fs'.icache slot) := by
  have hbn := blockNumber_ofNat hoff
  have hself : (BitVec.ofNat 32 off).toNat = off := by
    rw [BitVec.toNat_ofNat, Nat.mod_eq_of_lt (by omega)]
  obtain ⟨addr, middle, hmap, hwrite⟩ := Code.bind_eq_some hrun
  obtain ⟨hstores, hlookup, hremaps⟩ := h.mapSlot (by omega) hkeeps hmap
  cases hwrite
  have hwritten := hstores.setBlock src hm hlookup
  have hindex : 512 * (off / 512) + off % 512 = off := by omega
  rw [hbn, hindex] at hwritten
  rw [hself]
  exact ⟨hwritten, hremaps⟩

/-- The loop in `writei` writes to the array. -/
theorem FS.Stores.writeRounds (h : fs.Stores slot bytes) (hlocked : fs.Locked slot) {src : Store}
    {fuel tot off n : ℕ} (hfuel : n - tot ≤ fuel) (hrange : off + (n - tot) ≤ 140 * 512)
    (hkeeps : Guarded FS.act FS.KeepsBlock fs (stores slot src (rounds fuel tot off n)))
    (hrun : XV6.writeRounds slot src (rounds fuel tot off n) fs = some ((), fs')) :
    fs'.Stores slot (splice bytes off (n - tot) fun i ↦ src (tot + i)) ∧
      (fs.icache slot).Remaps (fs'.icache slot) := by
  have hdone {fs : FS} {bytes : Store} {tot off : ℕ} (h : fs.Stores slot bytes) (hend : n ≤ tot) :
      fs.Stores slot (splice bytes off (n - tot) fun i ↦ src (tot + i)) := by
    have hsplice : splice bytes off (n - tot) (fun i ↦ src (tot + i)) = bytes :=
      funext fun i ↦ splice_apply_outside _ _ (by omega)
    rwa [hsplice]
  induction fuel generalizing fs tot off bytes with
  | zero =>
    cases hrun
    exact ⟨hdone h (by omega), .refl _⟩
  | succ fuel ih =>
    rw [rounds] at hkeeps hrun
    by_cases hmore : tot < n
    · rw [if_pos hmore] at hkeeps hrun
      obtain ⟨⟨⟩, middle, hround, hrest⟩ := Code.bind_eq_some hrun
      have hoff : off < 140 * 512 := by omega
      have hm : off % 512 + min (n - tot) (512 - off % 512) ≤ 512 := by omega
      obtain ⟨hstores, hremaps⟩ := h.storeRound hoff hm hkeeps.1 hround
      have hact : fs.act (.store slot (BitVec.ofNat 32 off) (min (n - tot) (512 - off % 512))
          fun i ↦ src (tot + i)) = some middle :=
        congrArg (Option.map Prod.snd) ((if_pos hlocked).trans hround)
      obtain ⟨hlast, hremaps'⟩ := ih hstores (hremaps.locked hlocked) (by omega) (by omega)
        (hkeeps.2 middle hact) hrest
      refine ⟨?_, hremaps.trans hremaps'⟩
      have hlength : n - tot = min (n - tot) (512 - off % 512) +
          (n - (tot + min (n - tot) (512 - off % 512))) := by omega
      rw [hlength, ← splice_append]
      simpa only [Nat.add_assoc] using hlast
    · rw [if_neg hmore] at hrun
      cases hrun
      exact ⟨hdone h (by omega), .refl _⟩

end OS537.XV6
