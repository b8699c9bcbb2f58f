import OS537.XV6.Links

/-!
# Links and new blocks

A call of `bmap` keeps the links between inodes and blocks, as long as it makes no block reachable
that it did not allocate, and so does a write to the block that it returns.
-/

namespace OS537.XV6

open Bytes

variable {fs fs' : FS} {slot : Slot} {inum : Word} {node : Dinode} {disk' : Disk} {ip : Inode}
  {bn addr : Word} {new : List Word}

/-! ## A call of `bmap` -/

/-- The indirect block that a call of `bmap` writes to is new, or the inode had it. -/
theorem Extends.block_eq (hextends : Extends fs.disk node bn disk' ip.toDinode addr new) {b : Word}
    (hnew : b ∉ new)
    (hold : node.type ≠ .extent → node.addrs 12 ≠ 0 → b ≠ node.addrs 12) :
    disk'.block b = fs.disk.block b := by
  rcases hextends.block with hsame | ⟨j, -, entry, -, htype, -, hplace, hblock⟩
  · rw [hsame]
  · rw [hblock]
    refine Function.update_of_ne ?_ _ _
    rcases hplace with ⟨-, hmem⟩ | ⟨hset, heq⟩
    · exact fun h ↦ hnew (h ▸ hmem)
    · rw [heq]
      exact hold htype hset

/-- The record of the inode reaches at most the new blocks more. -/
theorem Extends.reach_record (hextends : Extends fs.disk node bn disk' ip.toDinode addr new)
    {record : Dinode} (hfollows : Follows node record) :
    (reach disk' record).Subperm (new ++ reach fs.disk record) := by
  have hsame (hreach : reach disk' record = reach fs.disk record) :
      (reach disk' record).Subperm (new ++ reach fs.disk record) := by
    rw [hreach]
    exact (List.sublist_append_right _ _).subperm
  by_cases hpointer : record.type ≠ .extent ∧ record.addrs 12 ≠ 0
  · obtain ⟨htype, hset⟩ := hpointer
    have hindirect := hfollows.indirect (hfollows.type ▸ htype) hset
    rcases hextends.block with hblock | ⟨j, hj, entry, hentry, -, hclear, hplace, hblock⟩
    · exact hsame (reach_congr fun _ _ ↦ by rw [hblock])
    · have hplace' : ip.addrs 12 = record.addrs 12 := by
        rcases hplace with ⟨hzero, -⟩ | ⟨-, heq⟩
        · exact absurd (hindirect.symm.trans hzero) hset
        · exact heq.trans hindirect
      rw [hplace'] at hclear hblock
      -- The record has the same indirect block, and sees the new entry.
      have hentries : (disk'.entryBlocks (record.addrs 12)).Perm
          (pointerBlock entry ++ fs.disk.entryBlocks (record.addrs 12)) := by
        have heq : disk'.entryBlocks (record.addrs 12) =
            (fs.disk.setEntry (record.addrs 12) j entry).entryBlocks (record.addrs 12) := by
          simp only [Disk.entryBlocks, Disk.entry, hblock]
        rw [heq]
        exact entryBlocks_setEntry hj hclear
      have hpointer := (pointerBlock_subperm entry).trans (List.singleton_subperm_iff.mpr hentry)
      rw [reach_pointer htype, reach_pointer htype, Disk.pointees, Disk.pointees,
        Disk.indirectBlocks, Disk.indirectBlocks, if_neg hset, if_neg hset, List.subperm_iff_count]
      intro b
      have hcount := hentries.count_eq b
      have hnew := hpointer.count_le b
      simp only [List.count_append] at hcount ⊢
      omega
  · exact hsame (reach_congr fun htype hset ↦ absurd ⟨htype, hset⟩ hpointer)

section Mapped

variable (hextends : Extends fs.disk (fs.icache slot).toDinode bn disk' ip.toDinode addr new)

include hextends

variable (h : fs.Sound) (hcached : fs.Cached slot)

include h hcached

/-- The versions after a call of `bmap`: those of other inodes, the record, and the new contents. -/
theorem FS.Sound.version_of_map (hip : ip = { fs.icache slot with addrs := ip.addrs })
    (hversion : (FS.set { fs with disk := disk' } slot ip).Version inum node) :
    inum ≠ (fs.icache slot).inum ∧ fs.Version inum node ∨
      inum = (fs.icache slot).inum ∧ fs.Version inum node ∧ node = fs.disk.dinode inum ∨
      inum = (fs.icache slot).inum ∧ node = ip.toDinode := by
  have hinum : ip.inum = (fs.icache slot).inum := congrArg (·.inum) hip
  obtain ⟨hallocated, hdisk | ⟨other, hne, hother, heq, hnode⟩ | ⟨-, -, heq, hnode⟩⟩ :=
    hversion.of_set
  · change node = disk'.dinode inum at hdisk
    rw [hextends.takes.dinode] at hdisk
    have hold : fs.Version inum node := ⟨hallocated, Or.inl hdisk⟩
    by_cases heq : inum = (fs.icache slot).inum
    · exact Or.inr (Or.inl ⟨heq, hold, hdisk⟩)
    · exact Or.inl ⟨heq, hold⟩
  · exact Or.inl ⟨fun heq' ↦ hne (h.slot_eq hcached hother (heq.trans heq')), hallocated,
      Or.inr ⟨other, hother, heq, hnode⟩⟩
  · exact Or.inr (Or.inr ⟨heq.symm.trans hinum, hnode⟩)

/-- Other inodes reach what they did. -/
theorem FS.Sound.reach_other (hversion : fs.Version inum node)
    (hne : inum ≠ (fs.icache slot).inum) : reach disk' node = reach fs.disk node := by
  apply reach_congr
  intro htype hset
  have hmem : node.addrs 12 ∈ reach fs.disk node := mem_reach_indirect htype hset
  apply hextends.block_eq
  · intro hnew
    have htrue := h.linked.used inum node hversion _ hmem
    rw [hextends.takes.clear _ hnew] at htrue
    contradiction
  · intro htype' hset' heq
    exact h.linked.apart inum _ node _ hne hversion (h.version hcached) _ hmem
      (heq ▸ mem_reach_indirect htype' hset')

/-- The indirect block of the record is that of the new contents. -/
theorem FS.Sound.indirect_eq (hip : ip = { fs.icache slot with addrs := ip.addrs })
    (htype : ip.type ≠ .extent)
    (hset : (fs.disk.dinode (fs.icache slot).inum).addrs 12 ≠ 0) :
    ip.addrs 12 = (fs.disk.dinode (fs.icache slot).inum).addrs 12 := by
  have hold : (fs.icache slot).type ≠ .extent := by
    rw [hip] at htype
    exact htype
  have hindirect := (h.follows slot hcached).indirect hold hset
  rw [← hindirect] at hset ⊢
  exact hextends.last (Or.inr hset)

/-- What a version reaches after a call of `bmap` that adds no stray block. -/
theorem FS.Sound.reach_map (hip : ip = { fs.icache slot with addrs := ip.addrs })
    (hstrays : strays fs.disk (fs.icache slot).toDinode bn = [])
    (hversion : (FS.set { fs with disk := disk' } slot ip).Version inum node) :
    ∃ old, fs.Version inum old ∧ (reach disk' node).Subperm
      ((if inum = (fs.icache slot).inum then new else []) ++ reach fs.disk old) := by
  obtain ⟨hne, hold⟩ | ⟨heq, hold, hnode⟩ | ⟨heq, hnode⟩ :=
    h.version_of_map hextends hcached hip hversion
  · refine ⟨node, hold, ?_⟩
    rw [if_neg hne, List.nil_append, h.reach_other hextends hcached hold hne]
  · refine ⟨node, hold, ?_⟩
    subst heq
    rw [if_pos rfl, hnode]
    exact hextends.reach_record (h.follows slot hcached)
  · refine ⟨_, heq ▸ h.version hcached, ?_⟩
    have hsub := hextends.subperm
    rw [hstrays, List.nil_append] at hsub
    rw [if_pos heq, hnode]
    exact hsub

end Mapped

theorem bmap_separate {disk : Disk} {ip' : Inode}
    (hbmap : bmap disk ip bn = some (addr, ip', disk')) (htype : ip.type = .extent)
    (hseparate : ip.addrs.Separate) (hbn : bn.toNat < 2 ^ 31) : ip'.addrs.Separate := by
  rw [bmap_eq, if_pos htype] at hbmap
  obtain ⟨⟨found, addrs, last⟩, hrun, hresult⟩ := Option.map_eq_some_iff.mp hbmap
  have haddrs : ip'.addrs = addrs := congrArg (fun result ↦ result.2.1.addrs) hresult.symm
  rw [haddrs]
  exact hseparate.bmapExtent hbn hrun

/-- A call of `bmap` on a cached inode that adds no stray block. -/
theorem FS.Sound.map (h : fs.Sound) (hcached : fs.Cached slot)
    (hbmap : bmap fs.disk (fs.icache slot) bn = some (addr, ip, disk')) (hbn : bn.toNat < 2 ^ 31)
    (hstrays : strays fs.disk (fs.icache slot).toDinode bn = []) :
    (FS.set { fs with disk := disk' } slot ip).Sound := by
  obtain ⟨hip, new, hextends⟩ := bmap_extends hbmap
  have hinum : ip.inum = (fs.icache slot).inum := congrArg (·.inum) hip
  have href : ip.ref = (fs.icache slot).ref := congrArg (·.ref) hip
  have htype : ip.type = (fs.icache slot).type := congrArg (·.type) hip
  constructor
  case linked =>
    refine h.linked.grow (fs.icache slot).inum hextends.takes.nodup hextends.takes.clear
      (fun b ↦ (hextends.takes.used_iff b).mpr)
      (fun other node hversion ↦ Or.inr (h.reach_map hextends hcached hip hstrays hversion)) ?_
    intro other node hversion hextent
    obtain ⟨-, hold⟩ | ⟨-, hold, -⟩ | ⟨heq, hnode⟩ :=
      h.version_of_map hextends hcached hip hversion
    · exact h.linked.separate other node hold hextent
    · exact h.linked.separate other node hold hextent
    · rw [hnode] at hextent ⊢
      have hextent' := htype.symm.trans hextent
      exact bmap_separate hbmap hextent'
        (h.linked.separate _ _ (h.version hcached) hextent') hbn
  case unique =>
    have hkept (other : Slot) :
        ((FS.set { fs with disk := disk' } slot ip).icache other).ref = (fs.icache other).ref ∧
          ((FS.set { fs with disk := disk' } slot ip).icache other).inum =
            (fs.icache other).inum := by
      by_cases heq : other = slot
      · rw [heq, FS.set_icache_self]
        exact ⟨href, hinum⟩
      · rw [FS.set_icache_of_ne _ ip heq]
        exact ⟨rfl, rfl⟩
    intro first second hfirst hsecond heq
    rw [(hkept first).1] at hfirst
    rw [(hkept second).1] at hsecond
    rw [(hkept first).2, (hkept second).2] at heq
    exact h.unique first second hfirst hsecond heq
  case follows =>
    intro other hother
    rw [FS.set_disk]
    change Follows _ (disk'.dinode _)
    rw [hextends.takes.dinode]
    by_cases heq : other = slot
    · have hfollows := h.follows slot hcached
      rw [heq, FS.set_icache_self, hinum]
      exact ⟨htype ▸ hfollows.allocated, hfollows.type.trans htype.symm,
        h.indirect_eq hextends hcached hip⟩
    · rw [FS.set_icache_of_ne _ ip heq]
      exact h.follows other ((FS.cached_set_of_ne heq).mp hother)

/-! ## Writing into a block -/

/-- The address that `bmap` returns is not that of an indirect block. -/
theorem FS.Sound.addr_ne_indirect (h : fs.Sound) (hcached : fs.Cached slot)
    (hbmap : bmap fs.disk (fs.icache slot) bn = some (addr, ip, disk')) (hbn : bn.toNat < 2 ^ 31)
    (hstrays : strays fs.disk (fs.icache slot).toDinode bn = [])
    (hversion : (FS.set { fs with disk := disk' } slot ip).Version inum node)
    (htype : node.type ≠ .extent) (hset : node.addrs 12 ≠ 0) : addr ≠ node.addrs 12 := by
  obtain ⟨hip, new, hextends⟩ := bmap_extends hbmap
  have hnext := h.map hcached hbmap hbn hstrays
  have hkind : ip.type = (fs.icache slot).type := congrArg (·.type) hip
  -- The data of an inode with pointers are apart from its indirect block.
  have hown (hpointer : ip.type ≠ .extent) (hindirect : ip.addrs 12 ≠ 0) : addr ≠ ip.addrs 12 := by
    rcases hextends.data (hkind ▸ hpointer) with hzero | hdata
    · rw [hzero]
      exact hindirect.symm
    · have hslot : (FS.set { fs with disk := disk' } slot ip).Version ip.inum ip.toDinode := by
        have hself : FS.Cached (FS.set { fs with disk := disk' } slot ip) slot := by
          rw [FS.cached_set_self, hip]
          exact hcached
        have hversion' := hnext.version hself
        rwa [FS.set_icache_self] at hversion'
      have honce : (reach disk' ip.toDinode).Nodup := hnext.linked.once _ _ hslot
      rw [reach_pointer hpointer, Disk.pointees, Disk.indirectBlocks, if_neg hindirect,
        ← List.append_assoc] at honce
      intro heq
      exact (List.nodup_append.mp honce).2.2 addr hdata _ (List.mem_singleton_self _) heq
  obtain ⟨hne, hold⟩ | ⟨heq, hold, hnode⟩ | ⟨heq, hnode⟩ :=
    h.version_of_map hextends hcached hip hversion
  · intro haddr
    have hmem : addr ∈ reach fs.disk node := haddr ▸ mem_reach_indirect htype hset
    have hused := h.linked.used inum node hold addr hmem
    rcases hextends.addr_mem with hnew | hstray | hreach
    · rw [hextends.takes.clear addr hnew] at hused
      contradiction
    · rw [hstrays] at hstray
      contradiction
    · exact h.linked.apart inum _ node _ hne hold (h.version hcached) addr hmem hreach
  · subst heq
    rw [hnode] at htype hset ⊢
    have hpointer : ip.type ≠ .extent := by
      rw [hkind, ← (h.follows slot hcached).type]
      exact htype
    have hindirect := h.indirect_eq hextends hcached hip hpointer hset
    rw [← hindirect] at hset ⊢
    exact hown hpointer hset
  · rw [hnode] at htype hset ⊢
    exact hown htype hset

/-- Data that go to no indirect block leave the links alone. -/
theorem FS.Sound.setBlock (h : fs.Sound) {addr : Word} (data : Store)
    (hsafe : ∀ inum node, fs.Version inum node → node.type ≠ .extent → node.addrs 12 ≠ 0 →
      addr ≠ node.addrs 12) : FS.Sound { fs with disk := fs.disk.setBlock addr data } where
  linked := by
    refine FS.Linked.keep h.linked ?_ ?_ ?_
    · rfl
    · intro other node hversion
      have hold : fs.Version other node := ⟨hversion.allocated, hversion.place⟩
      exact Or.inr ⟨node, hold, reach_congr fun htype hset ↦
        Function.update_of_ne (hsafe other node hold htype hset).symm _ _⟩
    · exact fun other node hversion ↦
        h.linked.separate other node ⟨hversion.allocated, hversion.place⟩
  unique := h.unique
  follows := h.follows

end OS537.XV6
