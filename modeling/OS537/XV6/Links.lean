import OS537.XV6.Cache
import OS537.XV6.Stable

/-!
# Links between inodes and blocks

An inode has up to two versions, the record on the disk and the contents of its cached copy. The
copy may be ahead of the record, since `bmap` does not write the inode back, and an inode that
leaves the cache falls back to its record. So the blocks of both versions have to be in use, and no
version of another inode may reach them. Neither version runs ahead in its indirect block: once a
record has one, the copy has the same.
-/

namespace OS537.XV6

open Bytes

variable {fs fs' : FS} {slot : Slot} {inum : Word} {node : Dinode} {disk disk' : Disk} {b : Word}

/-! ## Versions -/

/-- The inode `inum` is allocated, and `node` is its record or its cached contents. -/
structure FS.Version (fs : FS) (inum : Word) (node : Dinode) : Prop where
  allocated : node.type ≠ .free
  place : node = fs.disk.dinode inum ∨
    ∃ slot, fs.Cached slot ∧ (fs.icache slot).inum = inum ∧ node = (fs.icache slot).toDinode

/-- The logical block `n` is in extent `k`. -/
def Addrs.InExtent (addrs : Addrs) (k : Fin 6) (n : ℕ) : Prop :=
  (addrs.start k).toNat ≤ n ∧ n < (addrs.start k).toNat + (extentLength (addrs.packed k)).toNat

/-- The logical ranges of the extents are pairwise disjoint. -/
def Addrs.Separate (addrs : Addrs) : Prop :=
  ∀ j k n, addrs.InExtent j n → addrs.InExtent k n → j = k

/-- No block is cross-linked: the blocks of an inode are in use, each is reached once and from one
inode only, and the extents of an inode do not overlap. -/
structure FS.Linked (fs : FS) : Prop where
  used : ∀ inum node, fs.Version inum node → ∀ b ∈ reach fs.disk node, fs.disk.used b = true
  once : ∀ inum node, fs.Version inum node → (reach fs.disk node).Nodup
  apart : ∀ inum other node node', inum ≠ other → fs.Version inum node → fs.Version other node' →
    ∀ b ∈ reach fs.disk node, b ∉ reach fs.disk node'
  separate : ∀ inum node, fs.Version inum node → node.type = .extent → node.addrs.Separate

/-- The cached copy has the type of the record, and its indirect block if there is one. -/
structure Follows (copy record : Dinode) : Prop where
  allocated : copy.type ≠ .free
  type : record.type = copy.type
  indirect : copy.type ≠ .extent → record.addrs 12 ≠ 0 → copy.addrs 12 = record.addrs 12

/-- The invariant of the inode cache and the disk. -/
structure FS.Sound (fs : FS) : Prop where
  linked : fs.Linked
  unique : fs.Unique
  follows : ∀ slot, fs.Cached slot →
    Follows (fs.icache slot).toDinode (fs.disk.dinode (fs.icache slot).inum)

/-! ## What versions reach -/

theorem mem_reach_indirect (htype : node.type ≠ .extent) (hset : node.addrs 12 ≠ 0) :
    node.addrs 12 ∈ reach disk node := by
  rw [reach_pointer htype, Disk.pointees, Disk.indirectBlocks, if_neg hset]
  exact List.mem_append_right _ (List.mem_append_right _ (List.mem_singleton_self _))

/-- What an inode reaches depends on the contents of its indirect block only. -/
theorem reach_congr (h : node.type ≠ .extent → node.addrs 12 ≠ 0 →
    disk'.block (node.addrs 12) = disk.block (node.addrs 12)) :
    reach disk' node = reach disk node := by
  by_cases htype : node.type = .extent
  · rw [reach_extent htype, reach_extent htype]
  · rw [reach_pointer htype, reach_pointer htype, Disk.pointees, Disk.pointees]
    by_cases hset : node.addrs 12 = 0
    · rw [Disk.indirectBlocks, Disk.indirectBlocks, if_pos hset, if_pos hset]
    · simp only [Disk.indirectBlocks, Disk.entryBlocks, Disk.entry, h htype hset]

theorem reach_zero (hzero : node.addrs = fun _ ↦ 0) : reach disk node = [] := by
  unfold reach
  split
  · rw [hzero]
    decide
  · have hdirect : Addrs.directBlocks (fun _ ↦ 0) = [] :=
      List.flatMap_eq_nil_iff.mpr fun _ _ ↦ pointerBlock_zero
    rw [hzero, Disk.pointees, hdirect, Disk.indirectBlocks, if_pos rfl, List.append_nil]

theorem reach_eq_of_addrs {node' : Dinode} (htype : node'.type = node.type)
    (haddrs : node'.addrs = node.addrs) : reach disk node' = reach disk node := by
  unfold reach
  rw [htype, haddrs]

/-- Blocks are taken for one inode, and no version reaches more than it did and those blocks. -/
theorem FS.Linked.grow (h : fs.Linked) (inum : Word) {new : List Word} (hnodup : new.Nodup)
    (hclear : ∀ b ∈ new, fs.disk.used b = false)
    (hused : ∀ b, b ∈ new ∨ fs.disk.used b = true → fs'.disk.used b = true)
    (hreach : ∀ other node', fs'.Version other node' → reach fs'.disk node' = [] ∨
      ∃ node, fs.Version other node ∧
        (reach fs'.disk node').Subperm ((if other = inum then new else []) ++ reach fs.disk node))
    (hseparate : ∀ other node', fs'.Version other node' → node'.type = .extent →
      node'.addrs.Separate) : fs'.Linked := by
  have hold {other : Word} {node : Dinode} (hversion : fs.Version other node) :
      ∀ b ∈ new, b ∉ reach fs.disk node := by
    intro b hnew hmem
    have htrue := h.used other node hversion b hmem
    rw [hclear b hnew] at htrue
    contradiction
  have hmem {other : Word} {node' : Dinode} (hversion : fs'.Version other node')
      {b : Word} (hb : b ∈ reach fs'.disk node') :
      (other = inum ∧ b ∈ new) ∨ ∃ node, fs.Version other node ∧ b ∈ reach fs.disk node := by
    rcases hreach other node' hversion with hnil | ⟨node, hnode, hsub⟩
    · rw [hnil] at hb
      contradiction
    · rcases List.mem_append.mp (hsub.subset hb) with hnew | hrest
      · by_cases heq : other = inum
        · rw [if_pos heq] at hnew
          exact Or.inl ⟨heq, hnew⟩
        · rw [if_neg heq] at hnew
          contradiction
      · exact Or.inr ⟨node, hnode, hrest⟩
  constructor
  case used =>
    intro other node' hversion b hb
    rcases hmem hversion hb with ⟨-, hnew⟩ | ⟨node, hnode, hb⟩
    · exact hused b (Or.inl hnew)
    · exact hused b (Or.inr (h.used other node hnode b hb))
  case once =>
    intro other node' hversion
    rcases hreach other node' hversion with hnil | ⟨node, hnode, hsub⟩
    · rw [hnil]
      exact List.nodup_nil
    · obtain ⟨blocks, hperm, hsublist⟩ := hsub
      refine hperm.nodup_iff.mp (List.Nodup.sublist hsublist ?_)
      by_cases heq : other = inum
      · rw [if_pos heq]
        exact hnodup.append (h.once other node hnode) fun b hnew ↦ hold hnode b hnew
      · rw [if_neg heq, List.nil_append]
        exact h.once other node hnode
  case apart =>
    intro first second node node' hne hversion hversion' b hb hb'
    rcases hmem hversion hb with ⟨heq, hnew⟩ | ⟨old, hold₁, hmem₁⟩
    · rcases hmem hversion' hb' with ⟨heq', -⟩ | ⟨old', hold', hmem'⟩
      · exact hne (heq.trans heq'.symm)
      · exact hold hold' b hnew hmem'
    · rcases hmem hversion' hb' with ⟨-, hnew⟩ | ⟨old', hold', hmem'⟩
      · exact hold hold₁ b hnew hmem₁
      · exact h.apart first second old old' hne hold₁ hold' b hmem₁ hmem'
  case separate => exact hseparate

/-- No block is taken, and every version reaches what a version of the same inode did. -/
theorem FS.Linked.keep (h : fs.Linked) (hused : fs'.disk.used = fs.disk.used)
    (hreach : ∀ other node', fs'.Version other node' → reach fs'.disk node' = [] ∨
      ∃ node, fs.Version other node ∧ reach fs'.disk node' = reach fs.disk node)
    (hseparate : ∀ other node', fs'.Version other node' → node'.type = .extent →
      node'.addrs.Separate) : fs'.Linked := by
  refine h.grow 0 List.nodup_nil (fun _ hmem ↦ absurd hmem List.not_mem_nil) ?_
    (fun other node' hversion ↦ ?_) hseparate
  · rintro b (hmem | htrue)
    · exact absurd hmem List.not_mem_nil
    · rwa [hused]
  · refine (hreach other node' hversion).imp_right fun ⟨node, hnode, heq⟩ ↦ ⟨node, hnode, ?_⟩
    rw [ite_self, List.nil_append, heq]

/-! ## The cache -/

/-- The versions after one cached inode has changed. -/
theorem FS.Version.of_set {ip : Inode} (h : (fs.set slot ip).Version inum node) :
    node.type ≠ .free ∧ (node = fs.disk.dinode inum ∨
      (∃ other, other ≠ slot ∧ fs.Cached other ∧ (fs.icache other).inum = inum ∧
        node = (fs.icache other).toDinode) ∨
      0 < ip.ref ∧ ip.valid = true ∧ ip.inum = inum ∧ node = ip.toDinode) := by
  obtain ⟨hallocated, hdisk | ⟨other, hcached, hinum, hnode⟩⟩ := h
  · exact ⟨hallocated, Or.inl hdisk⟩
  · refine ⟨hallocated, Or.inr ?_⟩
    by_cases heq : other = slot
    · subst heq
      rw [FS.set_icache_self] at hinum hnode
      obtain ⟨href, hvalid⟩ := FS.cached_set_self.mp hcached
      exact Or.inr ⟨href, hvalid, hinum, hnode⟩
    · rw [FS.set_icache_of_ne fs ip heq] at hinum hnode
      exact Or.inl ⟨other, heq, (FS.cached_set_of_ne heq).mp hcached, hinum, hnode⟩

/-- A cached inode gets contents that reach what a version of it reaches. -/
theorem FS.Sound.set (h : fs.Sound) {ip : Inode}
    (hunique : 0 < ip.ref → ∀ other, other ≠ slot → 0 < (fs.icache other).ref →
      (fs.icache other).inum ≠ ip.inum)
    (hcached : 0 < ip.ref → ip.valid = true →
      Follows ip.toDinode (fs.disk.dinode ip.inum) ∧
        ∃ node, fs.Version ip.inum node ∧ ip.type = node.type ∧ ip.addrs = node.addrs) :
    (fs.set slot ip).Sound where
  linked := by
    have hversions (other : Word) (node' : Dinode)
        (hversion : (fs.set slot ip).Version other node') :
        ∃ node, fs.Version other node ∧ node'.type = node.type ∧ node'.addrs = node.addrs := by
      obtain ⟨hallocated, hdisk | ⟨first, -, hfirst⟩ | ⟨href, hvalid, hinum, hnode⟩⟩ :=
        hversion.of_set
      · exact ⟨node', ⟨hallocated, Or.inl hdisk⟩, rfl, rfl⟩
      · exact ⟨node', ⟨hallocated, Or.inr ⟨first, hfirst⟩⟩, rfl, rfl⟩
      · subst hinum
        subst hnode
        exact (hcached href hvalid).2
    refine h.linked.keep rfl (fun other node' hversion ↦ Or.inr ?_)
      fun other node' hversion htype ↦ ?_
    · obtain ⟨node, hnode, htype, haddrs⟩ := hversions other node' hversion
      exact ⟨node, hnode, reach_eq_of_addrs htype haddrs⟩
    · obtain ⟨node, hnode, htype', haddrs⟩ := hversions other node' hversion
      rw [haddrs]
      exact h.linked.separate other node hnode (htype' ▸ htype)
  unique := h.unique.set hunique
  follows := by
    intro other hother
    by_cases heq : other = slot
    · subst heq
      obtain ⟨href, hvalid⟩ := FS.cached_set_self.mp hother
      rw [FS.set_icache_self]
      exact (hcached href hvalid).1
    · rw [FS.set_icache_of_ne fs ip heq]
      exact h.follows other ((FS.cached_set_of_ne heq).mp hother)

theorem FS.Sound.version (h : fs.Sound) (hcached : fs.Cached slot) :
    fs.Version (fs.icache slot).inum (fs.icache slot).toDinode :=
  ⟨(h.follows slot hcached).allocated, Or.inr ⟨slot, hcached, rfl, rfl⟩⟩

/-- An inode is cached in one slot. -/
theorem FS.Sound.slot_eq (h : fs.Sound) (hcached : fs.Cached slot) {other : Slot}
    (hother : fs.Cached other) (heq : (fs.icache other).inum = (fs.icache slot).inum) :
    other = slot :=
  h.unique other slot hother.1 hcached.1 heq

/-- References, locks and the fields that say nothing about blocks may change. -/
theorem FS.Sound.touch (h : fs.Sound) {ip : Inode} (hinum : ip.inum = (fs.icache slot).inum)
    (htype : ip.type = (fs.icache slot).type) (haddrs : ip.addrs = (fs.icache slot).addrs)
    (href : 0 < ip.ref → 0 < (fs.icache slot).ref)
    (hvalid : ip.valid = true → (fs.icache slot).valid = true) : (fs.set slot ip).Sound := by
  apply h.set
  · intro hpos other hne hother heq
    exact hne (h.unique other slot hother (href hpos) (heq.trans hinum))
  · intro hpos htrue
    have hcached : fs.Cached slot := ⟨href hpos, hvalid htrue⟩
    have hfollows := h.follows slot hcached
    rw [hinum]
    refine ⟨⟨htype ▸ hfollows.allocated, htype ▸ hfollows.type, ?_⟩,
      _, h.version hcached, htype, haddrs⟩
    rw [htype, haddrs]
    exact hfollows.indirect

theorem FS.Sound.iget (h : fs.Sound) (hrun : iget inum fs = some (slot, fs')) : fs'.Sound := by
  obtain ⟨href, -, rfl⟩ | ⟨hmiss, -, rfl⟩ := iget_cases hrun
  · exact h.touch rfl rfl rfl (fun _ ↦ href) id
  · apply h.set
    · exact fun _ other _ href ↦ hmiss other href
    · intro _ hvalid
      cases hvalid

theorem FS.Sound.ilock (h : fs.Sound) (hrun : ilock slot fs = some ((), fs')) : fs'.Sound := by
  obtain ⟨href, -, ⟨-, rfl⟩ | ⟨-, htype, rfl⟩⟩ := ilock_cases hrun
  · exact h.touch rfl rfl rfl id id
  · -- The record comes into the cache.
    apply h.set
    · exact fun _ other hne hother heq ↦ hne (h.unique other slot hother href heq)
    · intro _ _
      exact ⟨⟨htype, rfl, fun _ _ ↦ rfl⟩, _, ⟨htype, Or.inl rfl⟩, rfl, rfl⟩

/-! ## Records -/

theorem Addrs.separate_zero : Addrs.Separate fun _ ↦ 0 := by
  rintro j k n ⟨-, hlt⟩
  exact absurd hlt (by simp [Addrs.start, Addrs.packed, extentLength])

/-- A record is written: an empty one, or a version of its inode. -/
theorem FS.Sound.setDinode (h : fs.Sound) (inum : Word) (node : Dinode)
    (hnode : node.type ≠ .free → node.addrs = (fun _ ↦ 0) ∨ fs.Version inum node)
    (hfollows : ∀ slot, fs.Cached slot → (fs.icache slot).inum = inum →
      Follows (fs.icache slot).toDinode node) :
    FS.Sound { fs with disk := { fs.disk with
      dinode := Function.update fs.disk.dinode inum node } } where
  linked := by
    have hversions (other : Word) (node' : Dinode) (hversion : FS.Version { fs with
        disk := { fs.disk with dinode := Function.update fs.disk.dinode inum node } } other node') :
        node'.addrs = (fun _ ↦ 0) ∨ fs.Version other node' := by
      obtain ⟨hallocated, hdisk | hcached⟩ := hversion
      · change node' = Function.update fs.disk.dinode inum node other at hdisk
        by_cases heq : other = inum
        · rw [heq, Function.update_self] at hdisk
          rw [heq, hdisk]
          exact hnode (hdisk ▸ hallocated)
        · rw [Function.update_of_ne heq] at hdisk
          exact Or.inr ⟨hallocated, Or.inl hdisk⟩
      · exact Or.inr ⟨hallocated, Or.inr hcached⟩
    refine FS.Linked.keep h.linked ?_ ?_ ?_
    · rfl
    · intro other node' hversion
      rcases hversions other node' hversion with hzero | hold
      · exact Or.inl (reach_zero hzero)
      · exact Or.inr ⟨node', hold, reach_congr fun _ _ ↦ rfl⟩
    · intro other node' hversion htype
      rcases hversions other node' hversion with hzero | hold
      · rw [hzero]
        exact Addrs.separate_zero
      · exact h.linked.separate other node' hold htype
  unique := h.unique
  follows := by
    intro slot hcached
    change Follows _ (Function.update fs.disk.dinode inum node (fs.icache slot).inum)
    by_cases heq : (fs.icache slot).inum = inum
    · rw [heq, Function.update_self]
      exact hfollows slot hcached heq
    · rw [Function.update_of_ne heq]
      exact h.follows slot hcached

theorem FS.Sound.ialloc (h : fs.Sound) {type : FileType}
    (hrun : ialloc type fs = some (slot, fs')) : fs'.Sound := by
  obtain ⟨inum, hfree, hget⟩ := ialloc_cases hrun
  refine FS.Sound.iget (h.setDinode inum _ (fun _ ↦ Or.inl rfl) fun slot hcached heq ↦ ?_) hget
  have hfollows := h.follows slot hcached
  rw [heq] at hfollows
  exact absurd (hfollows.type.symm.trans hfree) hfollows.allocated

theorem FS.Sound.iupdateSlot (h : fs.Sound) (hcached : fs.Cached slot) :
    FS.Sound { fs with disk := iupdate fs.disk (fs.icache slot) } := by
  refine h.setDinode (fs.icache slot).inum (fs.icache slot).toDinode
    (fun _ ↦ Or.inr (h.version hcached)) fun other hother heq ↦ ?_
  rw [h.slot_eq hcached hother heq]
  exact ⟨(h.follows slot hcached).allocated, rfl, fun _ _ ↦ rfl⟩

/-! ## Extents that stay apart -/

section Extents

variable {addrs addrs' : Addrs} {bn addr : Word} {k : Fin 6} {n : ℕ}

/-- A block number that is in an extent is found there. -/
theorem Addrs.covers_of_inExtent (h : addrs.InExtent k bn.toNat) (hbn : bn.toNat < 2 ^ 31) :
    addrs.covers bn k = true := by
  have hlength := extentLength_lt (addrs.packed k)
  obtain ⟨hlow, hhigh⟩ := h
  exact covers_iff.mpr ⟨hlow, hhigh, by omega⟩

theorem Addrs.inExtent_congr (hpacked : addrs'.packed k = addrs.packed k)
    (hstart : addrs'.start k = addrs.start k) : addrs'.InExtent k n ↔ addrs.InExtent k n := by
  unfold Addrs.InExtent
  rw [hpacked, hstart]

theorem Addrs.inExtent_grow_self (h : (addrs.grow k).InExtent k n) :
    addrs.InExtent k n ∨
      n = (addrs.start k).toNat + (extentLength (addrs.packed k)).toNat := by
  unfold Addrs.InExtent at h ⊢
  rw [Addrs.grow_start, Addrs.grow_packed_self] at h
  by_cases hroom : (extentLength (addrs.packed k)).toNat = 255
  · rw [extentLength_succ_of_full hroom] at h
    omega
  · rw [extentLength_succ hroom] at h
    omega

/-- The end of an extent that grows is in no other extent. -/
theorem Addrs.Separate.end_free (h : addrs.Separate) (hslot : addrs.slotOf bn = none)
    (hbn : bn.toNat < 2 ^ 31) (hprecedes : addrs.precedes bn k = true) {j : Fin 6}
    (hin : addrs.InExtent j ((addrs.start k).toNat + (extentLength (addrs.packed k)).toNat)) :
    j = k := by
  have hlength := extentLength_lt (addrs.packed k)
  have hstart := (addrs.start k).isLt
  have hstart' := (addrs.start j).isLt
  have hend := congrArg BitVec.toNat (beq_iff_eq.mp hprecedes)
  rw [BitVec.toNat_add] at hend
  by_cases hwrap : (addrs.start k).toNat + (extentLength (addrs.packed k)).toNat < 2 ^ 32
  · have heq : bn.toNat =
        (addrs.start k).toNat + (extentLength (addrs.packed k)).toNat := by omega
    rw [← heq] at hin
    have hcovers := Addrs.covers_of_inExtent hin hbn
    rw [not_covers_of_slotOf hslot j] at hcovers
    contradiction
  · -- Both extents hold the last block number there is.
    obtain ⟨-, hhigh⟩ := hin
    apply h j k (2 ^ 32 - 1)
    · exact ⟨by omega, by omega⟩
    · exact ⟨by omega, by omega⟩

theorem Addrs.Separate.grow (h : addrs.Separate) (hslot : addrs.slotOf bn = none)
    (hbn : bn.toNat < 2 ^ 31) (hprecedes : addrs.precedes bn k = true) :
    (addrs.grow k).Separate := by
  have hother {j : Fin 6} (hj : j ≠ k) {n : ℕ} :
      (addrs.grow k).InExtent j n ↔ addrs.InExtent j n :=
    Addrs.inExtent_congr (addrs.grow_packed_of_ne k hj) (addrs.grow_start k j)
  have hgrown {i : Fin 6} {n : ℕ} (hi : i ≠ k) (hin : addrs.InExtent i n)
      (hk : (addrs.grow k).InExtent k n) : i = k := by
    rcases Addrs.inExtent_grow_self hk with hold | rfl
    · exact h i k n hin hold
    · exact h.end_free hslot hbn hprecedes hin
  intro i j n hi hj
  by_cases hik : i = k
  · by_cases hjk : j = k
    · exact hik.trans hjk.symm
    · exact absurd (hgrown hjk ((hother hjk).mp hj) (hik ▸ hi)) hjk
  · by_cases hjk : j = k
    · exact absurd (hgrown hik ((hother hik).mp hi) (hjk ▸ hj)) hik
    · exact h i j n ((hother hik).mp hi) ((hother hjk).mp hj)

theorem Addrs.Separate.fill (h : addrs.Separate) (hslot : addrs.slotOf bn = none)
    (hbn : bn.toNat < 2 ^ 31) (addr : Word) : (addrs.fill k addr bn).Separate := by
  have hother {j : Fin 6} (hj : j ≠ k) {n : ℕ} :
      (addrs.fill k addr bn).InExtent j n ↔ addrs.InExtent j n :=
    Addrs.inExtent_congr (addrs.fill_packed_of_ne k addr bn hj)
      (addrs.fill_start_of_ne k addr bn hj)
  have hfilled {i : Fin 6} {n : ℕ} (hin : addrs.InExtent i n)
      (hk : (addrs.fill k addr bn).InExtent k n) : False := by
    unfold Addrs.InExtent at hk
    rw [Addrs.fill_start_self, Addrs.fill_packed_self, extentLength_single] at hk
    obtain rfl : n = bn.toNat := by omega
    have hcovers := Addrs.covers_of_inExtent hin hbn
    rw [not_covers_of_slotOf hslot i] at hcovers
    contradiction
  intro i j n hi hj
  by_cases hik : i = k
  · by_cases hjk : j = k
    · exact hik.trans hjk.symm
    · exact absurd (hik ▸ hi) fun hk ↦ hfilled ((hother hjk).mp hj) hk
  · by_cases hjk : j = k
    · exact absurd (hjk ▸ hj) fun hk ↦ hfilled ((hother hik).mp hi) hk
    · exact h i j n ((hother hik).mp hi) ((hother hjk).mp hj)

theorem Addrs.Separate.bmapExtent (h : addrs.Separate) (hbn : bn.toNat < 2 ^ 31)
    (hrun : bmapExtent disk addrs bn = some (addr, addrs', disk')) : addrs'.Separate := by
  obtain ⟨k, -, -, rfl, -⟩ | ⟨hslot, -, -, hrecord⟩ := bmapExtent_cases hrun
  · exact h
  · obtain ⟨k, hgrowing, rfl⟩ | ⟨k, -, -, rfl⟩ := hrecord
    · exact h.grow hslot hbn (List.find?_some (Addrs.growing_eq_some_iff.mp hgrowing).1)
    · exact h.fill hslot hbn addr

end Extents

end OS537.XV6
