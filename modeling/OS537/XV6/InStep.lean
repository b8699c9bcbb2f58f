import OS537.XV6.Kernel
import Mathlib.Algebra.Group.Pi.Lemmas

/-!
# Inodes in step with the disk

The file system is in step when every inode in the cache has the contents of its record on the disk.
The functions of the inode cache keep it so, and so does an assignment to a locked inode that goes
to the disk with `iupdate`. A call of `bmap` does not go to the disk: it is harmless where it leaves
the addresses of the inode alone, and in a directory it does so unless the directory has a hole.
-/

namespace OS537.XV6

open Bytes Code

variable {fs fs' : FS} {slot : Slot} {inum : Word} {ip : Inode} {refs : Slot → ℤ} {held : Set Slot}

/-- The inode is in use and has the contents of its record. -/
def Inode.Matches (ip : Inode) (disk : Disk) : Prop :=
  ip.type ≠ .free ∧ ip.toDinode = disk.dinode ip.inum

/-- The cached inodes are different inodes, and have the contents of their records. -/
structure FS.InStep (fs : FS) : Prop where
  unique : fs.Unique
  agree : ∀ slot, fs.Cached slot → (fs.icache slot).Matches fs.disk

/-- The inodes, in the cache and on the disk, are those of another state. -/
structure FS.SameInodes (fs fs' : FS) : Prop where
  icache : fs'.icache = fs.icache
  dinode : fs'.disk.dinode = fs.disk.dinode

theorem FS.SameInodes.refl (fs : FS) : fs.SameInodes fs := ⟨rfl, rfl⟩

theorem FS.SameInodes.trans {fs'' : FS} (h : fs.SameInodes fs') (h' : fs'.SameInodes fs'') :
    fs.SameInodes fs'' :=
  ⟨h'.icache.trans h.icache, h'.dinode.trans h.dinode⟩

theorem FS.SameInodes.locked (h : fs.SameInodes fs') (hlocked : fs.Locked slot) :
    fs'.Locked slot := by
  unfold FS.Locked FS.Cached
  rw [h.icache]
  exact hlocked

theorem FS.InStep.congr (h : fs.InStep) (hsame : fs.SameInodes fs') : fs'.InStep := by
  obtain ⟨disk, icache⟩ := fs'
  obtain ⟨rfl, hdinode⟩ := hsame
  refine ⟨h.unique, fun slot hcached ↦ ?_⟩
  unfold Inode.Matches
  rw [hdinode]
  exact h.agree slot hcached

/-! ## The cache -/

/-- One cached inode changes. -/
theorem FS.InStep.set (h : fs.InStep)
    (hunique : 0 < ip.ref → ∀ other, other ≠ slot → 0 < (fs.icache other).ref →
      (fs.icache other).inum ≠ ip.inum)
    (hcached : 0 < ip.ref → ip.valid = true → ip.Matches fs.disk) : (fs.set slot ip).InStep where
  unique := h.unique.set hunique
  agree := by
    intro other hother
    by_cases heq : other = slot
    · subst heq
      obtain ⟨href, hvalid⟩ := FS.cached_set_self.mp hother
      rw [FS.set_icache_self]
      exact hcached href hvalid
    · rw [FS.set_icache_of_ne fs ip heq]
      exact h.agree other ((FS.cached_set_of_ne heq).mp hother)

/-- References and locks may change. -/
theorem FS.InStep.touch (h : fs.InStep) (hinum : ip.inum = (fs.icache slot).inum)
    (hnode : ip.toDinode = (fs.icache slot).toDinode)
    (href : 0 < ip.ref → 0 < (fs.icache slot).ref)
    (hvalid : ip.valid = true → (fs.icache slot).valid = true) : (fs.set slot ip).InStep := by
  apply h.set
  · intro hpos other hne hother heq
    exact hne (h.unique other slot hother (href hpos) (heq.trans hinum))
  · intro hpos htrue
    obtain ⟨htype, hagree⟩ := h.agree slot ⟨href hpos, hvalid htrue⟩
    have htype' : ip.type = (fs.icache slot).type := congrArg Dinode.type hnode
    refine ⟨htype' ▸ htype, ?_⟩
    rw [hnode, hinum]
    exact hagree

theorem FS.InStep.iget (h : fs.InStep) (hrun : iget inum fs = some (slot, fs')) :
    fs'.InStep := by
  obtain ⟨href, -, rfl⟩ | ⟨hmiss, -, rfl⟩ := iget_cases hrun
  · exact h.touch rfl rfl (fun _ ↦ href) id
  · apply h.set
    · exact fun _ other _ href ↦ hmiss other href
    · intro _ hvalid
      cases hvalid

theorem FS.InStep.ilock (h : fs.InStep) (hrun : ilock slot fs = some ((), fs')) : fs'.InStep := by
  obtain ⟨href, -, ⟨-, rfl⟩ | ⟨-, htype, rfl⟩⟩ := ilock_cases hrun
  · exact h.touch rfl rfl id id
  · apply h.set
    · exact fun _ other hne hother heq ↦ hne (h.unique other slot hother href heq)
    · exact fun _ _ ↦ ⟨htype, rfl⟩

theorem FS.InStep.iunlock (h : fs.InStep) (hrun : iunlock slot fs = some ((), fs')) :
    fs'.InStep := by
  obtain ⟨-, -, rfl⟩ := iunlock_cases hrun
  exact h.touch rfl rfl id id

/-- A record changes, together with the inode that is cached for it. -/
theorem FS.InStep.setRecord (h : fs.InStep) {node : Dinode} {disk' : Disk}
    (hdisk : disk'.dinode = Function.update fs.disk.dinode inum node)
    (hother : 0 < ip.ref → ∀ other, other ≠ slot → 0 < (fs.icache other).ref →
      (fs.icache other).inum ≠ ip.inum)
    (hrecord : ∀ other, other ≠ slot → fs.Cached other → (fs.icache other).inum ≠ inum)
    (hcached : 0 < ip.ref → ip.valid = true → ip.Matches disk') :
    (FS.set { fs with disk := disk' } slot ip).InStep where
  unique := FS.Unique.set h.unique hother
  agree := by
    intro other hcached'
    by_cases heq : other = slot
    · subst heq
      obtain ⟨href, hvalid⟩ := FS.cached_set_self.mp hcached'
      rw [FS.set_icache_self]
      exact hcached href hvalid
    · have hold : fs.Cached other := (FS.cached_set_of_ne heq).mp hcached'
      obtain ⟨htype, hagree⟩ := h.agree other hold
      rw [FS.set_icache_of_ne _ ip heq]
      refine ⟨htype, ?_⟩
      change _ = disk'.dinode _
      rw [hdisk, Function.update_of_ne (hrecord other heq hold)]
      exact hagree

/-- An inode in use is changed in the cache and on the disk. -/
theorem FS.InStep.write (h : fs.InStep) (hcached : fs.Cached slot) {disk' : Disk}
    (hdisk : disk'.dinode =
      Function.update fs.disk.dinode (fs.icache slot).inum ip.toDinode)
    (hinum : ip.inum = (fs.icache slot).inum) (htype : ip.type = (fs.icache slot).type) :
    (FS.set { fs with disk := disk' } slot ip).InStep := by
  have hapart (other : Slot) (hne : other ≠ slot) (hother : 0 < (fs.icache other).ref) :
      (fs.icache other).inum ≠ (fs.icache slot).inum :=
    fun heq ↦ hne (h.unique other slot hother hcached.1 heq)
  refine h.setRecord hdisk ?_ (fun other hne hother ↦ hapart other hne hother.1) fun _ _ ↦ ?_
  · intro _ other hne hother
    rw [hinum]
    exact hapart other hne hother
  · refine ⟨htype ▸ (h.agree slot hcached).1, ?_⟩
    rw [hdisk, hinum, Function.update_self]

theorem FS.InStep.iput (h : fs.InStep) (hrun : iput slot fs = some ((), fs')) : fs'.InStep := by
  obtain ⟨href, -, -, -, ip, disk, htrunc, rfl⟩ | ⟨-, rfl⟩ := iput_cases hrun
  · obtain ⟨-, -, rfl, rfl⟩ := itrunc_eq_some_iff.mp htrunc
    have hpos : 0 < (fs.icache slot).ref := by omega
    refine h.setRecord (Function.update_idem _ _ _) ?_ ?_ ?_
    · intro _ other hne hother heq
      exact hne (h.unique other slot hother hpos heq)
    · intro other hne hother heq
      exact hne (h.unique other slot hother.1 hpos heq)
    · intro _ hvalid
      cases hvalid
  · exact h.touch rfl rfl (fun hpos ↦ by change 0 < _ - 1 at hpos; omega) id

/-- A free record gets any contents. -/
theorem FS.InStep.allocate (h : fs.InStep) (hfree : (fs.disk.dinode inum).type = .free)
    (node : Dinode) : FS.InStep { fs with disk := { fs.disk with
      dinode := Function.update fs.disk.dinode inum node } } := by
  refine ⟨h.unique, fun other hother ↦ ?_⟩
  obtain ⟨htype, hagree⟩ := h.agree other hother
  refine ⟨htype, ?_⟩
  have hne : (fs.icache other).inum ≠ inum := by
    intro heq
    rw [heq] at hagree
    exact htype ((congrArg Dinode.type hagree).trans hfree)
  exact hagree.trans (Function.update_of_ne hne _ _).symm

/-! ## Locks and references that are held -/

/-- The file system is in step, the inodes have `refs` references, and those of `held` are locked
by the caller. -/
structure FS.Held (refs : Slot → ℤ) (held : Set Slot) (fs : FS) : Prop where
  inStep : fs.InStep
  count : ∀ slot, (fs.icache slot).ref = refs slot
  locked : ∀ slot ∈ held, fs.Locked slot

theorem FS.Held.congr (h : fs.Held refs held) (hsame : fs.SameInodes fs') :
    fs'.Held refs held where
  inStep := h.inStep.congr hsame
  count slot := by
    rw [hsame.icache]
    exact h.count slot
  locked slot hmem := hsame.locked (h.locked slot hmem)

theorem FS.Held.mono {fewer : Set Slot} (h : fs.Held refs held) (hsub : fewer ⊆ held) :
    fs.Held refs fewer :=
  ⟨h.inStep, h.count, fun slot hmem ↦ h.locked slot (hsub hmem)⟩

theorem FS.Held.ref_pos (h : fs.Held refs held) (hmem : slot ∈ held) : 0 < refs slot := by
  rw [← h.count slot]
  exact (h.locked slot hmem).1.1

theorem FS.Locked.set_of_ne {other : Slot} (h : fs.Locked other) (hne : other ≠ slot) :
    (fs.set slot ip).Locked other := by
  unfold FS.Locked FS.Cached at h ⊢
  rw [FS.set_icache_of_ne fs ip hne]
  exact h

theorem FS.locked_set_self : (fs.set slot ip).Locked slot ↔
    (0 < ip.ref ∧ ip.valid = true) ∧ ip.busy = true := by
  unfold FS.Locked FS.Cached
  rw [FS.set_icache_self]

/-- The disk and one slot change: the references to the slot by `change`, and it stays locked if it
was held. -/
theorem FS.Held.set (h : fs.Held refs held) {disk' : Disk} {change : ℤ}
    (hstep : (FS.set { fs with disk := disk' } slot ip).InStep)
    (href : ip.ref = (fs.icache slot).ref + change)
    (hself : slot ∈ held → (0 < ip.ref ∧ ip.valid = true) ∧ ip.busy = true) :
    (FS.set { fs with disk := disk' } slot ip).Held (refs + Pi.single slot change) held where
  inStep := hstep
  count other := by
    rw [Pi.add_apply]
    by_cases heq : other = slot
    · rw [heq, FS.set_icache_self, Pi.single_eq_same, href, h.count]
    · rw [FS.set_icache_of_ne _ ip heq, Pi.single_eq_of_ne heq, add_zero, h.count]
  locked other hmem := by
    by_cases heq : other = slot
    · rw [heq] at hmem ⊢
      exact FS.locked_set_self.mpr (hself hmem)
    · exact FS.Locked.set_of_ne (h.locked other hmem) heq

/-- One more reference to an inode in the cache. -/
theorem FS.Held.refer (h : fs.Held refs held) (href : 0 < (fs.icache slot).ref) :
    (fs.set slot { fs.icache slot with ref := (fs.icache slot).ref + 1 }).Held
      (refs + Pi.single slot 1) held := by
  refine h.set (h.inStep.touch rfl rfl (fun _ ↦ href) id) rfl fun hmem ↦ ?_
  have hlocked := h.locked slot hmem
  exact ⟨⟨Int.lt_add_one_of_le href.le, hlocked.1.2⟩, hlocked.2⟩

theorem FS.Held.iget (h : fs.Held refs held) (hrun : iget inum fs = some (slot, fs')) :
    fs'.Held (refs + Pi.single slot 1) held := by
  have hstep := h.inStep.iget hrun
  obtain ⟨href, -, rfl⟩ | ⟨-, hzero, rfl⟩ := iget_cases hrun
  · exact h.refer href
  · refine h.set hstep (by rw [hzero]; rfl) fun hmem ↦ ?_
    exact absurd (h.locked slot hmem).1.1 (by omega)

/-- A change that concerns no reference. -/
theorem FS.Held.set_same (h : fs.Held refs held) {disk' : Disk}
    (hstep : (FS.set { fs with disk := disk' } slot ip).InStep)
    (href : ip.ref = (fs.icache slot).ref)
    (hself : slot ∈ held → (0 < ip.ref ∧ ip.valid = true) ∧ ip.busy = true) :
    (FS.set { fs with disk := disk' } slot ip).Held refs held := by
  have hset : (FS.set { fs with disk := disk' } slot ip).Held (refs + Pi.single slot 0) held :=
    h.set hstep (by rw [href, add_zero]) hself
  rwa [Pi.single_zero, add_zero] at hset

/-- An inode that is locked was not held. -/
theorem FS.Held.ilock (h : fs.Held refs held) (hrun : ilock slot fs = some ((), fs')) :
    slot ∉ held ∧ fs'.Held refs (insert slot held) := by
  have hstep := h.inStep.ilock hrun
  obtain ⟨href, hbusy, hcases⟩ := ilock_cases hrun
  have hnot : slot ∉ held := by
    intro hmem
    rw [(h.locked slot hmem).2] at hbusy
    contradiction
  have hadd {ip : Inode} (hstep : (fs.set slot ip).InStep) (hip : ip.ref = (fs.icache slot).ref)
      (hlocked : ip.valid = true ∧ ip.busy = true) :
      (fs.set slot ip).Held refs (insert slot held) := by
    have hset := h.set_same hstep hip fun hmem ↦ absurd hmem hnot
    refine ⟨hstep, hset.count, fun other hmem ↦ ?_⟩
    rcases hmem with rfl | hmem
    · exact FS.locked_set_self.mpr ⟨⟨hip ▸ href, hlocked.1⟩, hlocked.2⟩
    · exact hset.locked other hmem
  refine ⟨hnot, ?_⟩
  obtain ⟨hvalid, rfl⟩ | ⟨-, -, rfl⟩ := hcases
  · exact hadd hstep rfl ⟨hvalid, rfl⟩
  · exact hadd hstep rfl ⟨rfl, rfl⟩

theorem FS.Held.iunlock (h : fs.Held refs held) (hrun : iunlock slot fs = some ((), fs')) :
    fs'.Held refs (held \ {slot}) := by
  have hstep := h.inStep.iunlock hrun
  obtain ⟨-, -, rfl⟩ := iunlock_cases hrun
  exact (h.mono Set.sdiff_subset).set_same hstep rfl fun hmem ↦ absurd rfl hmem.2

/-- The caller drops a reference. If it has locked the inode, that is not the last one. -/
theorem FS.Held.iput (h : fs.Held refs held) (hspare : slot ∈ held → 1 < refs slot)
    (hrun : iput slot fs = some ((), fs')) : fs'.Held (refs - Pi.single slot 1) held := by
  have hstep := h.inStep.iput hrun
  rw [sub_eq_add_neg, ← Pi.single_neg]
  obtain ⟨href, -, -, -, ip, disk, htrunc, rfl⟩ | ⟨-, rfl⟩ := iput_cases hrun
  · obtain ⟨-, -, rfl, rfl⟩ := itrunc_eq_some_iff.mp htrunc
    have hnot : slot ∉ held := by
      intro hmem
      have hmore := hspare hmem
      rw [← h.count slot] at hmore
      omega
    exact h.set hstep rfl fun hmem ↦ absurd hmem hnot
  · refine h.set hstep rfl fun hmem ↦ ?_
    have hlocked := h.locked slot hmem
    have hmore := hspare hmem
    rw [← h.count slot] at hmore
    exact ⟨⟨Int.sub_pos_of_lt hmore, hlocked.1.2⟩, hlocked.2⟩

theorem FS.Held.iunlockput (h : fs.Held refs held) (hrun : iunlockput slot fs = some ((), fs')) :
    fs'.Held (refs - Pi.single slot 1) (held \ {slot}) := by
  obtain ⟨⟨⟩, middle, hunlock, hput⟩ := bind_eq_some hrun
  exact (h.iunlock hunlock).iput (fun hmem ↦ absurd rfl hmem.2) hput

/-- A held inode is changed in the cache and on the disk. -/
theorem FS.Held.write (h : fs.Held refs held) (hmem : slot ∈ held) {node : Dinode}
    (htype : node.type = (fs.icache slot).type)
    (hrun : iupdateSlot slot (fs.set slot { fs.icache slot with toDinode := node }) =
      some ((), fs')) : fs'.Held refs held := by
  unfold iupdateSlot at hrun
  rw [FS.set_icache_self] at hrun
  cases hrun
  have hlocked := h.locked slot hmem
  exact h.set_same (h.inStep.write hlocked.1 rfl rfl htype) rfl fun _ ↦ hlocked

theorem FS.Held.ialloc (h : fs.Held refs held) {type : FileType}
    (hrun : ialloc type fs = some (slot, fs')) : fs'.Held (refs + Pi.single slot 1) held := by
  obtain ⟨inum, hfree, hget⟩ := ialloc_cases hrun
  refine FS.Held.iget ?_ hget
  exact ⟨h.inStep.allocate hfree _, h.count, h.locked⟩

/-! ## Calls of `bmap` that leave the inode alone -/

/-- The inode has the block, or the indirect block that its address goes to. -/
def Dinode.Pinned (node : Dinode) (bn : Word) : Prop :=
  if node.type = .extent then node.addrs.slotOf bn ≠ none
  else if hdirect : bn.toNat < 12 then node.addrs ⟨bn.toNat, lt_of_direct hdirect⟩ ≠ 0
  else node.addrs 12 ≠ 0

theorem bmap_pinned {disk disk' : Disk} {bn addr : Word} {ip' : Inode}
    (hpinned : ip.toDinode.Pinned bn) (hbmap : bmap disk ip bn = some (addr, ip', disk')) :
    ip' = ip ∧ disk'.dinode = disk.dinode := by
  rw [bmap_eq] at hbmap
  obtain ⟨⟨found, addrs, last⟩, hrun, hresult⟩ := Option.map_eq_some_iff.mp hbmap
  cases hresult
  unfold Dinode.Pinned at hpinned
  by_cases htype : ip.type = .extent
  · rw [if_pos htype] at hrun hpinned
    obtain ⟨k, -, -, rfl, rfl⟩ | ⟨hmissing, -⟩ := bmapExtent_cases hrun
    · exact ⟨rfl, rfl⟩
    · exact absurd hmissing hpinned
  · rw [if_neg htype] at hrun hpinned
    obtain ⟨i, -, -, -, rfl, rfl⟩ | ⟨i, hi, hclear, -⟩ |
      ⟨j, -, hbn, indirect, disk₁, hindirect, hentry⟩ := bmapPointer_cases hrun
    · exact ⟨rfl, rfl⟩
    · have hindex : (⟨bn.toNat, by omega⟩ : Fin 13) = i.castSucc := Fin.ext hi
      rw [dif_pos (by omega), hindex] at hpinned
      exact absurd hclear hpinned
    · rw [dif_neg (by omega)] at hpinned
      obtain ⟨-, -, rfl, rfl⟩ | ⟨hclear, -⟩ := indirectBlock_cases hindirect
      · obtain ⟨-, -, rfl⟩ | ⟨-, -, rfl⟩ := indirectEntry_cases hentry
        · exact ⟨rfl, rfl⟩
        · exact ⟨rfl, rfl⟩
      · exact absurd hclear hpinned

theorem mapSlot_pinned {off addr : Word} (hpinned : (fs.icache slot).Pinned (off / 512))
    (hrun : mapSlot slot off fs = some (addr, fs')) : fs.SameInodes fs' := by
  obtain ⟨ip, disk, hbmap, rfl⟩ := mapSlot_cases hrun
  obtain ⟨rfl, hdinode⟩ := bmap_pinned hpinned hbmap
  exact ⟨Function.update_eq_self slot fs.icache, hdinode⟩

/-! ## Directories without holes -/

/-- Every block below the size of the inode is there, as far as `bmap` may change its addresses. -/
def Dinode.Whole (node : Dinode) : Prop :=
  ∀ i < node.size.toNat, node.Pinned (BitVec.ofNat 32 i / 512)

def Disk.DirsWhole (disk : Disk) : Prop :=
  ∀ inum, (disk.dinode inum).type = .dir → (disk.dinode inum).Whole

theorem Disk.DirsWhole.update {disk disk' : Disk} {node : Dinode} (h : disk.DirsWhole)
    (hdisk : disk'.dinode = Function.update disk.dinode inum node)
    (hnode : node.type = .dir → node.Whole) : disk'.DirsWhole := by
  intro other htype
  rw [hdisk] at htype ⊢
  by_cases heq : other = inum
  · rw [heq, Function.update_self] at htype ⊢
    exact hnode htype
  · rw [Function.update_of_ne heq] at htype ⊢
    exact h other htype

/-- The state between calls, and inside them while no directory has been written to. -/
structure FS.Steady (refs : Slot → ℤ) (held : Set Slot) (fs : FS) : Prop extends
    FS.Held refs held fs where
  whole : fs.disk.DirsWhole

theorem FS.Steady.congr (h : fs.Steady refs held) (hsame : fs.SameInodes fs') :
    fs'.Steady refs held where
  toHeld := h.toHeld.congr hsame
  whole := by
    unfold Disk.DirsWhole
    rw [hsame.dinode]
    exact h.whole

/-- A held directory has no holes. -/
theorem FS.Steady.whole_of_held (h : fs.Steady refs held) (hmem : slot ∈ held)
    (htype : (fs.icache slot).type = .dir) : (fs.icache slot).Whole := by
  have hagree := (h.inStep.agree slot (h.locked slot hmem).1).2
  rw [hagree]
  refine h.whole _ ?_
  rw [← hagree]
  exact htype

theorem FS.Steady.iget (h : fs.Steady refs held) (hrun : iget inum fs = some (slot, fs')) :
    fs'.Steady (refs + Pi.single slot 1) held := by
  refine ⟨h.toHeld.iget hrun, ?_⟩
  obtain ⟨-, -, rfl⟩ | ⟨-, -, rfl⟩ := iget_cases hrun
  · exact h.whole
  · exact h.whole

theorem FS.Steady.idup (h : fs.Steady refs held) {cwd : Slot} (href : 0 < refs cwd)
    (hrun : idup cwd fs = some (slot, fs')) : fs'.Steady (refs + Pi.single slot 1) held := by
  cases hrun
  rw [← h.count slot] at href
  exact ⟨h.toHeld.refer href, h.whole⟩

theorem FS.Steady.ilock (h : fs.Steady refs held) (hrun : ilock slot fs = some ((), fs')) :
    slot ∉ held ∧ fs'.Steady refs (insert slot held) := by
  obtain ⟨hnot, hheld⟩ := h.toHeld.ilock hrun
  refine ⟨hnot, hheld, ?_⟩
  obtain ⟨-, -, ⟨-, rfl⟩ | ⟨-, -, rfl⟩⟩ := ilock_cases hrun
  · exact h.whole
  · exact h.whole

theorem FS.Steady.iunlock (h : fs.Steady refs held) (hrun : iunlock slot fs = some ((), fs')) :
    fs'.Steady refs (held \ {slot}) := by
  refine ⟨h.toHeld.iunlock hrun, ?_⟩
  obtain ⟨-, -, rfl⟩ := iunlock_cases hrun
  exact h.whole

theorem FS.Steady.iput (h : fs.Steady refs held) (hspare : slot ∈ held → 1 < refs slot)
    (hrun : iput slot fs = some ((), fs')) : fs'.Steady (refs - Pi.single slot 1) held := by
  refine ⟨h.toHeld.iput hspare hrun, ?_⟩
  obtain ⟨-, -, -, -, ip, disk, htrunc, rfl⟩ | ⟨-, rfl⟩ := iput_cases hrun
  · obtain ⟨-, -, rfl, rfl⟩ := itrunc_eq_some_iff.mp htrunc
    refine h.whole.update (Function.update_idem _ _ _) fun htype ↦ ?_
    cases htype
  · exact h.whole

theorem FS.Steady.iunlockput (h : fs.Steady refs held)
    (hrun : iunlockput slot fs = some ((), fs')) :
    fs'.Steady (refs - Pi.single slot 1) (held \ {slot}) := by
  obtain ⟨⟨⟩, middle, hunlock, hput⟩ := bind_eq_some hrun
  exact (h.iunlock hunlock).iput (fun hmem ↦ absurd rfl hmem.2) hput

theorem FS.Steady.ialloc (h : fs.Steady refs held) {type : FileType}
    (hrun : ialloc type fs = some (slot, fs')) : fs'.Steady (refs + Pi.single slot 1) held := by
  refine ⟨h.toHeld.ialloc hrun, ?_⟩
  obtain ⟨inum, -, hget⟩ := ialloc_cases hrun
  have hempty (disk' : Disk) (hdisk : disk'.dinode =
      Function.update fs.disk.dinode inum { Dinode.zero with type := type }) : disk'.DirsWhole :=
    h.whole.update hdisk fun _ i hi ↦ absurd hi (Nat.not_lt_zero i)
  obtain ⟨-, -, rfl⟩ | ⟨-, -, rfl⟩ := iget_cases hget
  · exact hempty _ rfl
  · exact hempty _ rfl

/-- A held inode is changed in the cache and on the disk, but not its blocks. -/
theorem FS.Steady.write (h : fs.Steady refs held) (hmem : slot ∈ held) {node : Dinode}
    (htype : node.type = (fs.icache slot).type) (hsize : node.size = (fs.icache slot).size)
    (haddrs : node.addrs = (fs.icache slot).addrs)
    (hrun : iupdateSlot slot (fs.set slot { fs.icache slot with toDinode := node }) =
      some ((), fs')) : fs'.Steady refs held := by
  refine ⟨h.toHeld.write hmem htype hrun, ?_⟩
  unfold iupdateSlot at hrun
  rw [FS.set_icache_self] at hrun
  cases hrun
  refine h.whole.update rfl fun hdir ↦ ?_
  have hwhole := h.whole_of_held hmem (htype ▸ hdir)
  unfold Dinode.Whole Dinode.Pinned at hwhole ⊢
  rw [hsize, htype, haddrs]
  exact hwhole

end OS537.XV6
