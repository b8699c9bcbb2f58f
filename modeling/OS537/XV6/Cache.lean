import OS537.Base.Code
import OS537.Base.Run
import OS537.XV6.Growth

/-!
# The inode cache

`iget`, `ilock`, `iput` and their companions in `5/xv6/fs.c`, on the disk and the `NINODE` = 50
cached inodes. An `Act` is a step of which the operations on files consist: one call of a function
of the cache, one round of the loop in `readi` or `writei`, or one assignment to a locked inode.
The caller holds the lock of the inode in the acts that use its contents. A process that would wait
for a lock makes no step, so a second `ilock` is `none`, like a panic.
-/

namespace OS537.XV6

open Bytes

abbrev Slot := Fin 50

instance neZeroSlots : NeZero 50 := ⟨by decide⟩

structure FS where
  disk : Disk
  icache : Slot → Inode

abbrev FSM := StateT FS Option

def FS.set (fs : FS) (slot : Slot) (ip : Inode) : FS :=
  { fs with icache := Function.update fs.icache slot ip }

/-! ## References -/

/-- Find the inode with number `inum` and return the in-memory copy. -/
def iget (inum : Word) : FSM Slot := fun fs ↦
  match (List.finRange 50).find? fun slot ↦
      0 < (fs.icache slot).ref ∧ (fs.icache slot).inum = inum with
  | some slot =>
    some (slot, fs.set slot { fs.icache slot with ref := (fs.icache slot).ref + 1 })
  | none =>
    match (List.finRange 50).find? fun slot ↦ (fs.icache slot).ref = 0 with
    | some slot =>
      some (slot, fs.set slot
        { fs.icache slot with inum := inum, ref := 1, busy := false, valid := false })
    | none => none

/-- Increment reference count. -/
def idup (slot : Slot) : FSM Slot := fun fs ↦
  some (slot, fs.set slot { fs.icache slot with ref := (fs.icache slot).ref + 1 })

/-- Allocate a new inode with the given type. -/
def ialloc (type : FileType) : FSM Slot := fun fs ↦
  match Scan.firstFrom (fun inum ↦ (fs.disk.dinode (BitVec.ofNat 32 inum)).type = .free)
      (fs.disk.ninodes - 1) 1 with
  | some inum =>
    let dinode := Function.update fs.disk.dinode (BitVec.ofNat 32 inum)
      { Dinode.zero with type := type }
    iget (BitVec.ofNat 32 inum) { fs with disk := { fs.disk with dinode := dinode } }
  | none => none

/-! ## Locks -/

/-- Lock the given inode. -/
def ilock (slot : Slot) : FSM Unit := fun fs ↦
  let ip := fs.icache slot
  if ip.ref < 1 then none
  else if ip.busy then none
  else if ip.valid then some ((), fs.set slot { ip with busy := true })
  else
    let ip := { ip with toDinode := fs.disk.dinode ip.inum, busy := true, valid := true }
    if ip.type = .free then none else some ((), fs.set slot ip)

/-- Unlock the given inode. -/
def iunlock (slot : Slot) : FSM Unit := fun fs ↦
  let ip := fs.icache slot
  if ip.busy = false ∨ ip.ref < 1 then none else some ((), fs.set slot { ip with busy := false })

/-- Caller holds reference to unlocked `ip`. Drop reference. -/
def iput (slot : Slot) : FSM Unit := fun fs ↦
  let ip := fs.icache slot
  if ip.ref = 1 ∧ ip.valid ∧ ip.nlink = 0 then
    -- inode is no longer used: truncate and free inode.
    if ip.busy then none
    else do
      let (ip, disk) ← itrunc fs.disk { ip with busy := true }
      let ip := { ip with type := .free }
      let fs := { fs with disk := iupdate disk ip }
      return ((), fs.set slot { ip with ref := ip.ref - 1, busy := false, valid := false })
  else some ((), fs.set slot { ip with ref := ip.ref - 1 })

/-- Common idiom: unlock, then put. -/
def iunlockput (slot : Slot) : FSM Unit := do
  iunlock slot
  iput slot

/-! ## Contents -/

/-- `iupdate(ip)` -/
def iupdateSlot (slot : Slot) : FSM Unit := fun fs ↦
  some ((), { fs with disk := iupdate fs.disk (fs.icache slot) })

/-- `bmap(ip, off/BSIZE)` -/
def mapSlot (slot : Slot) (off : Word) : FSM Word := fun fs ↦ do
  let (addr, ip, disk) ← bmap fs.disk (fs.icache slot) (off / 512)
  return (addr, { fs with disk := disk }.set slot ip)

/-- `memmove(bp->data + off%BSIZE, src, m)` and `bwrite(bp)` for the buffer of block `addr` -/
def writeBlock (addr : Word) (off m : ℕ) (src : Store) : FSM Unit := fun fs ↦
  some ((), { fs with
    disk := fs.disk.setBlock addr (splice (fs.disk.block addr) (off % 512) m src) })

/-- One round of the loop in `writei`. -/
def storeRound (slot : Slot) (off : Word) (m : ℕ) (src : Store) : FSM Unit := do
  let addr ← mapSlot slot off
  writeBlock addr off.toNat m src

/-- An assignment to fields of an inode that say nothing about its blocks. -/
structure Fields where
  major : BitVec 16
  minor : BitVec 16
  nlink : BitVec 16
  size : Word

def setFields (slot : Slot) (fields : Fields) : FSM Unit := fun fs ↦
  some ((), fs.set slot { fs.icache slot with
    major := fields.major, minor := fields.minor, nlink := fields.nlink, size := fields.size })

/-! ## Acts -/

inductive Act where
  | iget (inum : Word)
  | idup (slot : Slot)
  | ialloc (type : FileType)
  | ilock (slot : Slot)
  | iunlock (slot : Slot)
  | iput (slot : Slot)
  | iupdate (slot : Slot)
  | load (slot : Slot) (off : Word)
  | store (slot : Slot) (off : Word) (m : ℕ) (src : Store)
  | assign (slot : Slot) (fields : Fields)

/-- The slot is in use and has the contents of its inode. -/
def FS.Cached (fs : FS) (slot : Slot) : Prop :=
  0 < (fs.icache slot).ref ∧ (fs.icache slot).valid = true

/-- The inode is locked and its contents may be used. -/
def FS.Locked (fs : FS) (slot : Slot) : Prop :=
  fs.Cached slot ∧ (fs.icache slot).busy = true

instance (fs : FS) (slot : Slot) : Decidable (fs.Cached slot) :=
  inferInstanceAs (Decidable (_ ∧ _))

instance (fs : FS) (slot : Slot) : Decidable (fs.Locked slot) :=
  inferInstanceAs (Decidable (_ ∧ _))

/-- Code that uses the contents of a locked inode. -/
def whenLocked {α : Type} (slot : Slot) (code : FSM α) : FSM α := fun fs ↦
  if fs.Locked slot then code fs else none

def FS.act (fs : FS) : Act → Option FS
  | .iget inum => (iget inum fs).map Prod.snd
  | .idup slot => if 0 < (fs.icache slot).ref then (idup slot fs).map Prod.snd else none
  | .ialloc type => (ialloc type fs).map Prod.snd
  | .ilock slot => (ilock slot fs).map Prod.snd
  | .iunlock slot => (iunlock slot fs).map Prod.snd
  | .iput slot => if 0 < (fs.icache slot).ref then (iput slot fs).map Prod.snd else none
  | .iupdate slot => (whenLocked slot (iupdateSlot slot) fs).map Prod.snd
  | .load slot off => (whenLocked slot (mapSlot slot off) fs).map Prod.snd
  | .store slot off m src => (whenLocked slot (storeRound slot off m src) fs).map Prod.snd
  | .assign slot fields => (whenLocked slot (setFields slot fields) fs).map Prod.snd

/-! ## What the functions do -/

section Cases

variable {fs fs' : FS} {slot : Slot} {inum : Word}

@[simp]
theorem FS.set_disk (fs : FS) (slot : Slot) (ip : Inode) : (fs.set slot ip).disk = fs.disk := rfl

@[simp]
theorem FS.set_icache_self (fs : FS) (slot : Slot) (ip : Inode) :
    (fs.set slot ip).icache slot = ip :=
  Function.update_self _ _ _

theorem FS.set_icache_of_ne (fs : FS) {slot other : Slot} (ip : Inode) (h : other ≠ slot) :
    (fs.set slot ip).icache other = fs.icache other :=
  Function.update_of_ne h _ _

theorem FS.set_set (fs : FS) (slot : Slot) (first second : Inode) :
    (fs.set slot first).set slot second = fs.set slot second := by
  unfold FS.set
  rw [Function.update_idem]

theorem FS.cached_set_of_ne {other : Slot} {ip : Inode} (h : other ≠ slot) :
    (fs.set slot ip).Cached other ↔ fs.Cached other := by
  unfold FS.Cached
  rw [FS.set_icache_of_ne fs ip h]

theorem FS.cached_set_self {ip : Inode} :
    (fs.set slot ip).Cached slot ↔ 0 < ip.ref ∧ ip.valid = true := by
  unfold FS.Cached
  rw [FS.set_icache_self]

/-- An inode is in one slot of the cache. -/
def FS.Unique (fs : FS) : Prop :=
  ∀ slot slot', 0 < (fs.icache slot).ref → 0 < (fs.icache slot').ref →
    (fs.icache slot).inum = (fs.icache slot').inum → slot = slot'

theorem FS.Unique.set (h : fs.Unique) {ip : Inode}
    (hunique : 0 < ip.ref → ∀ other, other ≠ slot → 0 < (fs.icache other).ref →
      (fs.icache other).inum ≠ ip.inum) : (fs.set slot ip).Unique := by
  intro first second hfirst hsecond hinum
  by_cases heq : first = slot
  · by_cases heq' : second = slot
    · exact heq.trans heq'.symm
    · subst heq
      rw [FS.set_icache_self] at hfirst hinum
      rw [FS.set_icache_of_ne fs ip heq'] at hsecond hinum
      exact absurd hinum.symm (hunique hfirst second heq' hsecond)
  · rw [FS.set_icache_of_ne fs ip heq] at hfirst hinum
    by_cases heq' : second = slot
    · subst heq'
      rw [FS.set_icache_self] at hsecond hinum
      exact absurd hinum (hunique hsecond first heq hfirst)
    · rw [FS.set_icache_of_ne fs ip heq'] at hsecond hinum
      exact h first second hfirst hsecond hinum

/-- The inode is in the cache, or it takes an empty slot. -/
theorem iget_cases (h : iget inum fs = some (slot, fs')) :
    (0 < (fs.icache slot).ref ∧ (fs.icache slot).inum = inum ∧
      fs' = fs.set slot { fs.icache slot with ref := (fs.icache slot).ref + 1 }) ∨
    ((∀ other, 0 < (fs.icache other).ref → (fs.icache other).inum ≠ inum) ∧
      (fs.icache slot).ref = 0 ∧ fs' = fs.set slot
        { fs.icache slot with inum := inum, ref := 1, busy := false, valid := false }) := by
  unfold iget at h
  split at h
  next hit hfind =>
    cases h
    have hhit := List.find?_some hfind
    rw [decide_eq_true_iff] at hhit
    exact Or.inl ⟨hhit.1, hhit.2, rfl⟩
  next hmiss =>
    split at h
    next empty hfind =>
      cases h
      have hempty := List.find?_some hfind
      rw [decide_eq_true_iff] at hempty
      refine Or.inr ⟨fun other href heq ↦ ?_, hempty, rfl⟩
      have hother := List.find?_eq_none.mp hmiss other (List.mem_finRange other)
      rw [decide_eq_true_iff] at hother
      exact hother ⟨href, heq⟩
    next => cases h

/-- The dinode that `ialloc` takes was free. -/
theorem ialloc_cases {type : FileType} (h : ialloc type fs = some (slot, fs')) :
    ∃ inum, (fs.disk.dinode inum).type = .free ∧
      iget inum { fs with disk := { fs.disk with
        dinode := Function.update fs.disk.dinode inum { Dinode.zero with type := type } } } =
          some (slot, fs') := by
  unfold ialloc at h
  split at h
  next found hfind =>
    exact ⟨_, of_decide_eq_true (Scan.firstFrom_eq_some_iff.mp hfind).2.2.1, h⟩
  next => cases h

theorem ilock_cases (h : ilock slot fs = some ((), fs')) :
    0 < (fs.icache slot).ref ∧ (fs.icache slot).busy = false ∧
      ((fs.icache slot).valid = true ∧ fs' = fs.set slot { fs.icache slot with busy := true } ∨
        (fs.icache slot).valid = false ∧ (fs.disk.dinode (fs.icache slot).inum).type ≠ .free ∧
          fs' = fs.set slot { fs.icache slot with
            toDinode := fs.disk.dinode (fs.icache slot).inum, busy := true, valid := true }) := by
  unfold ilock at h
  dsimp only at h
  split at h
  · cases h
  · next href =>
    split at h
    · cases h
    · next hbusy =>
      refine ⟨by omega, Bool.eq_false_iff.mpr hbusy, ?_⟩
      split at h
      · next hvalid =>
        cases h
        exact Or.inl ⟨hvalid, rfl⟩
      · next hvalid =>
        split at h
        · cases h
        · next htype =>
          cases h
          exact Or.inr ⟨Bool.eq_false_iff.mpr hvalid, htype, rfl⟩

theorem iunlock_cases (h : iunlock slot fs = some ((), fs')) :
    (fs.icache slot).busy = true ∧ 0 < (fs.icache slot).ref ∧
      fs' = fs.set slot { fs.icache slot with busy := false } := by
  unfold iunlock at h
  dsimp only at h
  split at h
  · cases h
  · next hheld =>
    cases h
    rw [not_or, Bool.not_eq_false] at hheld
    exact ⟨hheld.1, by omega, rfl⟩

/-- The last reference to an inode without links frees it. -/
theorem iput_cases (h : iput slot fs = some ((), fs')) :
    (fs.icache slot).ref = 1 ∧ (fs.icache slot).valid = true ∧ (fs.icache slot).nlink = 0 ∧
      (fs.icache slot).busy = false ∧
      (∃ ip disk, itrunc fs.disk { fs.icache slot with busy := true } = some (ip, disk) ∧
        fs' = FS.set { fs with disk := iupdate disk { ip with type := .free } } slot
          { ip with type := .free, ref := ip.ref - 1, busy := false, valid := false }) ∨
    ¬ ((fs.icache slot).ref = 1 ∧ (fs.icache slot).valid = true ∧ (fs.icache slot).nlink = 0) ∧
      fs' = fs.set slot { fs.icache slot with ref := (fs.icache slot).ref - 1 } := by
  unfold iput at h
  dsimp only at h
  split at h
  · next hlast =>
    split at h
    · cases h
    · next hbusy =>
      obtain ⟨⟨ip, disk⟩, htrunc, hrest⟩ := Option.bind_eq_some_iff.mp h
      cases hrest
      exact Or.inl ⟨hlast.1, hlast.2.1, hlast.2.2, Bool.eq_false_iff.mpr hbusy, ip, disk, htrunc,
        rfl⟩
  · next hlast =>
    cases h
    exact Or.inr ⟨hlast, rfl⟩

theorem mapSlot_cases {off addr : Word} (h : mapSlot slot off fs = some (addr, fs')) :
    ∃ ip disk, bmap fs.disk (fs.icache slot) (off / 512) = some (addr, ip, disk) ∧
      fs' = FS.set { fs with disk := disk } slot ip := by
  obtain ⟨⟨found, ip, disk⟩, hbmap, hrest⟩ := Option.bind_eq_some_iff.mp h
  cases hrest
  exact ⟨ip, disk, hbmap, rfl⟩

theorem whenLocked_cases {α : Type} {code : FSM α} {result : α}
    (h : whenLocked slot code fs = some (result, fs')) :
    fs.Locked slot ∧ code fs = some (result, fs') := by
  unfold whenLocked at h
  split at h
  · next hlocked => exact ⟨hlocked, h⟩
  · cases h

end Cases

end OS537.XV6
