import OS537.LFS.CrossChunk
import OS537.LFS.Flat

/-!
# A file that was created

After `fsi_creat` has returned 0 the new file should be there under its name, empty, and everything
that was there before should be as it was. In a directory with a free slot in its first block this
is so exactly when the new inode is in the same chunk of the inode map as the directory. Otherwise
the chunk of the directory is written where the inode map expects the new inode.
-/

namespace OS537.LFS

open Bytes Code Posix Run

variable {server next : Server} {parent child dir i : Fin 4096} {slot : ℕ} {name : CString}
  {type : Word}

/-- The file is there under its name and empty, and what `fsi_stat` and `fsi_lookup` found before
they still find. A lookup counts if it ends in an allocated block of its directory. -/
structure Usable (next server : Server) (parent child : Fin 4096) (name : CString) (type : Word) :
    Prop where
  lookup : ∀ frame, ∃ last,
    fsiLookup ((parent : ℕ) : ℤ) name frame next = some (((child : ℕ) : ℤ), last)
  stat : ∀ node, ∃ last, fsiStat ((child : ℕ) : ℤ) node next = some (some (type, 0), last)
  direct : ∀ j, (next.inodeRecord child).direct j = -1
  same_stat : ∀ i : Fin 4096, server.inodes i ≠ -1 → ∀ node node', ∃ result last last',
    fsiStat ((i : ℕ) : ℤ) node server = some (result, last) ∧
      fsiStat ((i : ℕ) : ℤ) node' next = some (result, last')
  same_lookup : ∀ (dir : Fin 4096) (other : CString), other.Fits → server.Answers dir other →
    ∀ frame result last, fsiLookup ((dir : ℕ) : ℤ) other frame server = some (result, last) →
      result ≠ -1 → ∀ frame', ∃ last',
        fsiLookup ((dir : ℕ) : ℤ) other frame' next = some (result, last')

/-- A name that is absent from a directory, with a free slot for it in the first block. -/
structure NewName (server : Server) (parent : Fin 4096) (name : CString) (frame : CreatFrame) :
    Prop where
  directory : IsDirectory server parent
  fits : name.Fits
  absent : ∀ slot : Slot, slot.dir = parent → slot.Live server → ¬ slot.Named server name
  not_found : ∀ rc last, fsiLookup ((parent : ℕ) : ℤ) name frame.lookup server = some (rc, last) →
    rc ≤ 0
  free : ∃ slot < dirEntries, entryInum (server.dirBlock parent 0) slot = -1

/-! ## Answers in a directory of one block -/

theorem fsiStat_run {record : Inode} (hnode : InodeIs server i record) (node : Store) :
    ∃ last, fsiStat ((i : ℕ) : ℤ) node server = some (some (record.type, record.size), last) := by
  unfold fsiStat
  rw [bind_run (getInode_run node hnode)]
  exact ⟨_, rfl⟩

/-- A lookup that stays in the only block of a directory finds the name there. -/
theorem Laid.first_of_answers (h : Laid server) (hdir : IsDirectory server dir)
    (hanswers : server.Answers dir name) :
    ∃ slot, Scan.first (entryNamed (server.dirBlock dir 0) name) dirEntries = some slot := by
  cases hfirst : Scan.first (entryNamed (server.dirBlock dir 0) name) dirEntries with
  | some slot => exact ⟨slot, rfl⟩
  | none =>
    have hreach : Reaches (blockContent server.image (server.inodeRecord dir)) name 0
        ((1 : Fin ndirect) : ℕ) := by
      intro m _ hm
      obtain rfl : m = 0 := Nat.lt_one_iff.mp hm
      exact hfirst
    exact absurd (h.one_block dir hdir 1 (by decide)) (hanswers hdir 1 hreach)

theorem Laid.fsiLookup_first (h : Laid server) (hdir : IsDirectory server dir) (hname : name.Fits)
    (hfirst : Scan.first (entryNamed (server.dirBlock dir 0) name) dirEntries = some slot)
    (frame : LookupFrame) :
    ∃ last, fsiLookup ((dir : ℕ) : ℤ) name frame server =
      some ((entryInum (server.dirBlock dir 0) slot).toInt, last) :=
  ⟨_, fsiLookup_first_block frame (h.inodeIs hdir.1) hdir.2 (h.direct_lt hdir) (h.blockAt hdir)
    hname hfirst⟩

/-- A lookup that finds an object in the blocks of its directory. -/
theorem Laid.found_of_answers (h : Laid server) (hname : name.Fits)
    (hanswers : server.Answers dir name) {frame : LookupFrame} {result : ℤ} {last : Server}
    (hrun : fsiLookup ((dir : ℕ) : ℤ) name frame server = some (result, last))
    (hresult : result ≠ -1) :
    IsDirectory server dir ∧ ∃ slot,
      Scan.first (entryNamed (server.dirBlock dir 0) name) dirEntries = some slot ∧
        entryInum (server.dirBlock dir 0) slot ≠ -1 ∧
          result = (entryInum (server.dirBlock dir 0) slot).toInt := by
  have hlive : server.inodes dir ≠ -1 := by
    intro hnone
    cases hrun.symm.trans (fsiLookup_unallocated hnone frame)
    exact hresult rfl
  have hdir : IsDirectory server dir := by
    refine ⟨hlive, ?_⟩
    by_contra htype
    cases hrun.symm.trans (fsiLookup_not_directory name frame (h.inodeIs hlive) htype)
    exact hresult rfl
  obtain ⟨slot, hfirst⟩ := h.first_of_answers hdir hanswers
  obtain ⟨last', hlookup⟩ := h.fsiLookup_first hdir hname hfirst frame
  cases hrun.symm.trans hlookup
  refine ⟨hdir, slot, hfirst, fun heq ↦ hresult ?_, rfl⟩
  rw [heq]
  rfl

/-! ## The new entry -/

section Entry

variable {old found : Store} (hfound : AgreeOn found old 0 lfsBlockSize)
  (hfree : Scan.first (fun k ↦ entryInum old k = -1) dirEntries = some slot)
  (hname : name.Fits)

include hfound hfree hname

/-- The new name stands first in the slot that it was given. -/
theorem first_new_entry {inum : Word}
    (habsent : ∀ k < dirEntries, entryInum old k ≠ -1 → entryNamed old name k = false) :
    Scan.first (entryNamed (setEntry found slot name inum) name) dirEntries = some slot := by
  obtain ⟨hlt, -, hbefore⟩ := Scan.first_eq_some_iff.mp hfree
  refine Scan.first_eq_some_iff.mpr
    ⟨hlt, (entryNamed_setEntry_same found slot hname inum).mpr rfl, fun k hk ↦ ?_⟩
  have hlive : entryInum old k ≠ -1 := of_decide_eq_false (hbefore k hk)
  have hagree := AgreeOn.slot hfound (hk.trans hlt)
  rw [entryNamed_setEntry_other found hname hname inum hk.ne,
    entryNamed_congr hname (hagree.mono le_rfl (by omega))]
  exact habsent k (hk.trans hlt) hlive

/-- A live entry with another name is found where it was. -/
theorem first_old_entry {other : CString} (hother : other.Fits) {k : ℕ}
    (hfirst : Scan.first (entryNamed old other) dirEntries = some k)
    (hlive : entryInum old k ≠ -1) (hne : other ≠ name) (inum : Word) :
    Scan.first (entryNamed (setEntry found slot name inum) other) dirEntries = some k ∧
      entryInum (setEntry found slot name inum) k = entryInum old k := by
  obtain ⟨hlt, -, -⟩ := Scan.first_eq_some_iff.mp hfirst
  obtain ⟨-, hhit, -⟩ := Scan.first_eq_some_iff.mp hfree
  have hslot : k ≠ slot := by
    rintro rfl
    exact hlive (of_decide_eq_true hhit)
  rw [← first_entryNamed_congr hfound hother] at hfirst
  refine ⟨first_setEntry_other hname hother hne hslot inum hfirst, ?_⟩
  rw [entryInum_setEntry_other found hname inum hslot]
  exact entryInum_congr (AgreeOn.slot hfound hlt)

end Entry

/-- No live slot of the first block has the name. -/
theorem NewName.not_named {frame : CreatFrame} (h : NewName server parent name frame)
    (hlaid : Laid server) {k : ℕ} (hk : k < dirEntries)
    (hlive : entryInum (server.dirBlock parent 0) k ≠ -1) :
    entryNamed (server.dirBlock parent 0) name k = false := by
  have hblock : (server.inodeRecord parent).direct 0 ≠ -1 :=
    ne_neg_one_of_toNat_lt (hlaid.direct_lt h.directory)
  have hnot := h.absent ⟨parent, 0, ⟨k, hk⟩⟩ rfl ⟨h.directory, hblock, hlive⟩
  exact Bool.eq_false_iff.mpr hnot

/-- The records of a creation in the parent's chunk. -/
theorem Flat.usable (h : Flat server) {frame : CreatFrame}
    (hnew : NewName server parent name frame)
    (hfree : Scan.first (fun k ↦ entryInum (server.dirBlock parent 0) k = -1) dirEntries =
      some slot) {found : Store} (hfound : AgreeOn found (server.dirBlock parent 0) 0 lfsBlockSize)
    (hroom : server.cr.endPos.toNat + 8384 < 2 ^ 31) (hfresh : server.inodes child = -1)
    (hchunk : chunkOf parent = chunkOf child) {junkBlock : Store} {offset : ℕ}
    (hrun : LFS.creatCommit ((parent : ℕ) : ℤ) lfsRegularFile junkBlock
      ⟨server.inodeRecord parent, child, setEntry found slot name (BitVec.ofNat 32 child), 0⟩
      (server.seek offset) = some (0, next)) :
    Usable next server parent child name lfsRegularFile := by
  have hlaid := h.laid
  have hdir := hnew.directory
  have hne : parent ≠ child := fun heq ↦ hdir.1 (heq ▸ hfresh)
  have hsought := hlaid.seek offset
  obtain ⟨next', hrun', hcreated⟩ := creatCommit_created hsought hroom hdir.2
    (hlaid.one_block parent hdir) hne hchunk slot name lfsRegularFile found junkBlock
  cases hrun.symm.trans hrun'
  have hextend : Extends next server := ⟨hcreated.extend.agree, hcreated.extend.end_le⟩
  have hnext : Laid next := hcreated.laid hsought hdir
    (below_of_chunkOf_eq hchunk (hlaid.below parent hdir.1))
  have hentry := hcreated.parent_entry
  have hchildRecord : next.inodeRecord child = newInode lfsRegularFile :=
    creatCommit_child hsought.running hroom hchunk hrun
  have hchildLive : next.inodes child ≠ -1 := by
    apply ne_neg_one_of_toNat_lt
    have hhigh := hcreated.child_node.2
    have hend := hcreated.end_lt
    omega
  have hparentRecord : next.inodeRecord parent =
      createdParent (server.inodeRecord parent) 0 server.cr.endPos := by
    let plan : CreatPlan := ⟨server.inodeRecord parent, child,
      setEntry found slot name (BitVec.ofNat 32 child), 0⟩
    have hplan : plan.inum ≠ parent := hne.symm
    have hrecord := creatCommit_parent hsought.running hroom hplan hrun
    exact hrecord
  have hother (k : Fin 4096) (hkp : k ≠ parent) (hk : server.inodes k ≠ -1) :
      next.inodes k = server.inodes k :=
    hcreated.other k hkp fun heq ↦ hk (heq ▸ hfresh)
  have hfirst (other : CString) (hothername : other.Fits) (k : ℕ)
      (hscan : Scan.first (entryNamed (setEntry found slot name (BitVec.ofNat 32 child)) other)
        dirEntries = some k) (frame : LookupFrame) :
      ∃ last, fsiLookup ((parent : ℕ) : ℤ) other frame next = some
        ((entryInum (setEntry found slot name (BitVec.ofNat 32 child)) k).toInt, last) := by
    rw [← first_entryNamed_congr hentry.content hothername] at hscan
    rw [← hentry.entryInum_eq (Scan.first_eq_some_iff.mp hscan).1]
    exact hnext.fsiLookup_first hentry.directory hothername hscan frame
  constructor
  case lookup =>
    intro frame
    have hscan : Scan.first (entryNamed (setEntry found slot name (BitVec.ofNat 32 child)) name)
        dirEntries = some slot :=
      first_new_entry hfound hfree hnew.fits fun k hk ↦ hnew.not_named hlaid hk
    obtain ⟨last, hlast⟩ := hfirst name hnew.fits slot hscan frame
    rw [entryInum_setEntry_same, toInt_ofNat_fin] at hlast
    exact ⟨last, hlast⟩
  case stat =>
    intro node
    obtain ⟨last, hlast⟩ := fsiStat_run (hnext.inodeIs hchildLive) node
    rw [hchildRecord] at hlast
    exact ⟨last, hlast⟩
  case direct =>
    rw [hchildRecord]
    exact fun _ ↦ rfl
  case same_stat =>
    intro k hk node node'
    obtain ⟨last, hlast⟩ := fsiStat_run (hlaid.inodeIs hk) node
    by_cases hkp : k = parent
    · subst hkp
      obtain ⟨last', hlast'⟩ := fsiStat_run (hnext.inodeIs hentry.directory.1) node'
      rw [hparentRecord, createdParent_type, createdParent_size (h.size k hdir)] at hlast'
      exact ⟨_, last, last', hlast, hlast'⟩
    · have hinodes := hother k hkp hk
      obtain ⟨last', hlast'⟩ := fsiStat_run (hnext.inodeIs (hinodes ▸ hk)) node'
      rw [hextend.inodeRecord_eq hinodes (hlaid.node k hk)] at hlast'
      exact ⟨_, last, last', hlast, hlast'⟩
  case same_lookup =>
    intro dir other hothername hanswers frame result last hlookup hresult frame'
    obtain ⟨hdirectory, k, hscan, hlive, rfl⟩ :=
      hlaid.found_of_answers hothername hanswers hlookup hresult
    by_cases hkp : dir = parent
    · subst hkp
      have hdiffers : other ≠ name := by
        rintro rfl
        obtain ⟨hlt, hnamed, -⟩ := Scan.first_eq_some_iff.mp hscan
        rw [hnew.not_named hlaid hlt hlive] at hnamed
        cases hnamed
      have hsame := first_old_entry hfound hfree hnew.fits hothername hscan hlive hdiffers
      rw [← (hsame (BitVec.ofNat 32 child)).2]
      exact hfirst other hothername k (hsame _).1 frame'
    · have hkept := (hlaid.directoryIs hdirectory).extend hextend
        (hother dir hkp hdirectory.1)
      rw [← first_entryNamed_congr hkept.content hothername] at hscan
      rw [← hkept.entryInum_eq (Scan.first_eq_some_iff.mp hscan).1]
      exact hnext.fsiLookup_first hkept.directory hothername hscan frame'

/-! ## Another chunk -/

/-- The record of a new file in another chunk is that of the parent's chunk. -/
theorem creatCommit_cross_record (h : Running server)
    (hroom : server.cr.endPos.toNat + 8384 < 2 ^ 31) {plan : CreatPlan}
    (hchunk : chunkOf parent ≠ chunkOf plan.inum) {junkBlock : Store}
    (hrun : creatCommit ((parent : ℕ) : ℤ) lfsRegularFile junkBlock plan server = some (0, next)) :
    InodeIs next plan.inum (Inode.ofBytes
      (chunkBytes (server.appendedEntry parent plan).inodes (chunkOf parent)) 0) := by
  let pos := server.cr.endPos + 4096 + 64
  let entry := server.appendedEntry parent plan
  let entered := entry.appendedParentChunk parent pos
  have hlow := h.synced.crSize_le
  have hpos : pos.toNat = server.cr.endPos.toNat + 4160 := toNat_after_inode _ (by omega)
  have hlog : Logging server entry pos := appendedEntry_logging h parent plan (by omega)
  have hfull : AllFull entered := fun k ↦ hlog.full (k + 1)
  rw [creatCommit_cross_run h.full parent junkBlock plan hchunk, creatChild_run hfull] at hrun
  cases hrun
  let last := entered.appendedChild plan.inum (newInode lfsRegularFile) pos
  have hoffset : entry.offset = pos.toNat := hlog.offset_eq
  have hwrote : entered.image.Holds entry.offset chunkSize
      (chunkBytes entry.inodes (chunkOf parent)) := holds_wrote chunkSize _
  have hlisted : (entered.putInode plan.inum pos).image.Holds entry.offset chunkSize
      (chunkBytes entry.inodes (chunkOf parent)) := hwrote
  have hlast : last.image.Holds entry.offset chunkSize
      (chunkBytes entry.inodes (chunkOf parent)) :=
    holds_wrote_of_holds hlisted le_rfl inodeSize (newInode lfsRegularFile).toBytes
  have hfinal := holds_committed hlast (by omega) (Nat.le_add_right _ _) plan.inum (pos + 64)
  have hinodes : (last.committed plan.inum (pos + 64)).inodes plan.inum = pos :=
    Function.update_self _ _ _
  rw [hoffset] at hfinal
  refine ⟨?_, ?_, ?_⟩
  · rw [hinodes]
    omega
  · rw [hinodes]
    exact hfinal.fits
  · unfold Server.inodeRecord
    rw [hinodes]
    apply Inode.ofBytes_congr
    intro k hk
    rw [Nat.zero_add]
    exact hfinal.bytes k hk

/-- Its first word is the position of an inode, or -1. -/
theorem Laid.cross_size_ne (h : Laid server) (hroom : server.cr.endPos.toNat + 8384 < 2 ^ 31)
    (parent : Fin 4096) (plan : CreatPlan) :
    (Inode.ofBytes (chunkBytes (server.appendedEntry parent plan).inodes (chunkOf parent)) 0).size ≠
      0 := by
  have hlt : imapChunkSize * (chunkOf parent : ℕ) < 4096 := by
    have hchunk := (chunkOf parent).isLt
    simp only [imapChunkSize]
    omega
  let first : Fin 4096 := ⟨imapChunkSize * chunkOf parent, hlt⟩
  have hdiv : (first : ℕ) / imapChunkSize = chunkOf parent :=
    Nat.mul_div_cancel_left _ (by decide)
  have hmod : 4 * ((first : ℕ) % imapChunkSize) = 0 := by
    rw [Nat.mul_mod_right, Nat.mul_zero]
  have hword := load32_chunkBytes (server.appendedEntry parent plan).inodes first _ hdiv
  rw [hmod] at hword
  change load32 _ 0 ≠ 0
  rw [hword]
  change Function.update server.inodes parent (server.cr.endPos + 4096) first ≠ 0
  have hnone : (0 : Word).toNat = 0 := rfl
  by_cases heq : first = parent
  · rw [heq, Function.update_self]
    intro hzero
    have hpos : (server.cr.endPos + 4096).toNat = server.cr.endPos.toNat + 4096 :=
      toNat_after_block _ (by omega)
    rw [hzero, hnone] at hpos
    omega
  · rw [Function.update_of_ne heq]
    by_cases hlive : server.inodes first = -1
    · rw [hlive]
      decide
    · intro hzero
      have hlow := (h.node first hlive).1
      rw [hzero, hnone] at hlow
      exact absurd hlow (by decide)

theorem Flat.not_usable (h : Flat server) (hroom : server.cr.endPos.toNat + 8384 < 2 ^ 31)
    {plan : CreatPlan} (hchunk : chunkOf parent ≠ chunkOf plan.inum) {junkBlock : Store}
    {offset : ℕ} (hrun : LFS.creatCommit ((parent : ℕ) : ℤ) lfsRegularFile junkBlock plan
      (server.seek offset) = some (0, next)) :
    ¬ Usable next server parent plan.inum name type := by
  intro husable
  have hnode := creatCommit_cross_record (h.seek offset).laid.running hroom hchunk hrun
  obtain ⟨last, hlast⟩ := fsiStat_run hnode junk
  obtain ⟨last', hlast'⟩ := husable.stat junk
  have hresult := congrArg Prod.fst (Option.some.inj (hlast.symm.trans hlast'))
  have hsize := congrArg Prod.snd (Option.some.inj hresult)
  exact (h.seek offset).laid.cross_size_ne hroom parent plan hsize

/-! ## One creation -/

/-- A new name in a state that directories of one block have led to. -/
theorem Flat.fsiCreat_usable_iff (h : Flat server)
    (hroom : server.cr.endPos.toNat + 8384 < 2 ^ 31) {frame : CreatFrame}
    (hnew : NewName server parent name frame)
    (hinum : Scan.first (inodeFree server.inodes) 4096 = some (child : ℕ)) :
    ∃ next, LFS.fsiCreat ((parent : ℕ) : ℤ) lfsRegularFile name frame server = some (0, next) ∧
      (Usable next server parent child name lfsRegularFile ↔ chunkOf parent = chunkOf child) := by
  obtain ⟨slot, hslot⟩ := exists_first_free hnew.free
  obtain ⟨found, hfound, hcreat⟩ := h.laid.fsiCreat_absent hnew.directory hnew.fits
    hnew.not_found hinum hslot lfsRegularFile
  have hfresh := inodeFree_first hinum
  let plan : CreatPlan := ⟨server.inodeRecord parent, child,
    setEntry found slot name (BitVec.ofNat 32 child), 0⟩
  have hne : plan.inum ≠ parent := fun heq ↦ hnew.directory.1 (heq ▸ hfresh)
  let sought := server.seek (((server.inodeRecord parent).direct 0).toNat + lfsBlockSize)
  have hsought : Flat sought := h.seek _
  have hspace : Appendable sought 8384 := ⟨hsought.laid.running.full,
    hsought.laid.running.synced.crSize_le, hsought.laid.running.synced.end_le, hroom⟩
  obtain ⟨next, hrun, -⟩ := creatCommit_committed hspace hne lfsRegularFile frame.childDirBlock
  refine ⟨next, hcreat.trans hrun, fun husable ↦ ?_, fun hchunk ↦ ?_⟩
  · by_contra hchunk
    have hcross : chunkOf parent ≠ chunkOf plan.inum := hchunk
    exact h.not_usable hroom hcross hrun husable
  · exact h.usable hnew hslot hfound hroom hfresh hchunk hrun

end OS537.LFS
