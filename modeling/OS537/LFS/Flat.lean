import OS537.LFS.Entries
import OS537.LFS.Writing

/-!
# Runs that keep directories in their first block

`fsi_creat` and `fsi_unlink` work on the blocks of a directory one after the other, and where a
block is not allocated they work on what stands at the file offset. As long as every creation finds
a free slot in the first block of its parent, and every removal its entry, no directory gets another
block. The condition on a call is weaker than the one for the directory tree: a name may be created
again, and a new directory may start with whatever the stack contains.
-/

namespace OS537.LFS

open Bytes Code Posix Run

variable {server middle next : Server} {parent child dir i : Fin 4096} {slot : ℕ} {name : CString}
  {type : Word} {pos : Word}

/-! ## The records of a creation and of a removal -/

/-- The inode of the new object, when the position counter is the file offset. -/
theorem appendedChild_record (hoffset : middle.offset = pos.toNat) (hlow : crSize ≤ pos.toNat)
    (child : Fin 4096) (node : Inode) :
    ((middle.appendedChild child node pos).committed child (pos + 64)).inodeRecord child =
      node := by
  have hwrote : InodeAt (middle.appendedChild child node pos).image middle.offset node :=
    holds_wrote inodeSize _
  rw [hoffset] at hwrote
  have hend : pos.toNat + inodeSize ≤ (middle.appendedChild child node pos).offset := by
    rw [← hoffset]
    exact le_rfl
  have hposition : ((middle.appendedChild child node pos).committed child (pos + 64)).inodes child =
      pos := Function.update_self _ _ _
  unfold Server.inodeRecord
  rw [hposition]
  exact InodeAt.ofBytes_eq (holds_committed hwrote hlow hend child _)

/-- The inode that `fsi_creat` records for the new object. -/
def createdChild (type : Word) (block : Fin ndirect) (pos : Word) : Inode :=
  if type = lfsDirectory then newDirectory block pos else newInode type

theorem creatCommit_child (h : Running server) (hroom : server.cr.endPos.toNat + 8384 < 2 ^ 31)
    {plan : CreatPlan} (hchunk : chunkOf parent = chunkOf plan.inum) {junkBlock : Store}
    (hrun : creatCommit ((parent : ℕ) : ℤ) type junkBlock plan server = some (0, next)) :
    next.inodeRecord plan.inum =
      createdChild type plan.foundBlock (server.cr.endPos + 4096 + 64) := by
  have hlow := h.synced.crSize_le
  have hpos : (server.cr.endPos + 4096 + 64).toNat = server.cr.endPos.toNat + 4160 :=
    toNat_after_inode _ (by omega)
  have hlog : Logging server (server.appendedEntry parent plan) (server.cr.endPos + 4096 + 64) :=
    appendedEntry_logging h parent plan (by omega)
  rw [creatCommit_run h.full parent type junkBlock plan hchunk] at hrun
  unfold createdChild
  by_cases htype : type = lfsDirectory
  · have hblock := hlog.wrote_block (childBlock junkBlock (BitVec.ofNat 32 plan.inum)
      (BitVec.ofInt 32 ((parent : ℕ) : ℤ))) (by omega)
    have hpos' : (server.cr.endPos + 4096 + 64 + 4096).toNat = server.cr.endPos.toNat + 8256 := by
      rw [toNat_after_block _ (by omega), hpos]
    rw [if_pos htype, creatChild_run hblock.full] at hrun
    cases hrun
    rw [if_pos htype]
    exact appendedChild_record hblock.offset_eq (by omega) _ _
  · rw [if_neg htype, creatChild_run hlog.full] at hrun
    cases hrun
    rw [if_neg htype]
    exact appendedChild_record hlog.offset_eq (by omega) _ _

/-- The parent's inode after `fsi_creat`, whatever chunk the new inode is in. -/
theorem creatCommit_parent (h : Running server) (hroom : server.cr.endPos.toNat + 8384 < 2 ^ 31)
    {plan : CreatPlan} (hne : plan.inum ≠ parent) {junkBlock : Store}
    (hrun : creatCommit ((parent : ℕ) : ℤ) type junkBlock plan server = some (0, next)) :
    next.inodeRecord parent = createdParent plan.pnode plan.foundBlock server.cr.endPos := by
  have hspace : Appendable server 8384 := ⟨h.full, h.synced.crSize_le, h.synced.end_le, hroom⟩
  obtain ⟨next', hrun', hcommitted⟩ := creatCommit_committed hspace hne type junkBlock
  cases hrun.symm.trans hrun'
  exact hcommitted.inodeRecord_eq (by omega)

/-- An entry in the first block leaves the size of the parent, unless it is negative. -/
theorem createdParent_size {pnode : Inode} (hsize : 0 ≤ pnode.size.toInt) (pos : Word) :
    (createdParent pnode 0 pos).size = pnode.size := by
  have hzero : ((((0 : Fin ndirect) : ℕ) : ℤ)) * 4096 = 0 := rfl
  unfold createdParent
  rw [hzero, if_neg (not_lt.mpr hsize)]
  rfl

/-- The parent's inode after `fsi_unlink`. -/
theorem unlinkCommit_parent (h : Running server) (hroom : server.cr.endPos.toNat + 4224 < 2 ^ 31)
    {plan : UnlinkPlan} (hchunk : chunkOf parent = chunkOf plan.cinum) (hne : plan.cinum ≠ parent)
    {block : Fin ndirect} (hfound : plan.found = some ((block : ℕ), slot))
    (hrun : unlinkCommit ((parent : ℕ) : ℤ) plan server = some (0, next)) :
    next.inodeRecord parent = unlinkedParent plan.pnode block slot server.cr.endPos := by
  have hlow := h.synced.crSize_le
  have hpos : (server.cr.endPos + 4096).toNat = server.cr.endPos.toNat + 4096 :=
    toNat_after_block _ (by omega)
  rw [unlinkCommit_run h.full parent plan block slot hfound hchunk (by omega)] at hrun
  cases hrun
  obtain ⟨-, hnode⟩ := appendedParent_records server parent plan block slot
  have hposition : ((server.appendedParent parent plan block slot).committed plan.cinum
      (server.cr.endPos + 4096 + 64)).inodes parent = server.cr.endPos + 4096 := by
    change Function.update (Function.update server.inodes parent (server.cr.endPos + 4096))
      plan.cinum (-1) parent = _
    rw [Function.update_of_ne hne.symm, Function.update_self]
  unfold Server.inodeRecord
  rw [hposition, hpos]
  exact InodeAt.ofBytes_eq (holds_committed hnode (by omega) le_rfl _ _)

/-! ## Directories of one block -/

/-- The layout of the log, with directories that have a size. -/
structure Flat (server : Server) : Prop where
  laid : Laid server
  size : ∀ dir, IsDirectory server dir → 0 ≤ (server.inodeRecord dir).size.toInt

theorem Flat.seek (h : Flat server) (offset : ℕ) : Flat (server.seek offset) :=
  ⟨h.laid.seek offset, h.size⟩

/-- The sizes of directories whose records stay. -/
theorem Flat.size_extend (h : Flat server) (hext : Extends next server)
    (hinodes : next.inodes dir = server.inodes dir) (hdir : IsDirectory next dir) :
    0 ≤ (next.inodeRecord dir).size.toInt := by
  have hold := (hext.isDirectory_iff h.laid hinodes).mp hdir
  rw [hext.inodeRecord_eq hinodes (h.laid.node dir hold.1)]
  exact h.size dir hold

theorem below_of_chunkOf_eq (hchunk : chunkOf parent = chunkOf child)
    (hparent : (parent : ℕ) < imapChunkSize) : (child : ℕ) < imapChunkSize := by
  have hval : (parent : ℕ) / imapChunkSize = child / imapChunkSize := congrArg Fin.val hchunk
  rw [Nat.div_eq_of_lt hparent] at hval
  exact (Nat.div_eq_zero_iff_lt (by decide)).mp hval.symm

/-- A creation from its first write on, with a parent as it was read before. -/
theorem Flat.creatCommit (h : Flat server) (hroom : server.cr.endPos.toNat + 8384 < 2 ^ 31)
    (hparent : IsDirectory server parent) {pnode : Inode} (hdir : pnode.type = lfsDirectory)
    (hone : ∀ j, j ≠ 0 → pnode.direct j = -1) (hsize : 0 ≤ pnode.size.toInt) (hne : parent ≠ child)
    (hchunk : chunkOf parent = chunkOf child) (slot : ℕ) (name : CString) (type : Word)
    (found junkBlock : Store) :
    ∃ next, creatCommit ((parent : ℕ) : ℤ) type junkBlock
        ⟨pnode, child, setEntry found slot name (BitVec.ofNat 32 child), 0⟩
        server = some (0, next) ∧ Flat next := by
  have hlaid := h.laid
  have hchild := below_of_chunkOf_eq hchunk (hlaid.below parent hparent.1)
  obtain ⟨next, hrun, hcreated⟩ :=
    creatCommit_created hlaid hroom hdir hone hne hchunk slot name type found junkBlock
  refine ⟨next, hrun, hcreated.laid hlaid hparent hchild, fun dir hdirectory ↦ ?_⟩
  by_cases hnew : dir = child
  · subst hnew
    have hrecord := creatCommit_child hlaid.running hroom hchunk hrun
    have htype := hcreated.isDirectory_child.mp hdirectory
    rw [hrecord, createdChild, if_pos htype]
    change 0 ≤ (64 : Word).toInt
    decide
  · by_cases heq : dir = parent
    · subst heq
      let plan : CreatPlan :=
        ⟨pnode, child, setEntry found slot name (BitVec.ofNat 32 child), 0⟩
      have hplan : plan.inum ≠ dir := hne.symm
      rw [creatCommit_parent hlaid.running hroom hplan hrun, createdParent_size hsize]
      exact hsize
    · exact h.size_extend hcreated.extend (hcreated.other dir heq hnew) hdirectory

/-- What a removal on directories of one block leaves. -/
structure RemovedFlat (next server : Server) (parent : Fin 4096) : Prop where
  flat : Flat next
  extend : Extends next server
  end_le : next.cr.endPos.toNat ≤ server.cr.endPos.toNat + 4224
  directory : IsDirectory server parent → IsDirectory next parent

theorem Flat.removedFlat_seek (h : Flat server) (offset : ℕ) :
    RemovedFlat (server.seek offset) server parent :=
  ⟨h.seek offset, ⟨fun _ _ _ ↦ rfl, le_rfl⟩, Nat.le_add_right _ _, id⟩

/-- A removal from its first write on, of an object that is no directory. -/
theorem Flat.unlinkCommit (h : Flat server) (hroom : server.cr.endPos.toNat + 4224 < 2 ^ 31)
    (hparent : IsDirectory server parent) (hfile : ¬ IsDirectory server child)
    (hne : parent ≠ child) (hchunk : chunkOf parent = chunkOf child) (hslot : slot ≠ 0)
    {found : Store} (hfound : AgreeOn found (server.dirBlock parent 0) 0 lfsBlockSize) :
    ∃ next, unlinkCommit ((parent : ℕ) : ℤ)
        ⟨server.inodeRecord parent, child, setEntryInum found slot (-1), some (0, slot)⟩ server =
          some (0, next) ∧ RemovedFlat next server parent := by
  have hlaid := h.laid
  obtain ⟨next, hrun, hremoved⟩ :=
    unlinkCommit_removed hlaid hroom hparent hne hchunk hslot hfound
  have hdirectory : IsDirectory next parent ↔ IsDirectory server parent :=
    hremoved.isDirectory_iff hlaid hparent hfile
  refine ⟨next, hrun, ⟨⟨hremoved.laid hlaid hparent hfile, fun dir hdir ↦ ?_⟩, hremoved.extend,
    hremoved.end_le, fun _ ↦ hdirectory.mpr hparent⟩⟩
  have hgone : dir ≠ child := fun heq ↦ hdir.1 (heq ▸ hremoved.child)
  by_cases heq : dir = parent
  · subst heq
    let plan : UnlinkPlan :=
      ⟨server.inodeRecord dir, child, setEntryInum found slot (-1), some (0, slot)⟩
    have hplan : plan.found = some (((0 : Fin ndirect) : ℕ), slot) := rfl
    rw [unlinkCommit_parent hlaid.running hroom hchunk hne.symm hplan hrun]
    exact h.size dir hparent
  · exact h.size_extend hremoved.extend (hremoved.other dir heq hgone) hdir

/-! ## One call -/

/-- The loop of `fsi_unlink` that ends in the first block has read it. -/
theorem Laid.unlinkBlocks_first (h : Laid server) (hdir : IsDirectory server parent)
    {buffer dirBlock : Store} {offset : ℕ}
    (hrun : unlinkBlocks (server.inodeRecord parent) name ndirect 0 buffer (server.seek offset) =
      some (some (dirBlock, some (0, slot)), next)) :
    ∃ found, AgreeOn found (server.dirBlock parent 0) 0 lfsBlockSize ∧
      dirBlock = setEntryInum found slot (-1) := by
  obtain ⟨found, hread, hfound⟩ := h.getBlock_first hdir buffer offset
  refine ⟨found, hfound, ?_⟩
  unfold unlinkBlocks at hrun
  rw [bind_run hread] at hrun
  dsimp only at hrun
  rw [if_neg (by decide)] at hrun
  cases hfirst : Scan.first (entryNamed found name) dirEntries with
  | some first =>
    rw [hfirst] at hrun
    cases hrun
    rfl
  | none =>
    rw [hfirst] at hrun
    have hlow := (unlinkBlocks_range hrun).1
    omega

/-- A directory that passes the test for emptiness is taken from itself. -/
theorem onlySelfAndParent_eq {content : Store} {cinum pinum : ℤ}
    (h : onlySelfAndParent content cinum pinum = true) : cinum = pinum := by
  unfold onlySelfAndParent at h
  rw [Option.isNone_iff_eq_none, Scan.first_eq_none_iff] at h
  have hmiss := of_decide_eq_false (h 0 (by decide))
  rw [not_or, not_not, not_not] at hmiss
  exact hmiss.1.symm.trans hmiss.2

/-- What `fsi_unlink` has found in a directory of one block. -/
theorem UnlinkPlanned.first_block {frame : UnlinkFrame} {plan : UnlinkPlan}
    (h : UnlinkPlanned server ((parent : ℕ) : ℤ) name frame plan) (hlaid : Laid server)
    (hfound : plan.found = some (0, slot)) (hne : plan.cinum ≠ parent) :
    IsDirectory server parent ∧ ¬ IsDirectory server plan.cinum ∧
      plan.pnode = server.inodeRecord parent ∧
      ∃ found, AgreeOn found (server.dirBlock parent 0) 0 lfsBlockSize ∧
        plan.dirBlock = setEntryInum found slot (-1) := by
  obtain ⟨rc, probed, looked, rc', cnode, last, hprobed, hrc, hlooked, hlast, hchild⟩ := h.child
  have hlive : server.inodes parent ≠ -1 := by
    intro hnone
    have hmissing := hprobed.symm.trans (getInode_unallocated frame.pnode hnone)
    have hfail : rc = -1 := congrArg (fun result ↦ result.1.1) (Option.some.inj hmissing)
    omega
  have hnode := hlaid.inodeIs hlive
  have hread := hprobed.symm.trans (getInode_run frame.pnode hnode)
  have hpnode : plan.pnode = server.inodeRecord parent :=
    congrArg (fun result ↦ result.1.2) (Option.some.inj hread)
  have hprobed' : probed = server.seek ((server.inodes parent).toNat + inodeSize) :=
    congrArg Prod.snd (Option.some.inj hread)
  rw [hprobed'] at hlooked
  have htype : (server.inodeRecord parent).type = lfsDirectory := by
    by_contra hother
    have hrefused := fsiLookup_not_directory name frame.lookup (hnode.seek
      ((server.inodes parent).toNat + inodeSize)) hother
    cases hlooked.symm.trans hrefused
  have hdir : IsDirectory server parent := ⟨hlive, htype⟩
  refine ⟨hdir, fun hchildDir ↦ hne ?_, hpnode, ?_⟩
  · have hlooked' := readOnly_fsiLookup _ _ _ _ _ _ hlooked
    rw [hlooked'] at hlast
    have hrecord := hlast.symm.trans (getInode_run frame.cnode
      ((hlaid.inodeIs hchildDir.1).seek looked.offset))
    have hcnode : cnode = server.inodeRecord plan.cinum :=
      congrArg (fun result ↦ result.1.2) (Option.some.inj hrecord)
    obtain ⟨-, -, content, -, -, honly⟩ := hchild (by rw [hcnode]; exact hchildDir.2)
    exact Fin.ext (Int.ofNat_inj.mp (onlySelfAndParent_eq honly))
  · obtain ⟨offset, after, hblocks⟩ := h.blocks
    rw [hpnode, hfound] at hblocks
    exact hlaid.unlinkBlocks_first hdir hblocks

/-- A call of `fsi_unlink` that keeps directories in their first block: what it removes is in the
parent's chunk, is not the parent, and has its entry in the first block and not in slot 0, with
which the whole block would go. -/
structure UnlinkKeepsFlat (server : Server) (parent : Fin 4096) (name : CString)
    (frame : UnlinkFrame) : Prop where
  safe : UnlinkSafe server parent name frame
  inside : ∀ plan next, unlinkSearch ((parent : ℕ) : ℤ) name frame server = some (.inr plan, next) →
    plan.cinum ≠ parent ∧ ∃ slot, slot ≠ 0 ∧ plan.found = some (0, slot)

theorem Flat.fsiUnlink (h : Flat server) (hroom : server.cr.endPos.toNat + 4224 < 2 ^ 31)
    {frame : UnlinkFrame} (hkeeps : UnlinkKeepsFlat server parent name frame) :
    ∃ rc next, fsiUnlink ((parent : ℕ) : ℤ) name frame server = some (rc, next) ∧
      RemovedFlat next server parent := by
  obtain ⟨⟨outcome, searched⟩, hsearch⟩ := Option.ne_none_iff_exists'.mp hkeeps.safe.defined
  obtain ⟨offset, rfl⟩ : ∃ offset, searched = server.seek offset :=
    ⟨searched.offset, readOnly_unlinkSearch _ _ _ _ _ _ hsearch⟩
  unfold LFS.fsiUnlink
  rw [bind_run hsearch]
  rcases unlinkSearch_cases hsearch with hrefused | ⟨plan, hplan, hplanned⟩
  · rw [hrefused]
    exact ⟨-1, server.seek offset, rfl, h.removedFlat_seek offset⟩
  · rw [hplan] at hsearch ⊢
    obtain ⟨hne, slot, hslot, hfound⟩ := hkeeps.inside plan _ hsearch
    have hchunk := hkeeps.safe.chunk plan _ hsearch
    obtain ⟨hdir, hfile, hpnode, found, hagree, hblock⟩ :=
      hplanned.first_block h.laid hfound hne
    obtain ⟨next, hrun, hremoved⟩ :=
      (h.seek offset).unlinkCommit hroom hdir hfile hne.symm hchunk hslot hagree
    have hplan' : plan = ⟨(server.seek offset).inodeRecord parent, plan.cinum,
        setEntryInum found slot (-1), some (0, slot)⟩ := by
      obtain ⟨pnode, cinum, dirBlock, searchFound⟩ := plan
      cases hfound
      cases hblock
      cases hpnode
      rfl
    refine ⟨0, next, ?_, hremoved.flat, ⟨hremoved.extend.agree, hremoved.extend.end_le⟩,
      hremoved.end_le, hremoved.directory⟩
    dsimp only
    rw [hplan']
    exact hrun

/-- A call of `fsi_creat` that keeps directories in their first block: the parent is a directory
with a free slot there, and the inodes it removes and takes are in the parent's chunk. -/
structure CreatKeepsFlat (server : Server) (parent : Fin 4096) (name : CString)
    (frame : CreatFrame) : Prop where
  safe : CreatSafe server parent name frame
  directory : server.inodes parent ≠ -1 → IsDirectory server parent
  free : IsDirectory server parent →
    ∃ slot < dirEntries, entryInum (server.dirBlock parent 0) slot = -1
  unlink : ∀ pnode found next, creatProbe ((parent : ℕ) : ℤ) name frame server =
    some (some (pnode, found), next) → found > 0 → UnlinkKeepsFlat next parent name frame.unlink

/-- The removal before a creation. -/
theorem Flat.creatReplace (h : Flat server) (hroom : server.cr.endPos.toNat + 4224 < 2 ^ 31)
    {frame : UnlinkFrame} {present : ℤ}
    (hkeeps : present > 0 → UnlinkKeepsFlat server parent name frame) :
    ∃ freed, creatReplace ((parent : ℕ) : ℤ) name frame present server = some ((), freed) ∧
      RemovedFlat freed server parent := by
  unfold LFS.creatReplace
  split
  next hpresent =>
    obtain ⟨rc, freed, hrun, hfreed⟩ := h.fsiUnlink hroom (hkeeps hpresent)
    exact ⟨freed, by rw [bind_run hrun]; rfl, hfreed⟩
  next => exact ⟨server, rfl, h.removedFlat_seek server.offset⟩

/-- A creation when the parent has been read and the name removed, as far as it was there. -/
theorem Flat.fsiCreat_place (h : Flat server) (hdir : IsDirectory server parent)
    (hfree : ∃ slot < dirEntries, entryInum (server.dirBlock parent 0) slot = -1)
    {freed : Server} (hfreed : RemovedFlat freed server parent)
    (hroom : freed.cr.endPos.toNat + 8384 < 2 ^ 31)
    (hchunk : ∀ inum : Fin 4096, Scan.first (inodeFree freed.inodes) 4096 = some (inum : ℕ) →
      chunkOf parent = chunkOf inum) (type : Word) (dirBlock junkBlock : Store) :
    ∃ rc next, (do
      match ← creatPlace (server.inodeRecord parent) name dirBlock with
      | none => return -1
      | some plan => LFS.creatCommit ((parent : ℕ) : ℤ) type junkBlock plan : Fsi ℤ) freed =
        some (rc, next) ∧ Flat next := by
  cases hinum : Scan.first (inodeFree freed.inodes) 4096 with
  | none =>
    have hplace : creatPlace (server.inodeRecord parent) name dirBlock freed =
        some (none, freed) := by
      unfold creatPlace
      rw [bind_run get_run, hinum]
      rfl
    rw [bind_run hplace]
    exact ⟨-1, freed, rfl, hfreed.flat⟩
  | some inum =>
    obtain ⟨child, rfl⟩ : ∃ child : Fin 4096, (child : ℕ) = inum :=
      ⟨⟨inum, (Scan.first_eq_some_iff.mp hinum).1⟩, rfl⟩
    have hne : parent ≠ child := by
      rintro rfl
      exact (hfreed.directory hdir).1 (inodeFree_first hinum)
    have hblock := h.laid.old_block hdir hfreed.extend hfreed.flat.laid
    obtain ⟨found, hread, hfound⟩ := getBlock_run dirBlock (h.laid.direct_lt hdir) hblock
    obtain ⟨slot, hslot⟩ := exists_first_free hfree
    have hplace := creatPlace_found name hinum hread (by decide)
      ((first_free_congr hfound).trans hslot)
    rw [bind_run hplace]
    have hroom' : (freed.seek (((server.inodeRecord parent).direct 0).toNat +
      lfsBlockSize)).cr.endPos.toNat + 8384 < 2 ^ 31 := hroom
    obtain ⟨next, hrun, hnext⟩ := (hfreed.flat.seek _).creatCommit hroom'
      (hfreed.directory hdir) hdir.2 (h.laid.one_block parent hdir) (h.size parent hdir) hne
      (hchunk child hinum) slot name type found junkBlock
    exact ⟨0, next, hrun, hnext⟩

theorem Flat.fsiCreat (h : Flat server) (hroom : server.cr.endPos.toNat + 12608 < 2 ^ 31)
    {frame : CreatFrame} (hkeeps : CreatKeepsFlat server parent name frame) (type : Word) :
    ∃ rc next, fsiCreat ((parent : ℕ) : ℤ) type name frame server = some (rc, next) ∧
      Flat next := by
  obtain ⟨probe, probed, hprobe⟩ := total_creatProbe parent name frame server
  obtain ⟨offset, rfl⟩ : ∃ offset, probed = server.seek offset :=
    ⟨probed.offset, readOnly_creatProbe _ _ _ _ _ _ hprobe⟩
  unfold LFS.fsiCreat
  rw [bind_run hprobe]
  match probe, hprobe with
  | none, _ => exact ⟨-1, _, rfl, h.seek offset⟩
  | some (pnode, present), hprobe =>
    obtain ⟨hlive, rfl, -⟩ := creatProbe_cases (fun hi ↦ h.laid.inodeIs hi) hprobe
    have hdir := hkeeps.directory hlive
    have hroom' : (server.seek offset).cr.endPos.toNat + 12608 < 2 ^ 31 := hroom
    obtain ⟨freed, hreplace, hfreed⟩ :=
      (h.seek offset).creatReplace (by omega) (hkeeps.unlink _ _ _ hprobe)
    have hend := hfreed.end_le
    dsimp only
    rw [bind_run hreplace]
    exact (h.seek offset).fsiCreat_place hdir (hkeeps.free hdir) hfreed (by omega)
      (hkeeps.safe.chunk _ _ _ _ hprobe hreplace) type frame.dirBlock frame.childDirBlock

/-- The records of a write into a file. -/
theorem Flat.appendedBlock (h : Flat server) (hi : server.inodes i ≠ -1)
    (hfile : (server.inodeRecord i).type = lfsRegularFile)
    (hroom : server.cr.endPos.toNat + 4224 < 2 ^ 31) (buffer : Store) (j : Fin ndirect) :
    Flat ((server.appendedBlock i buffer j (server.inodeRecord i)).committed i
      (server.cr.endPos + 4096 + 64)) := by
  let place := server.cr.endPos
  let final := (server.appendedBlock i buffer j (server.inodeRecord i)).committed i
    (place + 4096 + 64)
  have hlaid := h.laid
  have hlow : crSize ≤ place.toNat := hlaid.running.synced.crSize_le
  have hroom' : place.toNat + 4224 < 2 ^ 31 := hroom
  have hpos : (place + 4096).toNat = place.toNat + 4096 := toNat_after_block _ (by omega)
  have hend : final.cr.endPos.toNat = place.toNat + 4224 := by
    have hcommitted : final.cr.endPos = place + 4096 + 64 + 64 := rfl
    have hpos' : (place + 4096 + 64).toNat = place.toNat + 4160 := toNat_after_inode _ (by omega)
    rw [hcommitted, toNat_after_record _ (by omega), hpos']
  have hkept : Kept server final := appendedBlock_kept buffer (server.inodeRecord i)
  have hext : Extends final server := by
    refine ⟨?_, by rw [hend]; exact Nat.le_add_right _ _⟩
    have hbytes := hkept.bytes
    rwa [min_eq_left hlaid.running.synced.end_le] at hbytes
  have hinode : final.inodes i = place + 4096 := Function.update_self _ _ _
  have hother (k : Fin 4096) (hk : k ≠ i) : final.inodes k = server.inodes k :=
    Function.update_of_ne hk _ _
  have hrecord : final.inodeRecord i = writtenInode (server.inodeRecord i) j place := by
    unfold Server.inodeRecord
    rw [hinode, hpos]
    exact InodeAt.ofBytes_eq (appendedBlock_records hlow buffer (server.inodeRecord i)).2
  -- The file that is written is no directory before or after.
  have hdirs (dir : Fin 4096) (hdir : IsDirectory final dir) : dir ≠ i := by
    rintro rfl
    have htype := hdir.2
    rw [hrecord, writtenInode_type, hfile] at htype
    exact absurd htype (by decide)
  have hold (dir : Fin 4096) (hdir : IsDirectory final dir) :
      IsDirectory server dir ∧ final.inodeRecord dir = server.inodeRecord dir := by
    have hinodes := hother dir (hdirs dir hdir)
    have hdirectory := (hext.isDirectory_iff hlaid hinodes).mp hdir
    exact ⟨hdirectory, hext.inodeRecord_eq hinodes (hlaid.node dir hdirectory.1)⟩
  refine ⟨⟨?_, ?_, ?_, ?_, ?_, ?_⟩, ?_⟩
  · exact writeCommit_running hlaid.running i buffer j _ (by omega)
  · change final.cr.endPos.toNat < 2 ^ 31
    omega
  · intro k hk
    by_cases heq : k = i
    · rw [heq]
      exact hlaid.below i hi
    · exact hlaid.below k (hother k heq ▸ hk)
  · intro k hk
    by_cases heq : k = i
    · have hsizes := record_sizes
      rw [heq]
      change InLog final (final.inodes i) inodeSize
      rw [hinode]
      unfold InLog
      omega
    · have hlogged := (hlaid.node k (hother k heq ▸ hk)).extend hext
      rwa [← hother k heq] at hlogged
  · intro dir hdir
    obtain ⟨hdirectory, heq⟩ := hold dir hdir
    have hlogged := (hlaid.block dir hdirectory).extend hext
    rwa [← heq] at hlogged
  · intro dir hdir k hk
    obtain ⟨hdirectory, heq⟩ := hold dir hdir
    have hone := hlaid.one_block dir hdirectory k hk
    rwa [← heq] at hone
  · intro dir hdir
    obtain ⟨hdirectory, heq⟩ := hold dir hdir
    have hsize := h.size dir hdirectory
    rwa [← heq] at hsize

theorem Flat.fsiWrite (h : Flat server) (hroom : server.cr.endPos.toNat + 4224 < 2 ^ 31)
    (i : Fin 4096) (buffer : Store) (j : Fin ndirect) (node : Store) :
    ∃ rc next, fsiWrite ((i : ℕ) : ℤ) buffer ((j : ℕ) : ℤ) node server = some (rc, next) ∧
      Flat next := by
  by_cases hlive : server.inodes i = -1
  · unfold LFS.fsiWrite
    rw [bind_run (getInode_unallocated node hlive)]
    exact ⟨-1, server, rfl, h⟩
  · have hnode := h.laid.inodeIs hlive
    by_cases hfile : (server.inodeRecord i).type = lfsRegularFile
    · exact ⟨0, _, fsiWrite_run hnode h.laid.running.full hfile buffer j node,
        h.appendedBlock hlive hfile hroom buffer j⟩
    · unfold LFS.fsiWrite
      rw [bind_run (getInode_run node hnode)]
      dsimp only
      rw [if_neg (by decide), if_pos hfile]
      exact ⟨-1, _, rfl, h.seek _⟩

/-! ## Whole runs -/

/-- A call that keeps directories in their first block, with room left in the file. -/
def Call.KeepsFlat (server : Server) : Call → Prop
  | .creat pinum _ name frame =>
    server.cr.endPos.toNat + 12608 < 2 ^ 31 ∧ CreatKeepsFlat server pinum name frame
  | .write _ _ _ _ => server.cr.endPos.toNat + 4224 < 2 ^ 31
  | .unlink pinum name frame =>
    server.cr.endPos.toNat + 4224 < 2 ^ 31 ∧ UnlinkKeepsFlat server pinum name frame

theorem Flat.step (h : Flat server) {call : Call} (hkeeps : call.KeepsFlat server) :
    ∃ next, call.step server = some next ∧ Flat next := by
  have hdone : (∃ rc next, call.exec server = some (rc, next) ∧ Flat next) →
      ∃ next, call.step server = some next ∧ Flat next := by
    rintro ⟨rc, next, hexec, hnext⟩
    exact ⟨next, by rw [Call.step, hexec, Option.map_some], hnext⟩
  apply hdone
  cases call with
  | creat pinum type name frame => exact h.fsiCreat hkeeps.1 hkeeps.2 type
  | write inum buffer block node => exact h.fsiWrite hkeeps inum buffer block node
  | unlink pinum name frame =>
    obtain ⟨rc, next, hrun, hremoved⟩ := h.fsiUnlink hkeeps.1 hkeeps.2
    exact ⟨rc, next, hrun, hremoved.flat⟩

theorem start_flat (hfull : AllFull server) (dirBlock : Store) : Flat (server.start dirBlock) := by
  have htree := start_tree hfull dirBlock
  refine ⟨htree.laid, fun dir hdir ↦ ?_⟩
  obtain rfl : dir = 0 := (htree.shows.directory dir).mpr hdir
  have hrecord : (server.start dirBlock).inodeRecord 0 = rootInode :=
    InodeAt.ofBytes_eq (built_rootInode dirBlock _)
  rw [hrecord]
  decide

/-- Every run of such calls on a new image ends, and keeps directories in their first block. -/
theorem flat_of_run (hfull : AllFull server) (dirBlock : Store) {calls : List Call}
    (hcalls : Guarded Call.step (fun state call ↦ call.KeepsFlat state) (server.start dirBlock)
      calls) :
    ∃ final, run Call.step (server.start dirBlock) calls = some final ∧ Flat final :=
  hcalls.run_invariant (fun _ _ hstate hcall ↦ hstate.step hcall) (start_flat hfull dirBlock)

end OS537.LFS
