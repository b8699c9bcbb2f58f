import OS537.LFS.Types

/-!
# Removing a directory

`fsi_unlink` takes a directory for empty if no entry of its first block has a number that differs
from its own or differs from its parent's. All 128 numbers would have to be equal to both, free
slots included, so that no directory but one that is its own parent ever passes; and such a one has
an entry that is neither "." nor "..".
-/

namespace OS537.LFS

open Bytes Code Posix Run

variable {server next : Server} {parent child : Fin 4096} {record childRecord : Inode}
  {name : CString} {frame : UnlinkFrame} {rc : ℤ}

/-- No allocated block of the directory has a live entry besides "." and "..". -/
def EmptyDirectory (server : Server) (dir : Fin 4096) : Prop :=
  ∀ k slot, (server.inodeRecord dir).direct k ≠ -1 → slot < dirEntries →
    entryInum (server.dirBlock dir k) slot ≠ -1 →
      entryNamed (server.dirBlock dir k) dot slot = true ∨
        entryNamed (server.dirBlock dir k) dotDot slot = true

instance (server : Server) (dir : Fin 4096) : Decidable (EmptyDirectory server dir) :=
  decidable_of_iff (∀ k, (server.inodeRecord dir).direct k ≠ -1 → ∀ slot < dirEntries,
    entryInum (server.dirBlock dir k) slot ≠ -1 →
      entryNamed (server.dirBlock dir k) dot slot = true ∨
        entryNamed (server.dirBlock dir k) dotDot slot = true)
    ⟨fun h k slot hk hslot ↦ h k hk slot hslot, fun h k hk slot hslot ↦ h k slot hk hslot⟩

/-- An allocated block of the directory has an entry of this name for this inode. -/
def HasEntry (server : Server) (dir : Fin 4096) (name : CString) (child : Fin 4096) : Prop :=
  ∃ k slot, ((server.inodeRecord dir).direct k).toNat < 2 ^ 31 ∧
    ((server.inodeRecord dir).direct k).toNat + lfsBlockSize ≤ server.image.size ∧
    slot < dirEntries ∧ entryNamed (server.dirBlock dir k) name slot = true ∧
    entryInum (server.dirBlock dir k) slot = BitVec.ofNat 32 child

/-- What is wanted of the removal of a directory that has returned `rc`. -/
structure RemovalLaw (server : Server) (parent child : Fin 4096) (name : CString) (rc : ℤ)
    (next : Server) : Prop where
  empty : EmptyDirectory server child → rc = 0
  occupied : ¬ EmptyDirectory server child → rc = -1 ∧ Unchanged next server
  gone : rc = 0 → next.inodes child = -1 ∧
    ∀ frame, ∃ last, fsiLookup ((parent : ℕ) : ℤ) name frame next = some (-1, last)
  others : rc = 0 → ∀ other : CString, other ≠ name → ∀ frame found last,
    fsiLookup ((parent : ℕ) : ℤ) other frame server = some (found, last) → 0 ≤ found →
      ∃ last', fsiLookup ((parent : ℕ) : ℤ) other frame next = some (found, last')

/-- The removal is defined and meets the law. -/
def RemovesRight (server : Server) (parent child : Fin 4096) (name : CString)
    (frame : UnlinkFrame) : Prop :=
  ∃ rc next, fsiUnlink ((parent : ℕ) : ℤ) name frame server = some (rc, next) ∧
    RemovalLaw server parent child name rc next

/-! ## The test for emptiness -/

/-- The directory's first block, as `fsi_unlink` reads it. -/
def testedBlock (server : Server) (child : Fin 4096) (frame : UnlinkFrame) : Store :=
  delivered server.image (server.inodeRecord child)
    ⟨(server.inodes child).toNat + inodeSize, frame.cdirBlocks⟩ 0

/-- The directory is its own parent, its size is that of one block at most, and all numbers of its
first block are its own. -/
structure SelfOnly (server : Server) (parent child : Fin 4096) (frame : UnlinkFrame) : Prop where
  same : child = parent
  size : (server.inodeRecord child).size.toInt ≤ 4096
  numbers : ∀ slot < dirEntries,
    entryInum (testedBlock server child frame) slot = BitVec.ofNat 32 child

theorem onlySelfAndParent_iff (block : Store) (child parent : Fin 4096) :
    onlySelfAndParent block ((child : ℕ) : ℤ) ((parent : ℕ) : ℤ) = true ↔
      child = parent ∧ ∀ slot < dirEntries, entryInum block slot = BitVec.ofNat 32 child := by
  unfold onlySelfAndParent
  rw [Option.isNone_iff_eq_none, Scan.first_eq_none_iff]
  simp only [decide_eq_false_iff_not, not_or, not_not]
  constructor
  · intro h
    have hfirst := h 0 (by decide)
    refine ⟨Fin.ext (Int.ofNat_inj.mp (hfirst.1.symm.trans hfirst.2)), fun slot hslot ↦ ?_⟩
    apply BitVec.eq_of_toInt_eq
    rw [(h slot hslot).1, toInt_ofNat_fin]
  · rintro ⟨rfl, hnumbers⟩ slot hslot
    rw [hnumbers slot hslot, toInt_ofNat_fin]
    exact ⟨rfl, rfl⟩

/-- The second search finds an entry of the name. -/
theorem HasEntry.unlinkBlocks (h : HasEntry server parent name child) (hname : name.Fits)
    (hnode : InodeIs server parent record) (offset : ℕ) (buffer : Store) :
    ∃ dirBlock found last, unlinkBlocks record name ndirect 0 buffer (server.seek offset) =
      some (some (dirBlock, some found), server.at last) := by
  obtain ⟨k, slot, hpos, hfits, hslot, hnamed, -⟩ := h
  rw [hnode.record] at hpos hfits
  have hblock : BlockAt server.image (record.direct k).toNat (server.dirBlock parent k) := by
    refine ⟨hfits, fun i _ ↦ ?_⟩
    unfold Server.dirBlock
    rw [hnode.record]
  have hdelivered := delivered_allocated ⟨offset, buffer⟩ hpos hblock
  have hthere : entryNamed (delivered server.image record ⟨offset, buffer⟩ k) name slot = true := by
    rw [← hnamed]
    exact entryNamed_congr hname ((AgreeOn.slot hdelivered hslot).mono le_rfl (by omega))
  exact unlinkBlocks_finds ⟨offset, buffer⟩ server (Nat.zero_add ndirect) (Nat.zero_le _) k.isLt
    hslot hthere

/-- An entry that is neither "." nor "..". -/
theorem HasEntry.not_empty (h : HasEntry server parent name child) (hdot : name ≠ dot)
    (hdotDot : name ≠ dotDot) : ¬ EmptyDirectory server parent := by
  obtain ⟨k, slot, hpos, -, hslot, hnamed, hinum⟩ := h
  intro hempty
  have hlive : entryInum (server.dirBlock parent k) slot ≠ -1 := by
    rw [hinum]
    exact ofNat_fin_ne_neg_one child
  rcases hempty k slot (ne_neg_one_of_toNat_lt hpos) hslot hlive with hother | hother
  · exact hdot (strcmpEq_unique hnamed hother)
  · exact hdotDot (strcmpEq_unique hnamed hother)

section Search

variable (hnode : InodeIs server parent record) (hchild : InodeIs server child childRecord)
  (htype : childRecord.type = lfsDirectory) {looked : Server}
  (hlookup : fsiLookup ((parent : ℕ) : ℤ) name frame.lookup server =
    some (((child : ℕ) : ℤ), looked))

include hnode hchild htype hlookup

/-- The test refuses every directory but one with its own number only, and for that one the second
search finds an entry of the name. -/
theorem unlinkSearch_directory (hname : name.Fits) (hentry : HasEntry server parent name child) :
    (¬ SelfOnly server parent child frame → ∃ offset,
      unlinkSearch ((parent : ℕ) : ℤ) name frame server = some (.inl (-1), server.seek offset)) ∧
    (SelfOnly server parent child frame → ∃ dirBlock found offset,
      unlinkSearch ((parent : ℕ) : ℤ) name frame server =
        some (.inr ⟨record, child, dirBlock, some found⟩, server.seek offset)) := by
  let tester : Reader := ⟨(server.inodes child).toNat + inodeSize, frame.cdirBlocks⟩
  have hlooked : looked = server.seek looked.offset := readOnly_fsiLookup _ _ _ _ _ _ hlookup
  have hlookup' : fsiLookup ((parent : ℕ) : ℤ) name frame.lookup
      (server.seek ((server.inodes parent).toNat + inodeSize)) =
        some (((child : ℕ) : ℤ), server.seek looked.offset) := by
    rw [fsiLookup_seek hnode, hlookup, ← hlooked]
  have hread : getInode ((child : ℕ) : ℤ) frame.cnode (server.seek looked.offset) =
      some (((inodeSize : ℤ), childRecord), server.at tester) :=
    getInode_run frame.cnode (hchild.seek looked.offset)
  obtain ⟨count, hdelivers⟩ := getBlock_delivers server childRecord tester 0
  have htested : (tester.read server.image childRecord 0).buffer =
      testedBlock server child frame := by
    unfold testedBlock
    rw [hchild.record]
    exact congrArg Reader.buffer (tester.before_succ server.image childRecord 0).symm
  have hblock : getBlock childRecord frame.cdirBlocks 0 (server.at tester) =
      some (((count : ℤ), testedBlock server child frame),
        server.at (tester.read server.image childRecord 0)) := by
    rw [← htested]
    exact hdelivers
  unfold unlinkSearch
  rw [bind_run (getInode_run frame.pnode hnode)]
  dsimp only
  rw [if_neg (by decide), bind_run hlookup', if_neg (by omega), bind_run hread]
  dsimp only
  rw [if_pos htype]
  by_cases hsize : childRecord.size.toInt > 4096
  · have hnot : ¬ SelfOnly server parent child frame := by
      intro hself
      have hsmall := hself.size
      rw [hchild.record] at hsmall
      omega
    rw [if_pos hsize]
    exact ⟨fun _ ↦ ⟨_, rfl⟩, fun hself ↦ absurd hself hnot⟩
  rw [if_neg hsize, bind_run hblock]
  dsimp only
  cases hpasses : onlySelfAndParent (testedBlock server child frame) ((child : ℕ) : ℤ)
      ((parent : ℕ) : ℤ) with
  | false =>
    have hnot : ¬ SelfOnly server parent child frame := by
      intro hself
      have htrue := (onlySelfAndParent_iff _ _ _).mpr ⟨hself.same, hself.numbers⟩
      exact absurd htrue (Bool.eq_false_iff.mp hpasses)
    exact ⟨fun _ ↦ ⟨_, rfl⟩, fun hself ↦ absurd hself hnot⟩
  | true =>
    obtain ⟨hsame, hnumbers⟩ := (onlySelfAndParent_iff _ _ _).mp hpasses
    have hself : SelfOnly server parent child frame := by
      refine ⟨hsame, ?_, hnumbers⟩
      rw [hchild.record]
      exact not_lt.mp hsize
    refine ⟨fun hnot ↦ absurd hself hnot, fun _ ↦ ?_⟩
    obtain ⟨dirBlock, found, last, hblocks⟩ := hentry.unlinkBlocks hname hnode
      (server.at (tester.read server.image childRecord 0)).offset frame.dirBlock
    have hblocks' : unlinkBlocks record name ndirect 0 frame.dirBlock
        (server.at (tester.read server.image childRecord 0)) =
          some (some (dirBlock, some found), server.at last) := hblocks
    refine ⟨dirBlock, found, last.offset, ?_⟩
    rw [if_neg (by decide), bind_run hblocks']
    dsimp only
    rw [bind_run (index_natCast_run child)]
    rfl

end Search

/-! ## The call -/

/-- The directory is not empty and, if it passes the test, one of the first two writes fails. -/
def RemovedRight (server : Server) (parent child : Fin 4096) (frame : UnlinkFrame) : Prop :=
  ¬ EmptyDirectory server child ∧ (SelfOnly server parent child frame → ¬ Touches server)

theorem removalLaw_refused (hoccupied : ¬ EmptyDirectory server child)
    (hsame : Unchanged next server) : RemovalLaw server parent child name (-1) next where
  empty hempty := absurd hempty hoccupied
  occupied _ := ⟨rfl, hsame⟩
  gone hzero := absurd hzero (by decide)
  others hzero := absurd hzero (by decide)

/-- `fsi_unlink` of a directory meets the law if `RemovedRight` holds and, where the positions of
the inode map lie in the log, only then. -/
theorem unlink_directory_iff (hroom : server.cr.endPos.toNat + 4288 < 2 ^ 31) (hname : name.Fits)
    (hdot : name ≠ dot) (hdotDot : name ≠ dotDot) (hnode : InodeIs server parent record)
    (hchild : InodeIs server child childRecord) (htype : childRecord.type = lfsDirectory)
    {looked : Server} (hlookup : fsiLookup ((parent : ℕ) : ℤ) name frame.lookup server =
      some (((child : ℕ) : ℤ), looked)) (hentry : HasEntry server parent name child) :
    (RemovedRight server parent child frame → RemovesRight server parent child name frame) ∧
      (InBounds server → RemovesRight server parent child name frame →
        RemovedRight server parent child frame) := by
  obtain ⟨hrefused, hplanned⟩ := unlinkSearch_directory hnode hchild htype hlookup hname hentry
  by_cases hself : SelfOnly server parent child frame
  · obtain ⟨dirBlock, found, offset, hsearch⟩ := hplanned hself
    have hoccupied : ¬ EmptyDirectory server child := by
      rw [hself.same]
      exact hentry.not_empty hdot hdotDot
    let plan : UnlinkPlan := ⟨record, child, dirBlock, some found⟩
    have hrun : fsiUnlink ((parent : ℕ) : ℤ) name frame server =
        unlinkCommit ((parent : ℕ) : ℤ) plan (server.seek offset) := by
      unfold fsiUnlink
      rw [bind_run hsearch]
    constructor
    · intro hright
      have hfound : plan.found = some found := rfl
      have huntouched : ¬ Touches (server.seek offset) := hright.2 hself
      have hroom' : (server.seek offset).cr.endPos.toNat < 2 ^ 31 :=
        (Nat.le_add_right _ _).trans_lt hroom
      obtain ⟨next, hnext, hsame⟩ :=
        unlinkCommit_untouched hfound (unlinkSearch_lt hsearch hfound) hroom' huntouched
      exact ⟨-1, next, hrun.trans hnext, removalLaw_refused hoccupied hsame.of_seek⟩
    · rintro hbounds ⟨rc, next, hnext, hlaw⟩
      refine ⟨hoccupied, fun _ htouches ↦ ?_⟩
      have hmoved := (hbounds.fsiUnlink hroom hnext).2.moved ⟨⟨plan, _, hsearch⟩, htouches⟩
      exact hbounds.not_unchanged (ne_neg_one_of_toNat_lt hnode.nonneg) hmoved
        (hlaw.occupied hoccupied).2
  · obtain ⟨offset, hsearch⟩ := hrefused hself
    have hrun : fsiUnlink ((parent : ℕ) : ℤ) name frame server = some (-1, server.seek offset) := by
      unfold fsiUnlink
      rw [bind_run hsearch]
      rfl
    constructor
    · intro hright
      exact ⟨-1, _, hrun, removalLaw_refused hright.1 (Unchanged.of_image rfl rfl rfl)⟩
    · rintro - ⟨rc, next, hnext, hlaw⟩
      cases hrun.symm.trans hnext
      exact ⟨fun hempty ↦ absurd (hlaw.empty hempty) (by decide), fun h ↦ absurd h hself⟩

/-! ## A directory in the root -/

/-- A stack with the names of removed files and numbers -1. -/
def freeNames : Store := fun i ↦ if i % dirEntSize < 28 then fileNames i else 255

/-- An empty directory as inode 1. -/
def createDirectory : Request :=
  .creat 0 lfsDirectory (fileName 2) { junkFrame with childDirBlock := freeNames }

/-- A file in that directory. -/
def createInside : Request := .creat 1 lfsRegularFile (fileName 3) junkFrame

theorem occupied_directory_stays :
    ∃ server, run Request.step (freshServer.start fileNames) [createDirectory, createInside] =
        some server ∧
      RemovesRight server 0 1 (fileName 2) junkFrame.unlink := by
  have hvalues : ((run Request.step (freshServer.start fileNames)
      [createDirectory, createInside]).bind fun server ↦
        (fsiLookup (((0 : Fin 4096) : ℕ) : ℤ) (fileName 2) junkFrame.unlink.lookup server).map
          fun looked ↦ decide (¬ EmptyDirectory server 1 ∧ looked.1 = 1 ∧
            (server.inodeRecord 1).type = lfsDirectory ∧ server.inodes 0 = 9348 ∧
            server.inodes 1 = 17732 ∧ server.image.size = 17924 ∧ server.cr.endPos = 17924 ∧
            (server.inodeRecord 0).direct 0 = 5252 ∧ entryInum (server.dirBlock 0 0) 2 = 1 ∧
            entryNamed (server.dirBlock 0 0) (fileName 2) 2 = true)) = some true := by
    decide +kernel
  obtain ⟨server, hserver, hvalues⟩ := Option.bind_eq_some_iff.mp hvalues
  obtain ⟨⟨found, looked⟩, hlookup, hvalues⟩ := Option.map_eq_some_iff.mp hvalues
  obtain ⟨hoccupied, rfl, htype, hroot, hdir, hsize, hend, hblock, hinum, hnamed⟩ :=
    of_decide_eq_true hvalues
  have hnode : InodeIs server 0 (server.inodeRecord 0) :=
    ⟨by rw [hroot]; decide, by rw [hroot, hsize]; decide, rfl⟩
  have hchild : InodeIs server 1 (server.inodeRecord 1) :=
    ⟨by rw [hdir]; decide, by rw [hdir, hsize]; decide, rfl⟩
  have hentry : HasEntry server 0 (fileName 2) 1 :=
    ⟨0, 2, by rw [hblock]; decide, by rw [hblock, hsize]; decide, by decide, hnamed, hinum⟩
  have hright : RemovedRight server 0 1 junkFrame.unlink :=
    ⟨hoccupied, fun hself ↦ absurd hself.same (by decide)⟩
  have hroom : server.cr.endPos.toNat + 4288 < 2 ^ 31 := by
    rw [hend]
    decide
  exact ⟨server, hserver, (unlink_directory_iff hroom (fileName_fits 2) (fileName_ne_dot 2).1
    (fileName_ne_dot 2).2 hnode hchild htype hlookup hentry).1 hright⟩

/-- An empty directory is not removed. -/
theorem empty_directory_stays :
    ∃ start server next, fsiBuild fileNames freshServer = some ((), start) ∧
      run Request.step start [createDirectory] = some server ∧ EmptyDirectory server 1 ∧
      fsiUnlink 0 (fileName 2) junkFrame.unlink server = some (-1, next) ∧
      ¬ RemovesRight server 0 1 (fileName 2) junkFrame.unlink := by
  have hvalues : ((run Request.step (freshServer.start fileNames) [createDirectory]).bind
      fun server ↦ (fsiUnlink 0 (fileName 2) junkFrame.unlink server).map
        fun result ↦ (decide (EmptyDirectory server 1), result.1)) = some (true, -1) := by
    decide +kernel
  obtain ⟨server, hserver, hvalues⟩ := Option.bind_eq_some_iff.mp hvalues
  obtain ⟨⟨rc, next⟩, hunlink, hvalues⟩ := Option.map_eq_some_iff.mp hvalues
  simp only [Prod.mk.injEq] at hvalues
  obtain ⟨hempty, rfl⟩ := hvalues
  have hbuild : fsiBuild fileNames freshServer = some ((), freshServer.start fileNames) :=
    fsiBuild_run freshServer_full fileNames
  refine ⟨_, server, next, hbuild, hserver, of_decide_eq_true hempty, hunlink, ?_⟩
  rintro ⟨rc', next', hrun, hlaw⟩
  cases hunlink.symm.trans hrun
  exact absurd (hlaw.empty (of_decide_eq_true hempty)) (by decide)

end OS537.LFS
