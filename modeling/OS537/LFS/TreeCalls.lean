import OS537.LFS.TreeSteps

/-!
# Calls that keep the directory tree

`fsi_creat` and `fsi_unlink` on a server whose directories form a tree, with the conditions on a
call under which the tree survives it.
-/

namespace OS537.LFS

open Bytes Code Posix Run

variable {server next : Server} {forest : Forest (Fin 4096) CString} {parent child : Fin 4096}
  {slot : ℕ} {name : CString}

/-! ## Searching -/

theorem Laid.seek (h : Laid server) (offset : ℕ) : Laid (server.seek offset) :=
  ⟨h.running.seek offset, h.end_lt, h.below, h.node, h.block, h.one_block⟩

theorem Tree.seek (h : Tree server forest) (offset : ℕ) : Tree (server.seek offset) forest :=
  ⟨h.laid.seek offset, ⟨h.shows.allocated, h.shows.directory, h.shows.target, h.shows.named⟩,
    h.valid⟩

theorem Tree.of_readOnly {α : Type} {code : Fsi α} {value : α} (h : Tree server forest)
    (hcode : ReadOnly code) (hrun : code server = some (value, next)) : Tree next forest := by
  rw [hcode _ _ _ hrun]
  exact h.seek next.offset

theorem Laid.inodeIs (h : Laid server) {i : Fin 4096} (hi : server.inodes i ≠ -1) :
    InodeIs server i (server.inodeRecord i) := by
  have hlog := h.node i hi
  have hend := h.end_lt
  have hhigh := hlog.2
  exact ⟨by omega, hhigh.trans h.running.synced.end_le, rfl⟩

theorem Laid.direct_lt (h : Laid server) {dir : Fin 4096} (hdir : IsDirectory server dir) :
    ((server.inodeRecord dir).direct 0).toNat < 2 ^ 31 := by
  have hhigh := (h.block dir hdir).2
  have hend := h.end_lt
  omega

theorem Laid.blockAt (h : Laid server) {dir : Fin 4096} (hdir : IsDirectory server dir) :
    BlockAt server.image ((server.inodeRecord dir).direct 0).toNat (server.dirBlock dir 0) :=
  ⟨(h.block dir hdir).2.trans h.running.synced.end_le, fun _ _ ↦ rfl⟩

/-- The first block of a directory, from any file offset. -/
theorem Laid.getBlock_first (h : Laid server) {dir : Fin 4096}
    (hdir : IsDirectory server dir) (buffer : Store) (offset : ℕ) :
    ∃ read, getBlock (server.inodeRecord dir) buffer (0 : ℕ) (server.seek offset) =
        some (((lfsBlockSize : ℤ), read),
          server.seek (((server.inodeRecord dir).direct 0).toNat + lfsBlockSize)) ∧
      AgreeOn read (server.dirBlock dir 0) 0 lfsBlockSize :=
  getBlock_run buffer (h.direct_lt hdir) ((h.seek offset).blockAt hdir)

/-- The inode of an allocated number, from any file offset. -/
theorem Laid.getInode_seek (h : Laid server) {i : Fin 4096} (hi : server.inodes i ≠ -1)
    (buffer : Store) (offset : ℕ) :
    getInode ((i : ℕ) : ℤ) buffer (server.seek offset) =
      some (((inodeSize : ℤ), server.inodeRecord i),
        server.seek ((server.inodes i).toNat + inodeSize)) :=
  getInode_run buffer ((h.inodeIs hi).seek offset)

/-- `fsi_lookup` does not depend on where the file offset stands. -/
theorem fsiLookup_seek {node : Inode} (hnode : InodeIs server parent node) (name : CString)
    (frame : LookupFrame) (offset : ℕ) :
    fsiLookup ((parent : ℕ) : ℤ) name frame (server.seek offset) =
      fsiLookup ((parent : ℕ) : ℤ) name frame server := by
  unfold fsiLookup
  rw [bind_run (getInode_run frame.node (hnode.seek offset)),
    bind_run (getInode_run frame.node hnode)]
  rfl

/-- The name of an entry is first met at the entry. -/
theorem Tree.first_named (h : Tree server forest)
    (hnames : forest.Names dirEntries parent slot child) (hname : forest.named parent slot name) :
    Scan.first (entryNamed (server.dirBlock parent 0) name) dirEntries = some slot := by
  have hdir := (h.shows.directory parent).mp hnames.directory
  have hentry := (h.shows.named parent hdir slot hnames.high name).mp hname
  rw [Scan.first_eq_some_iff]
  refine ⟨hnames.high, hentry.2, fun before hbefore ↦ ?_⟩
  have hnot := h.valid.first parent slot child name hnames hname before hbefore
  rw [h.shows.named parent hdir before (hbefore.trans hnames.high)] at hnot
  exact Bool.eq_false_iff.mpr fun htrue ↦ hnot ⟨hentry.1, htrue⟩

/-- `fsi_lookup` of a name that stands in the parent's own block. -/
theorem Tree.fsiLookup_present (h : Tree server forest) (hdir : IsDirectory server parent)
    (hname : name.Fits)
    (hslot : Scan.first (entryNamed (server.dirBlock parent 0) name) dirEntries = some slot)
    (frame : LookupFrame) :
    fsiLookup ((parent : ℕ) : ℤ) name frame server =
      some ((encodeTarget (forest.target parent slot)).toInt,
        server.seek (((server.inodeRecord parent).direct 0).toNat + lfsBlockSize)) := by
  have hlt : slot < dirEntries := (Scan.first_eq_some_iff.mp hslot).1
  rw [← h.shows.target parent hdir slot hlt]
  exact fsiLookup_first_block frame (h.laid.inodeIs hdir.1) hdir.2 (h.laid.direct_lt hdir)
    (h.laid.blockAt hdir) hname hslot

/-! ## A place for a new object -/

/-- The first free slot of a block that has one. -/
theorem exists_first_free {dirBlock : Store}
    (h : ∃ slot < dirEntries, entryInum dirBlock slot = -1) :
    ∃ slot, Scan.first (fun i ↦ entryInum dirBlock i = -1) dirEntries = some slot := by
  obtain ⟨slot, hlt, hfree⟩ := h
  let free : ℕ → Bool := fun i ↦ entryInum dirBlock i = -1
  have hhit : free slot = true := decide_eq_true hfree
  obtain ⟨first, hfirst, -⟩ := Scan.exists_first_of_hit hlt hhit
  exact ⟨first, hfirst⟩

/-- A directory has a free slot, since it has more slots than there are inodes. -/
theorem Tree.first_free (h : Tree server forest) (hdir : IsDirectory server parent) :
    ∃ slot, Scan.first (fun i ↦ entryInum (server.dirBlock parent 0) i = -1) dirEntries =
      some slot := by
  have hbound (i : Fin 4096) (hi : forest.allocated i) : (i : ℕ) < 16 :=
    h.laid.below i ((h.shows.allocated i).mp hi)
  obtain ⟨slot, -, hlt, hfree⟩ := h.valid.exists_free Fin.val_injective hbound (by decide)
    ((h.shows.directory parent).mpr hdir)
  have hhit : entryInum (server.dirBlock parent 0) slot = -1 := by
    rw [h.shows.target parent hdir slot hlt]
    exact encodeTarget_eq_neg_one.mpr hfree
  exact exists_first_free ⟨slot, hlt, hhit⟩

/-- A name that `fsi_lookup` does not find, in the first free slot of its directory. -/
theorem Tree.place (h : Tree server forest) (hdir : IsDirectory server parent) (hname : name.Fits)
    (hdot : name ≠ dot) (hdotDot : name ≠ dotDot) {frame : LookupFrame} {rc : ℤ}
    (hlookup : fsiLookup ((parent : ℕ) : ℤ) name frame server = some (rc, next)) (hrc : ¬ rc > 0)
    (hfresh : server.inodes child = -1)
    (hslot : Scan.first (fun i ↦ entryInum (server.dirBlock parent 0) i = -1) dirEntries =
      some slot) :
    forest.Place dot dotDot dirEntries parent slot name child := by
  have hdirectory := (h.shows.directory parent).mpr hdir
  have hself := h.valid.self_entry parent hdirectory
  obtain ⟨hparent, above, habove, -⟩ := h.valid.parent_entry parent hdirectory
  obtain ⟨hlt, hhit, hbefore⟩ := Scan.first_eq_some_iff.mp hslot
  have hfree : forest.target parent slot = none := by
    rw [decide_eq_true_iff, h.shows.target parent hdir slot hlt] at hhit
    exact encodeTarget_eq_neg_one.mp hhit
  constructor
  case directory => exact hdirectory
  case fresh =>
    rw [h.shows.allocated, not_not]
    exact hfresh
  case low =>
    by_contra hlow
    rcases Nat.lt_or_ge slot 1 with hzero | hone
    · have heq : slot = 0 := by omega
      rw [heq, hself.2] at hfree
      cases hfree
    · have heq : slot = 1 := by omega
      rw [heq, habove] at hfree
      cases hfree
  case high => exact hlt
  case free => exact hfree
  case used =>
    intro before hlt'
    have hused := hbefore before hlt'
    rw [decide_eq_false_iff_not, h.shows.target parent hdir before (hlt'.trans hlt)] at hused
    exact mt encodeTarget_eq_neg_one.mpr hused
  case unused_name =>
    intro other hother hlive hnamed
    obtain ⟨i, hi⟩ := Option.ne_none_iff_exists'.mp hlive
    match other, hother with
    | 0, _ => exact hdot (h.valid.name_unique _ _ _ _ hdirectory hnamed hself.1)
    | 1, _ => exact hdotDot (h.valid.name_unique _ _ _ _ hdirectory hnamed hparent)
    | other + 2, hother =>
      have hnames : forest.Names dirEntries parent (other + 2) i :=
        ⟨hdirectory, by omega, hother, hi⟩
      have hfound := h.fsiLookup_present hdir hname (h.first_named hnames hnamed) frame
      have hroot := (h.valid.entry _ _ _ hnames).1
      rw [hlookup, hi] at hfound
      cases hfound
      apply hrc
      rw [encodeTarget, toInt_ofNat_fin]
      have hpos : (i : ℕ) ≠ 0 := fun hzero ↦ hroot (Fin.ext hzero)
      omega
  case name_ne_self => exact hdot
  case name_ne_parent => exact hdotDot

/-! ## Creating -/

theorem createdParent_type (pnode : Inode) (block : Fin ndirect) (pos : Word) :
    (createdParent pnode block pos).type = pnode.type := by
  unfold createdParent
  split <;> rfl

theorem createdParent_direct (pnode : Inode) (block : Fin ndirect) (pos : Word) :
    (createdParent pnode block pos).direct = Function.update pnode.direct block pos := by
  unfold createdParent
  split <;> rfl

theorem newDirectory_direct (block : Fin ndirect) (pos : Word) :
    (newDirectory block pos).direct = Function.update (fun _ ↦ -1) block pos :=
  rfl

/-- The records of the parent, when its block and its inode have been appended. -/
theorem appendedEntry_records (server : Server) (parent : Fin 4096) (plan : CreatPlan) :
    BlockAt (server.appendedEntry parent plan).image server.cr.endPos.toNat plan.dirBlock ∧
      InodeAt (server.appendedEntry parent plan).image (server.cr.endPos.toNat + 4096)
        (createdParent plan.pnode plan.foundBlock server.cr.endPos) := by
  let sought := server.seek server.cr.endPos.toNat
  have hblock : BlockAt (sought.wrote lfsBlockSize plan.dirBlock).image server.cr.endPos.toNat
      plan.dirBlock := holds_wrote lfsBlockSize plan.dirBlock
  have hlisted : BlockAt ((sought.wrote lfsBlockSize plan.dirBlock).putInode parent
      (server.cr.endPos + 4096)).image server.cr.endPos.toNat plan.dirBlock := hblock
  exact ⟨holds_wrote_of_holds hlisted le_rfl inodeSize _, holds_wrote inodeSize _⟩

/-- The end of a creation, from a server that has appended what comes before the child's inode. -/
theorem created_of_records {middle : Server} {pos : Word} {childNode : Inode} {type : Word}
    {found junkBlock : Store} {pnode : Inode} (hlaid : Laid server)
    (hroom : server.cr.endPos.toNat + 8384 < 2 ^ 31) (hdir : pnode.type = lfsDirectory)
    (hone : ∀ j, j ≠ 0 → pnode.direct j = -1)
    (hlog : Logging server middle pos)
    (hcr : middle.cr = server.cr)
    (hinodes : middle.inodes = Function.update server.inodes parent (server.cr.endPos + 4096))
    (hpos : pos.toNat ≤ server.cr.endPos.toNat + 8256)
    (hlow : server.cr.endPos.toNat + 4160 ≤ pos.toNat)
    (hother : ∀ i, chunkOf i ≠ chunkOf child → middle.inodes i = server.inodes i)
    (hne : parent ≠ child) (htype : childNode.type = type)
    (hblock : BlockAt middle.image server.cr.endPos.toNat
      (setEntry found slot name (BitVec.ofNat 32 child)))
    (hnode : InodeAt middle.image (server.cr.endPos.toNat + 4096)
      (createdParent pnode 0 server.cr.endPos))
    (hchild : type = lfsDirectory → (∀ j, j ≠ 0 → childNode.direct j = -1) ∧
      crSize ≤ (childNode.direct 0).toNat ∧ (childNode.direct 0).toNat + lfsBlockSize ≤ pos.toNat ∧
      BlockAt middle.image (childNode.direct 0).toNat
        (childBlock junkBlock (BitVec.ofNat 32 child) (BitVec.ofNat 32 parent))) :
    Created ((middle.appendedChild child childNode pos).committed child (pos + 64)) server parent
      child slot name type found junkBlock := by
  let last := middle.appendedChild child childNode pos
  let final := last.committed child (pos + 64)
  have hsizes := record_sizes
  have hcrSize := hlaid.running.synced.crSize_le
  have hpos64 : (pos + 64).toNat = pos.toNat + 64 := toNat_after_record _ (by omega)
  have hpos128 : (pos + 64 + 64).toNat = pos.toNat + 128 := by
    rw [toNat_after_record _ (by omega), hpos64]
  have hparentPos : (server.cr.endPos + 4096).toNat = server.cr.endPos.toNat + 4096 :=
    toNat_after_block _ (by omega)
  have hlast : Logging server last (pos + 64) := (hlog.putInode child pos).wrote_inode _ (by omega)
  have hend : final.cr.endPos.toNat = pos.toNat + 128 := hpos128
  have hfinalParent : final.inodes parent = server.cr.endPos + 4096 := by
    change Function.update middle.inodes child pos parent = _
    rw [Function.update_of_ne hne, hinodes, Function.update_self]
  have hfinalChild : final.inodes child = pos := Function.update_self _ _ _
  -- Records of the middle state stay, and the child's inode is behind them.
  have hkeep {place n : ℕ} {source : Store} (hrecord : middle.image.Holds place n source)
      (hplace : crSize ≤ place) (hfits : place + n ≤ pos.toNat) :
      final.image.Holds place n source := by
    have hlisted : (middle.putInode child pos).image.Holds place n source := hrecord
    apply holds_committed _ hplace
    · rw [hlast.offset_eq, hpos64]
      omega
    · apply holds_wrote_of_holds hlisted
      exact hfits.trans hlog.offset_eq.ge
  have hchildNode : InodeAt final.image pos.toNat childNode := by
    have hwrote : InodeAt last.image pos.toNat childNode := by
      rw [← hlog.offset_eq]
      exact holds_wrote inodeSize _
    apply holds_committed hwrote (by omega)
    rw [hlast.offset_eq, hpos64]
  constructor
  case running =>
    exact creatChild_running hlaid.running hlog hcr child childNode (by omega) hother
  case end_lt =>
    rw [hend]
    omega
  case end_le =>
    rw [hend]
    omega
  case extend =>
    refine ⟨?_, ?_⟩
    · have hcommitted := committed_log hlast child
      exact (hcommitted.mono le_rfl (by omega)).trans (hlast.log.mono (Nat.zero_le _) le_rfl)
    · rw [hend]
      omega
  case other =>
    intro i hi hi'
    change Function.update middle.inodes child pos i = _
    rw [Function.update_of_ne hi', hinodes, Function.update_of_ne hi]
  case parent_entry =>
    have hdirect : (createdParent pnode 0 server.cr.endPos).direct 0 =
        server.cr.endPos := by
      rw [createdParent_direct, Function.update_self]
    apply DirectoryIs.of_records (createdParent pnode 0 server.cr.endPos)
    · rw [hfinalParent, hparentPos]
      exact hkeep hnode (by omega) (by omega)
    · rw [hfinalParent]
      exact ⟨by omega, by rw [hend, hparentPos]; omega⟩
    · rw [hend]
      omega
    · rw [createdParent_type, hdir]
    · intro j hj
      rw [createdParent_direct, Function.update_of_ne hj]
      exact hone j hj
    · rw [hdirect]
      exact hkeep hblock hcrSize (by omega)
    · rw [hdirect]
      exact ⟨hcrSize, by rw [hend]; omega⟩
  case child_node =>
    rw [hfinalChild]
    exact ⟨by omega, by rw [hend]; omega⟩
  case child_type =>
    unfold Server.inodeRecord
    rw [hfinalChild, hchildNode.ofBytes_eq, htype]
  case child_directory =>
    intro hdirectory
    obtain ⟨hdirect, hstart, hfits, hchildBlock⟩ := hchild hdirectory
    apply DirectoryIs.of_records childNode
    · rwa [hfinalChild]
    · rw [hfinalChild]
      exact ⟨by omega, by rw [hend]; omega⟩
    · rw [hend]
      omega
    · rw [htype, hdirectory]
    · exact hdirect
    · exact hkeep hchildBlock hstart hfits
    · exact ⟨hstart, by rw [hend]; omega⟩

/-- `fsi_creat` from its first write on: it records the parent as `pnode` has it, with its first
block as it was read. -/
theorem creatCommit_created (hlaid : Laid server)
    (hroom : server.cr.endPos.toNat + 8384 < 2 ^ 31) {pnode : Inode}
    (hdir : pnode.type = lfsDirectory) (hone : ∀ j, j ≠ 0 → pnode.direct j = -1)
    (hne : parent ≠ child) (hchunk : chunkOf parent = chunkOf child) (slot : ℕ) (name : CString)
    (type : Word) (found junkBlock : Store) :
    ∃ next, creatCommit ((parent : ℕ) : ℤ) type junkBlock
        ⟨pnode, child, setEntry found slot name (BitVec.ofNat 32 child), 0⟩
        server = some (0, next) ∧
      Created next server parent child slot name type found junkBlock := by
  let plan : CreatPlan :=
    ⟨pnode, child, setEntry found slot name (BitVec.ofNat 32 child), 0⟩
  have hrunning := hlaid.running
  have hsizes := record_sizes
  have hcrSize := hrunning.synced.crSize_le
  have hpos : (server.cr.endPos + 4096 + 64).toNat = server.cr.endPos.toNat + 4160 :=
    toNat_after_inode _ (by omega)
  have hlog : Logging server (server.appendedEntry parent plan) (server.cr.endPos + 4096 + 64) :=
    appendedEntry_logging hrunning parent plan (by omega)
  have hoffset := hlog.offset_eq.trans hpos
  obtain ⟨hblock, hnode⟩ := appendedEntry_records server parent plan
  have hother (i : Fin 4096) (hi : chunkOf i ≠ chunkOf child) :
      (server.appendedEntry parent plan).inodes i = server.inodes i := by
    apply update_of_chunk_ne
    rwa [hchunk]
  rw [creatCommit_run hrunning.full parent type junkBlock plan hchunk]
  by_cases htype : type = lfsDirectory
  · have hpinum : BitVec.ofInt 32 ((parent : ℕ) : ℤ) = BitVec.ofNat 32 (parent : ℕ) :=
      BitVec.ofInt_natCast 32 parent
    have hposBlock : (server.cr.endPos + 4096 + 64 + 4096).toNat =
        server.cr.endPos.toNat + 8256 := by
      rw [toNat_after_block _ (by omega), hpos]
    have hlogBlock := hlog.wrote_block
      (childBlock junkBlock (BitVec.ofNat 32 child) (BitVec.ofNat 32 parent)) (by omega)
    rw [if_pos htype, hpinum, creatChild_run hlogBlock.full]
    refine ⟨_, rfl, ?_⟩
    apply created_of_records hlaid hroom hdir hone hlogBlock rfl rfl hposBlock.le (by omega) hother
      hne htype.symm
    · exact holds_wrote_of_holds hblock (by omega) _ _
    · exact holds_wrote_of_holds hnode (by omega) _ _
    · intro _
      have hdirect : (newDirectory 0 (server.cr.endPos + 4096 + 64)).direct 0 =
          server.cr.endPos + 4096 + 64 := by
        rw [newDirectory_direct, Function.update_self]
      refine ⟨fun j hj ↦ Function.update_of_ne hj _ _, ?_, ?_, ?_⟩
      · rw [hdirect, hpos]
        omega
      · rw [hdirect, hpos, hposBlock]
        omega
      · rw [hdirect, ← hlog.offset_eq]
        exact holds_wrote lfsBlockSize _
  · rw [if_neg htype, creatChild_run hlog.full]
    refine ⟨_, rfl, ?_⟩
    exact created_of_records hlaid hroom hdir hone hlog rfl rfl (by omega) (by omega) hother hne
      rfl hblock hnode fun hdirectory ↦ absurd hdirectory htype

/-- A call of `fsi_creat` that keeps the tree: the parent is a directory, the name fits, is none of
the two special names and is not found; the first free inode is in the parent's chunk; and the
stack under a new directory's block has free slots. -/
structure CreatKeepsTree (server : Server) (parent : Fin 4096) (type : Word) (name : CString)
    (frame : CreatFrame) : Prop where
  directory : IsDirectory server parent
  fits : name.Fits
  not_dot : name ≠ dot
  not_dotDot : name ≠ dotDot
  absent : ∀ rc next, fsiLookup ((parent : ℕ) : ℤ) name frame.lookup server = some (rc, next) →
    rc ≤ 0
  below : ∀ inum, Scan.first (inodeFree server.inodes) 4096 = some inum → inum < imapChunkSize
  junk : type = lfsDirectory → ∀ slot, 2 ≤ slot → slot < dirEntries →
    entryInum frame.childDirBlock slot = -1

theorem chunkOf_eq_of_lt {i j : Fin 4096} (hi : (i : ℕ) < imapChunkSize)
    (hj : (j : ℕ) < imapChunkSize) : chunkOf i = chunkOf j := by
  apply Fin.ext
  change (i : ℕ) / imapChunkSize = j / imapChunkSize
  rw [Nat.div_eq_of_lt hi, Nat.div_eq_of_lt hj]

theorem inodeFree_first {inodes : InodeMap}
    (h : Scan.first (inodeFree inodes) 4096 = some (child : ℕ)) : inodes child = -1 := by
  obtain ⟨hlt, hfree, -⟩ := Scan.first_eq_some_iff.mp h
  rwa [inodeFree, dif_pos hlt, decide_eq_true_iff] at hfree

/-- Without a free inode `fsi_creat` returns before it writes. -/
theorem fsiCreat_no_inode {pinum : ℤ} (type : Word) {frame : CreatFrame} {pnode : Inode}
    {present : ℤ} (hprobe : creatProbe pinum name frame server = some (some (pnode, present), next))
    (hpresent : ¬ present > 0) (hinum : Scan.first (inodeFree next.inodes) 4096 = none) :
    fsiCreat pinum type name frame server = some (-1, next) := by
  apply fsiCreat_eq_refused type hprobe hpresent
  unfold creatPlace
  rw [bind_run get_run, hinum]
  rfl

/-- `fsi_creat` of a name that `fsi_lookup` does not find, when the first block has a free slot. -/
theorem Laid.fsiCreat_absent (h : Laid server) (hdir : IsDirectory server parent)
    (hname : name.Fits) {frame : CreatFrame}
    (habsent : ∀ rc next, fsiLookup ((parent : ℕ) : ℤ) name frame.lookup server = some (rc, next) →
      rc ≤ 0)
    (hinum : Scan.first (inodeFree server.inodes) 4096 = some (child : ℕ))
    (hslot : Scan.first (fun i ↦ entryInum (server.dirBlock parent 0) i = -1) dirEntries =
      some slot) (type : Word) :
    ∃ found, AgreeOn found (server.dirBlock parent 0) 0 lfsBlockSize ∧
      fsiCreat ((parent : ℕ) : ℤ) type name frame server =
        creatCommit ((parent : ℕ) : ℤ) type frame.childDirBlock
          ⟨server.inodeRecord parent, child, setEntry found slot name (BitVec.ofNat 32 child), 0⟩
          (server.seek (((server.inodeRecord parent).direct 0).toNat + lfsBlockSize)) := by
  have hnode := h.inodeIs hdir.1
  obtain ⟨rc, probed, hlookup⟩ := total_fsiLookup parent name frame.lookup server
  have hrc : ¬ rc > 0 := not_lt.mpr (habsent rc probed hlookup)
  obtain ⟨offset, rfl⟩ : ∃ offset, probed = server.seek offset :=
    ⟨probed.offset, readOnly_fsiLookup _ _ _ _ _ _ hlookup⟩
  have hprobe : creatProbe ((parent : ℕ) : ℤ) name frame server =
      some (some (server.inodeRecord parent, rc), server.seek offset) := by
    apply creatProbe_run hnode hname
    rw [fsiLookup_seek hnode, hlookup]
  obtain ⟨found, hblock, hfound⟩ := h.getBlock_first hdir frame.dirBlock offset
  have hprobedInum : Scan.first (inodeFree (server.seek offset).inodes) 4096 =
      some (child : ℕ) := hinum
  have hplan := creatPlace_found name hprobedInum hblock (by decide)
    ((first_free_congr hfound).trans hslot)
  exact ⟨found, hfound, fsiCreat_eq_commit type hprobe hrc hplan⟩

/-- `fsi_creat` of a name that is not in use. -/
theorem Tree.fsiCreat_new (h : Tree server forest) (hroom : HasRoom server) (type : Word)
    {frame : CreatFrame} (hsafe : CreatKeepsTree server parent type name frame)
    (hinum : Scan.first (inodeFree server.inodes) 4096 = some (child : ℕ)) :
    ∃ next slot, fsiCreat ((parent : ℕ) : ℤ) type name frame server = some (0, next) ∧
      forest.Place dot dotDot dirEntries parent slot name child ∧
      Tree next (createdForest forest parent child slot name type frame.childDirBlock) ∧
      next.cr.endPos.toNat ≤ server.cr.endPos.toNat + 8384 := by
  have hdir := hsafe.directory
  obtain ⟨rc, probed, hlookup⟩ := total_fsiLookup parent name frame.lookup server
  have hrc : ¬ rc > 0 := not_lt.mpr (hsafe.absent rc probed hlookup)
  have hfresh := inodeFree_first hinum
  have hchild := hsafe.below _ hinum
  have hne : parent ≠ child := fun heq ↦ hdir.1 (heq ▸ hfresh)
  have hchunk := chunkOf_eq_of_lt (h.laid.below parent hdir.1) hchild
  obtain ⟨slot, hslot⟩ := h.first_free hdir
  have hplace := h.place hdir hsafe.fits hsafe.not_dot hsafe.not_dotDot hlookup hrc hfresh hslot
  obtain ⟨found, hfound, hcreat⟩ :=
    h.laid.fsiCreat_absent hdir hsafe.fits hsafe.absent hinum hslot type
  have hsought := h.seek (((server.inodeRecord parent).direct 0).toNat + lfsBlockSize)
  have hspace : server.cr.endPos.toNat + 8384 < 2 ^ 31 := by
    unfold HasRoom at hroom
    omega
  obtain ⟨next, hcommit, hcreated⟩ := creatCommit_created hsought.laid hspace hdir.2
    (h.laid.one_block parent hdir) hne hchunk slot name type found frame.childDirBlock
  refine ⟨next, slot, ?_, hplace, ?_, hcreated.end_le⟩
  · rw [hcreat]
    exact hcommit
  · exact hsought.create hcreated hfound hplace hsafe.fits hchild hsafe.junk

theorem fsiCreat_tree (h : Tree server forest) (hroom : HasRoom server) (type : Word)
    {frame : CreatFrame} (hsafe : CreatKeepsTree server parent type name frame) :
    ∃ rc next forest', fsiCreat ((parent : ℕ) : ℤ) type name frame server = some (rc, next) ∧
      Tree next forest' := by
  cases hinum : Scan.first (inodeFree server.inodes) 4096 with
  | none =>
    have hnode := h.laid.inodeIs hsafe.directory.1
    obtain ⟨rc, probed, hlookup⟩ := total_fsiLookup parent name frame.lookup server
    have hrc : ¬ rc > 0 := not_lt.mpr (hsafe.absent rc probed hlookup)
    have hprobe : creatProbe ((parent : ℕ) : ℤ) name frame server =
        some (some (server.inodeRecord parent, rc), probed) := by
      apply creatProbe_run hnode hsafe.fits
      rw [fsiLookup_seek hnode, hlookup]
    have hinodes : probed.inodes = server.inodes := by
      rw [readOnly_fsiLookup _ _ _ _ _ _ hlookup]
    rw [← hinodes] at hinum
    exact ⟨-1, probed, forest, fsiCreat_no_inode type hprobe hrc hinum,
      h.of_readOnly (readOnly_fsiLookup _ _ _) hlookup⟩
  | some inum =>
    obtain ⟨child, rfl⟩ : ∃ child : Fin 4096, (child : ℕ) = inum :=
      ⟨⟨inum, (Scan.first_eq_some_iff.mp hinum).1⟩, rfl⟩
    obtain ⟨next, slot, hcreat, -, htree, -⟩ := h.fsiCreat_new hroom type hsafe hinum
    exact ⟨0, next, _, hcreat, htree⟩

/-! ## Removing -/

/-- The records of the parent, when `fsi_unlink` has appended its block and its inode. -/
theorem appendedParent_records (server : Server) (parent : Fin 4096) (plan : UnlinkPlan)
    (block : Fin ndirect) (slot : ℕ) :
    BlockAt (server.appendedParent parent plan block slot).image server.cr.endPos.toNat
        plan.dirBlock ∧
      InodeAt (server.appendedParent parent plan block slot).image
        (server.cr.endPos.toNat + 4096)
        (unlinkedParent plan.pnode block slot server.cr.endPos) := by
  let sought := server.seek server.cr.endPos.toNat
  have hblock : BlockAt (sought.wrote lfsBlockSize plan.dirBlock).image server.cr.endPos.toNat
      plan.dirBlock := holds_wrote lfsBlockSize plan.dirBlock
  exact ⟨holds_wrote_of_holds hblock le_rfl inodeSize _, holds_wrote inodeSize _⟩

/-- `fsi_unlink` from its first write on, with the entry in the first block of the parent. -/
theorem unlinkCommit_removed (hlaid : Laid server)
    (hroom : server.cr.endPos.toNat + 4224 < 2 ^ 31) (hdir : IsDirectory server parent)
    (hne : parent ≠ child)
    (hchunk : chunkOf parent = chunkOf child) {found : Store} (hslot : slot ≠ 0)
    (hfound : AgreeOn found (server.dirBlock parent 0) 0 lfsBlockSize) :
    ∃ next, unlinkCommit ((parent : ℕ) : ℤ)
        ⟨server.inodeRecord parent, child, setEntryInum found slot (-1), some (0, slot)⟩ server =
          some (0, next) ∧
      Removed next server parent child slot := by
  let plan : UnlinkPlan :=
    ⟨server.inodeRecord parent, child, setEntryInum found slot (-1), some (0, slot)⟩
  have hrunning := hlaid.running
  have hsizes := record_sizes
  have hcrSize := hrunning.synced.crSize_le
  have hpos : (server.cr.endPos + 4096 + 64).toNat = server.cr.endPos.toNat + 4160 :=
    toNat_after_inode _ (by omega)
  have hlog := appendedParent_logging hrunning parent plan 0 slot (by omega)
  have hoffset := hlog.offset_eq.trans hpos
  obtain ⟨hblock, hnode⟩ := appendedParent_records server parent plan 0 slot
  let final := (server.appendedParent parent plan 0 slot).committed child
    (server.cr.endPos + 4096 + 64)
  have hend : final.cr.endPos.toNat = server.cr.endPos.toNat + 4224 := by
    change (server.cr.endPos + 4096 + 64 + 64).toNat = _
    rw [toNat_after_record _ (by omega), hpos]
  have hinodes : final.inodes = Function.update
      (Function.update server.inodes parent (server.cr.endPos + 4096)) child (-1) := rfl
  have hparent : final.inodes parent = server.cr.endPos + 4096 := by
    rw [hinodes, Function.update_of_ne hne, Function.update_self]
  have hparentPos : (server.cr.endPos + 4096).toNat = server.cr.endPos.toNat + 4096 :=
    toNat_after_block _ (by omega)
  refine ⟨final, unlinkCommit_run hrunning.full parent plan 0 slot rfl hchunk (by omega), ?_⟩
  constructor
  case running => exact unlinkCommit_running hrunning parent plan 0 slot hchunk (by omega)
  case end_lt =>
    rw [hend]
    omega
  case end_le => exact hend.le
  case extend =>
    refine ⟨?_, ?_⟩
    · have hcommitted := committed_log hlog child
      exact (hcommitted.mono le_rfl (by omega)).trans (hlog.log.mono (Nat.zero_le _) le_rfl)
    · rw [hend]
      omega
  case other =>
    intro i hi hi'
    rw [hinodes, Function.update_of_ne hi', Function.update_of_ne hi]
  case parent_entry =>
    refine ⟨found, hfound, ?_⟩
    have hdirect : (unlinkedParent (server.inodeRecord parent) 0 slot server.cr.endPos).direct =
        Function.update (server.inodeRecord parent).direct 0 server.cr.endPos := by
      unfold unlinkedParent
      rw [if_neg hslot]
      rfl
    apply DirectoryIs.of_records (unlinkedParent (server.inodeRecord parent) 0 slot
      server.cr.endPos)
    · rw [hparent, hparentPos]
      exact holds_committed hnode (by omega) (by omega) _ _
    · rw [hparent]
      exact ⟨by omega, by rw [hend, hparentPos]; omega⟩
    · rw [hend]
      omega
    · exact hdir.2
    · intro j hj
      rw [hdirect, Function.update_of_ne hj]
      exact hlaid.one_block parent hdir j hj
    · rw [hdirect, Function.update_self]
      exact holds_committed hblock hcrSize (by omega) _ _
    · rw [hdirect, Function.update_self]
      exact ⟨hcrSize, by rw [hend]; omega⟩
  case child => rw [hinodes, Function.update_self]

/-- A call of `fsi_unlink` that keeps the tree: the parent is a directory, the name fits and is
none of the two special names, and if it is found at all it stands in the parent's own block. -/
structure UnlinkKeepsTree (server : Server) (parent : Fin 4096) (name : CString)
    (frame : UnlinkFrame) : Prop where
  directory : IsDirectory server parent
  fits : name.Fits
  not_dot : name ≠ dot
  not_dotDot : name ≠ dotDot
  own_block : ∀ rc next, fsiLookup ((parent : ℕ) : ℤ) name frame.lookup server = some (rc, next) →
    0 ≤ rc → ∃ slot < dirEntries, entryNamed (server.dirBlock parent 0) name slot = true

theorem fsiUnlink_absent {frame : UnlinkFrame} {rc : ℤ} {node : Inode}
    (hnode : InodeIs server parent node)
    (hlookup : fsiLookup ((parent : ℕ) : ℤ) name frame.lookup server = some (rc, next))
    (hrc : rc < 0) :
    fsiUnlink ((parent : ℕ) : ℤ) name frame server = some (-1, next) := by
  rw [← fsiLookup_seek hnode name frame.lookup ((server.inodes parent).toNat + inodeSize)]
    at hlookup
  have hsearch : unlinkSearch ((parent : ℕ) : ℤ) name frame server = some (.inl (-1), next) := by
    unfold unlinkSearch
    rw [bind_run (getInode_run frame.pnode hnode)]
    dsimp only
    rw [if_neg (by decide), bind_run hlookup, if_pos hrc]
    rfl
  unfold fsiUnlink
  rw [bind_run hsearch]
  rfl

/-- A directory always fails the test for emptiness, since it has a free slot. -/
theorem Tree.onlySelfAndParent_eq_false (h : Tree server forest) (hdir : IsDirectory server child)
    {content : Store} (hcontent : AgreeOn content (server.dirBlock child 0) 0 lfsBlockSize)
    (parent : ℤ) : onlySelfAndParent content ((child : ℕ) : ℤ) parent = false := by
  obtain ⟨slot, hslot⟩ := h.first_free hdir
  rw [← first_free_congr hcontent, Scan.first_eq_some_iff] at hslot
  obtain ⟨hlt, hfree, -⟩ := hslot
  rw [decide_eq_true_iff] at hfree
  have hhit : ∃ first, Scan.first (fun i ↦ (entryInum content i).toInt ≠ ((child : ℕ) : ℤ) ∨
      (entryInum content i).toInt ≠ parent) dirEntries = some first ∧ first ≤ slot := by
    apply Scan.exists_first_of_hit hlt
    rw [decide_eq_true_iff, hfree]
    left
    rw [show (-1 : Word).toInt = -1 by decide]
    omega
  obtain ⟨first, hfirst, -⟩ := hhit
  unfold onlySelfAndParent
  rw [hfirst]
  rfl

/-- `fsi_lookup` finds every entry, from any file offset. -/
theorem Tree.fsiLookup_entry (h : Tree server forest)
    (hnames : forest.Names dirEntries parent slot child) (hnamed : forest.named parent slot name)
    (hname : name.Fits) (frame : LookupFrame) (offset : ℕ) :
    fsiLookup ((parent : ℕ) : ℤ) name frame (server.seek offset) = some (((child : ℕ) : ℤ),
      server.seek (((server.inodeRecord parent).direct 0).toNat + lfsBlockSize)) := by
  have hdir := (h.shows.directory parent).mp hnames.directory
  have hfound := h.fsiLookup_present hdir hname (h.first_named hnames hnamed) frame
  rw [hnames.target, encodeTarget, toInt_ofNat_fin] at hfound
  rw [fsiLookup_seek (h.laid.inodeIs hdir.1), hfound]

theorem Tree.unlinkSearch_directory (h : Tree server forest)
    (hnames : forest.Names dirEntries parent slot child) (hnamed : forest.named parent slot name)
    (hname : name.Fits) (hchild : IsDirectory server child) (frame : UnlinkFrame) :
    ∃ offset, unlinkSearch ((parent : ℕ) : ℤ) name frame server =
      some (.inl (-1), server.seek offset) := by
  have hdir := (h.shows.directory parent).mp hnames.directory
  obtain ⟨content, hread, hcontent⟩ := h.laid.getBlock_first hchild frame.cdirBlocks
    ((server.inodes child).toNat + inodeSize)
  exact unlinkSearch_refused (by decide) (getInode_run frame.pnode (h.laid.inodeIs hdir.1))
    (h.fsiLookup_entry hnames hnamed hname _ _) (Int.natCast_nonneg _)
    (h.laid.getInode_seek hchild.1 frame.cnode _) hchild.2
    fun _ ↦ ⟨_, _, hread, h.onlySelfAndParent_eq_false hchild hcontent _⟩

theorem Tree.unlinkSearch_file (h : Tree server forest)
    (hnames : forest.Names dirEntries parent slot child) (hnamed : forest.named parent slot name)
    (hname : name.Fits) (hchild : ¬ IsDirectory server child) (frame : UnlinkFrame) :
    ∃ found offset, AgreeOn found (server.dirBlock parent 0) 0 lfsBlockSize ∧
      unlinkSearch ((parent : ℕ) : ℤ) name frame server =
        some (.inr ⟨server.inodeRecord parent, child, setEntryInum found slot (-1),
          some (0, slot)⟩, server.seek offset) := by
  have hdir := (h.shows.directory parent).mp hnames.directory
  have hallocated := (h.shows.allocated child).mp (h.valid.entry _ _ _ hnames).2.1
  obtain ⟨found, hblock, hfound⟩ := h.laid.getBlock_first hdir frame.dirBlock
    ((server.inodes child).toNat + inodeSize)
  have hslot : Scan.first (entryNamed found name) dirEntries = some slot :=
    (first_entryNamed_congr hfound hname).trans (h.first_named hnames hnamed)
  refine ⟨found, ((server.inodeRecord parent).direct 0).toNat + lfsBlockSize, hfound, ?_⟩
  unfold unlinkSearch
  rw [bind_run (getInode_run frame.pnode (h.laid.inodeIs hdir.1))]
  dsimp only
  rw [if_neg (by decide), bind_run (h.fsiLookup_entry hnames hnamed hname _ _),
    if_neg (by omega), bind_run (h.laid.getInode_seek hallocated frame.cnode _)]
  dsimp only
  rw [if_neg (fun htype ↦ hchild ⟨hallocated, htype⟩),
    bind_run (unlinkBlocks_found hblock (by decide) hslot)]
  dsimp only
  rw [bind_run (index_natCast_run child)]
  rfl

/-- What `fsi_lookup` finds in the parent's own block is an entry of the forest. -/
theorem Tree.names_of_lookup (h : Tree server forest) (hdir : IsDirectory server parent)
    (hname : name.Fits) (hdot : name ≠ dot) (hdotDot : name ≠ dotDot) {frame : LookupFrame}
    {rc : ℤ} (hlookup : fsiLookup ((parent : ℕ) : ℤ) name frame server = some (rc, next))
    (hrc : 0 ≤ rc) (hslot : slot < dirEntries)
    (hentry : entryNamed (server.dirBlock parent 0) name slot = true) :
    ∃ first child, forest.Names dirEntries parent first child ∧
      forest.named parent first name := by
  have hdirectory := (h.shows.directory parent).mpr hdir
  obtain ⟨first, hfirst, -⟩ := Scan.exists_first_of_hit hslot hentry
  obtain ⟨hlt, hhit, -⟩ := Scan.first_eq_some_iff.mp hfirst
  have hnamed : forest.named parent first name :=
    (h.shows.named parent hdir first hlt name).mpr ⟨hname, hhit⟩
  have hfound := h.fsiLookup_present hdir hname hfirst frame
  rw [hlookup] at hfound
  cases htarget : forest.target parent first with
  | none =>
    rw [htarget] at hfound
    cases hfound
    exact absurd hrc (by decide)
  | some child =>
    refine ⟨first, child, ⟨hdirectory, ?_, hlt, htarget⟩, hnamed⟩
    match first, hnamed with
    | 0, hnamed =>
      have hself := (h.valid.self_entry parent hdirectory).1
      exact absurd (h.valid.name_unique _ _ _ _ hdirectory hnamed hself) hdot
    | 1, hnamed =>
      have hparent := (h.valid.parent_entry parent hdirectory).1
      exact absurd (h.valid.name_unique _ _ _ _ hdirectory hnamed hparent) hdotDot
    | first + 2, _ => exact Nat.le_add_left 2 first

/-- `fsi_unlink` of a regular file removes its entry. -/
theorem Tree.fsiUnlink_file (h : Tree server forest) (hroom : HasRoom server)
    (hnames : forest.Names dirEntries parent slot child) (hnamed : forest.named parent slot name)
    (hname : name.Fits) (hfile : ¬ IsDirectory server child) (frame : UnlinkFrame) :
    ∃ next offset, fsiUnlink ((parent : ℕ) : ℤ) name frame server = some (0, next) ∧
      Removed next (server.seek offset) parent child slot := by
  have hdir := (h.shows.directory parent).mp hnames.directory
  have hallocated := (h.shows.allocated child).mp (h.valid.entry _ _ _ hnames).2.1
  have hne : parent ≠ child := fun heq ↦ hfile (heq ▸ hdir)
  have hchunk := chunkOf_eq_of_lt (h.laid.below parent hdir.1) (h.laid.below child hallocated)
  have hslot : slot ≠ 0 := by
    have hlow := hnames.low
    omega
  obtain ⟨found, offset, hfound, hsearch⟩ := h.unlinkSearch_file hnames hnamed hname hfile frame
  have hspace : server.cr.endPos.toNat + 4224 < 2 ^ 31 := by
    unfold HasRoom at hroom
    omega
  obtain ⟨next, hcommit, hremoved⟩ :=
    unlinkCommit_removed (h.seek offset).laid hspace hdir hne hchunk hslot hfound
  refine ⟨next, offset, ?_, hremoved⟩
  unfold fsiUnlink
  rw [bind_run hsearch]
  exact hcommit

theorem fsiUnlink_tree (h : Tree server forest) (hroom : HasRoom server) {frame : UnlinkFrame}
    (hsafe : UnlinkKeepsTree server parent name frame) :
    ∃ rc next forest', fsiUnlink ((parent : ℕ) : ℤ) name frame server = some (rc, next) ∧
      Tree next forest' := by
  have hdir := hsafe.directory
  obtain ⟨rc, probed, hlookup⟩ := total_fsiLookup parent name frame.lookup server
  rcases lt_or_ge rc 0 with hrc | hrc
  · exact ⟨-1, probed, forest, fsiUnlink_absent (h.laid.inodeIs hdir.1) hlookup hrc,
      h.of_readOnly (readOnly_fsiLookup _ _ _) hlookup⟩
  obtain ⟨found, hlt, hentry⟩ := hsafe.own_block rc probed hlookup hrc
  obtain ⟨slot, child, hnames, hnamed⟩ := h.names_of_lookup hdir hsafe.fits hsafe.not_dot
    hsafe.not_dotDot hlookup hrc hlt hentry
  by_cases hchild : IsDirectory server child
  · obtain ⟨offset, hsearch⟩ := h.unlinkSearch_directory hnames hnamed hsafe.fits hchild frame
    refine ⟨-1, server.seek offset, forest, ?_, h.seek offset⟩
    unfold fsiUnlink
    rw [bind_run hsearch]
    rfl
  · obtain ⟨next, offset, hunlink, hremoved⟩ :=
      h.fsiUnlink_file hroom hnames hnamed hsafe.fits hchild frame
    exact ⟨0, next, _, hunlink, (h.seek offset).remove hremoved hnames hchild⟩

end OS537.LFS
