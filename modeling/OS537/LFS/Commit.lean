import OS537.LFS.Effects

/-!
# The writes of each operation

For each operation of the server that changes the image, the state it leaves when every `write`
call succeeds in full: the records appended at the old end of the log, the entries of the inode map
that point at them, and the commit. Where parent and child lie in one chunk of the inode map, no
chunk is written in between. These are equations between the code and its effect; what they mean
for the file system is proved from them in the modules that follow.
-/

namespace OS537.LFS

open Bytes Code Posix

variable {server : Server}

/-! ## Build -/

/-- The server when `fsi_build` is about to write the first chunk. -/
def Server.built (server : Server) (dirBlock : Store) : Server :=
  { ((server.seek crSize).wrote lfsBlockSize (rootBlock dirBlock)).wrote inodeSize
      rootInode.toBytes with
    inodes := fun i ↦ if i = 0 then 0 + 4096 + 1028 else -1
    cr := { server.cr with chunks := fun k ↦ if k = 0 then 0 + 4096 + 64 + 1028 else -1 } }

theorem fsiBuild_run (hfull : AllFull server) (dirBlock : Store) :
    fsiBuild dirBlock server =
      some ((), (server.built dirBlock).committed 0 (0 + 4096 + 64 + 1028)) := by
  let sought := server.seek crSize
  have hsought : AllFull sought := hfull
  have hblock := hsought.wrote lfsBlockSize (rootBlock dirBlock)
  have hbuilt : AllFull (server.built dirBlock) := hblock.wrote inodeSize rootInode.toBytes
  have hchunk : (server.built dirBlock).putChunk (chunkOf 0) (0 + 4096 + 64 + 1028) =
      server.built dirBlock := by
    have hcr : (server.built dirBlock).cr.setChunk (chunkOf 0) (0 + 4096 + 64 + 1028) =
        (server.built dirBlock).cr := by
      unfold Checkpoint.setChunk
      congr 1
      exact Function.update_eq_self (0 : Fin 256) _
    unfold Server.putChunk
    rw [hcr]
  unfold fsiBuild Server.committed
  rw [bind_run (lseek_run _), bind_run (write_run hsought _ _), bind_run (write_run hblock _ _),
    bind_run (update_run _), bind_run (update_run _)]
  change (writeChunk 0 >>= _) (server.built dirBlock) = _
  have hchunked := hbuilt.wrote chunkSize (chunkBytes (server.built dirBlock).inodes (chunkOf 0))
  have hclosed : AllFull (((server.built dirBlock).wrote chunkSize
      (chunkBytes (server.built dirBlock).inodes (chunkOf 0))).putEnd
        (0 + 4096 + 64 + 64 + 1028)) := hchunked
  rw [bind_run (writeChunk_run hbuilt 0), bind_run (update_run _),
    bind_run (writeCheckpoint_run hclosed), hchunk]
  rfl

/-! ## Write -/

/-- The inode `fsi_write` records. -/
def writtenInode (node : Inode) (block : Fin ndirect) (pos : Word) : Inode :=
  (if node.direct block = -1 ∧ node.size.toInt < ((block : ℕ) : ℤ) * 4096 then
    { node with size := BitVec.ofInt 32 (((block : ℕ) : ℤ) * 4096) } else node).setDirect block pos

/-- The server after `fsi_write` has appended the block and the inode. -/
def Server.appendedBlock (server : Server) (inum : Fin 4096) (buffer : Store)
    (block : Fin ndirect) (node : Inode) : Server :=
  let endPos := server.cr.endPos
  (((server.seek endPos.toNat).wrote lfsBlockSize buffer).putInode inum (endPos + 4096)).wrote
    inodeSize (writtenInode node block endPos).toBytes

theorem writeCommit_run (hfull : AllFull server) (inum : Fin 4096) (buffer : Store)
    (block : Fin ndirect) (node : Inode) :
    writeCommit ((inum : ℕ) : ℤ) buffer ((block : ℕ) : ℤ) node server =
      some (0, (server.appendedBlock inum buffer block node).committed inum
        (server.cr.endPos + 4096 + 64)) := by
  let sought := server.seek server.cr.endPos.toNat
  have hsought : AllFull sought := hfull
  have hlisted : AllFull ((sought.wrote lfsBlockSize buffer).putInode inum
      (server.cr.endPos + 4096)) := hsought.wrote lfsBlockSize buffer
  unfold writeCommit
  rw [bind_run get_run, bind_run (lseek_run _), bind_run (write_run hsought _ _),
    if_neg (by decide), bind_run (index_natCast_run block), bind_run (index_natCast_run inum),
    bind_run (update_run _), bind_run (write_run hlisted _ _), if_neg (by decide),
    commitChunk_run (hlisted.wrote _ _)]
  rfl

/-! ## Unlink -/

/-- The parent `fsi_unlink` records: the block of the name moves to `pos`, or goes away when the
name stood in its first slot. -/
def unlinkedParent (pnode : Inode) (block : Fin ndirect) (slot : ℕ) (pos : Word) : Inode :=
  pnode.setDirect block (if slot = 0 then -1 else pos)

/-- The server after `fsi_unlink` has appended the parent's block and inode. -/
def Server.appendedParent (server : Server) (parent : Fin 4096) (plan : UnlinkPlan)
    (block : Fin ndirect) (slot : ℕ) : Server :=
  let endPos := server.cr.endPos
  ((((server.seek endPos.toNat).wrote lfsBlockSize plan.dirBlock).wrote inodeSize
    (unlinkedParent plan.pnode block slot endPos).toBytes).putInode parent
      (endPos + 4096)).putInode plan.cinum (-1)

/-- The server after the parent's chunk, with the file offset 64 bytes ahead of `pos`. -/
def Server.appendedParentChunk (server : Server) (parent : Fin 4096) (pos : Word) : Server :=
  (server.putChunk (chunkOf parent) pos).wrote chunkSize
    (chunkBytes server.inodes (chunkOf parent))

/-- The server after the parent's chunk, if it is another one than the child's. -/
def Server.parentChunked (server : Server) (parent child : Fin 4096) (pos : Word) : Server :=
  if chunkOf parent ≠ chunkOf child then server.appendedParentChunk parent pos else server

theorem parentChunked_same {parent child : Fin 4096} (h : chunkOf parent = chunkOf child)
    (pos : Word) : server.parentChunked parent child pos = server :=
  if_neg (not_not.mpr h)

theorem parentChunked_cross {parent child : Fin 4096} (h : chunkOf parent ≠ chunkOf child)
    (pos : Word) : server.parentChunked parent child pos = server.appendedParentChunk parent pos :=
  if_pos h

theorem AllFull.parentChunked (hfull : AllFull server) (parent child : Fin 4096) (pos : Word) :
    AllFull (server.parentChunked parent child pos) := by
  unfold Server.parentChunked
  split
  · exact fun k ↦ hfull (k + 1)
  · exact hfull

theorem writeParentChunk_run (hfull : AllFull server) (parent child : Fin 4096) (pos : Word) :
    writeParentChunk parent child pos server =
      some (pos, server.parentChunked parent child pos) := by
  have hlisted : AllFull (server.putChunk (chunkOf parent) pos) := hfull
  unfold writeParentChunk Server.parentChunked
  by_cases h : chunkOf parent ≠ chunkOf child
  · rw [if_pos h, if_pos h, bind_run (update_run _), bind_run (writeChunk_run hlisted parent)]
    rfl
  · rw [if_neg h, if_neg h]
    rfl

theorem unlinkCommit_eq (hfull : AllFull server) (parent : Fin 4096) (plan : UnlinkPlan)
    (block : Fin ndirect) (slot : ℕ) (hfound : plan.found = some ((block : ℕ), slot))
    (hroom : server.cr.endPos.toNat < 2 ^ 31) :
    unlinkCommit ((parent : ℕ) : ℤ) plan server =
      some (0, ((server.appendedParent parent plan block slot).parentChunked parent plan.cinum
        (server.cr.endPos + 4096 + 64)).committed plan.cinum (server.cr.endPos + 4096 + 64)) := by
  let sought := server.seek server.cr.endPos.toNat
  have hsought : AllFull sought := hfull
  have hblock := hsought.wrote lfsBlockSize plan.dirBlock
  have hlisted : AllFull (server.appendedParent parent plan block slot) :=
    hblock.wrote inodeSize (unlinkedParent plan.pnode block slot server.cr.endPos).toBytes
  unfold unlinkCommit
  rw [bind_run get_run, toInt_eq_toNat hroom, bind_run (lseek_run _),
    bind_run (write_run hsought _ _), if_neg (by decide), hfound]
  dsimp only
  rw [bind_run (index_natCast_run block), bind_run (write_run hblock _ _), if_neg (by decide),
    bind_run (index_natCast_run parent), bind_run (update_run _), bind_run (update_run _)]
  change (writeParentChunk parent plan.cinum _ >>= _) (server.appendedParent parent plan block slot)
    = _
  rw [bind_run (writeParentChunk_run hlisted parent plan.cinum _)]
  exact commitChunk_run (hlisted.parentChunked _ _ _) plan.cinum _

theorem unlinkCommit_run (hfull : AllFull server) (parent : Fin 4096) (plan : UnlinkPlan)
    (block : Fin ndirect) (slot : ℕ) (hfound : plan.found = some ((block : ℕ), slot))
    (hchunk : chunkOf parent = chunkOf plan.cinum) (hroom : server.cr.endPos.toNat < 2 ^ 31) :
    unlinkCommit ((parent : ℕ) : ℤ) plan server =
      some (0, (server.appendedParent parent plan block slot).committed plan.cinum
        (server.cr.endPos + 4096 + 64)) := by
  rw [unlinkCommit_eq hfull parent plan block slot hfound hroom, parentChunked_same hchunk]

/-! ## Create -/

/-- The parent `fsi_creat` records. -/
def createdParent (pnode : Inode) (block : Fin ndirect) (pos : Word) : Inode :=
  (if pnode.size.toInt < ((block : ℕ) : ℤ) * 4096 then
    { pnode with size := BitVec.ofInt 32 (((block : ℕ) : ℤ) * 4096) }
    else pnode).setDirect block pos

/-- The server after `fsi_creat` has appended the parent's block and inode. -/
def Server.appendedEntry (server : Server) (parent : Fin 4096) (plan : CreatPlan) : Server :=
  let endPos := server.cr.endPos
  (((server.seek endPos.toNat).wrote lfsBlockSize plan.dirBlock).putInode parent
    (endPos + 4096)).wrote inodeSize (createdParent plan.pnode plan.foundBlock endPos).toBytes

/-- The inode of a new object that is not a directory. -/
def newInode (type : Word) : Inode := { size := 0, type := type, direct := fun _ ↦ -1 }

/-- The inode of a new directory, whose block goes to the index the parent's entry has. -/
def newDirectory (block : Fin ndirect) (pos : Word) : Inode :=
  { (newInode lfsDirectory).setDirect block pos with size := 64 }

/-- The server after a child's inode record at `pos`. -/
def Server.appendedChild (server : Server) (inum : Fin 4096) (child : Inode) (pos : Word) :
    Server :=
  (server.putInode inum pos).wrote inodeSize child.toBytes

theorem creatChild_run (hfull : AllFull server) (inum : Fin 4096) (child : Inode) (pos : Word) :
    creatChild inum child pos server =
      some (0, (server.appendedChild inum child pos).committed inum (pos + 64)) := by
  have hlisted : AllFull (server.putInode inum pos) := hfull
  unfold creatChild
  rw [bind_run (update_run _), bind_run (write_run hlisted _ _), if_neg (by decide)]
  exact commitChunk_run (hlisted.wrote _ _) inum _

theorem creatCommit_eq (hfull : AllFull server) (parent : Fin 4096) (type : Word)
    (childDirBlock : Store) (plan : CreatPlan) :
    let pos := server.cr.endPos + 4096 + 64
    let entered := (server.appendedEntry parent plan).parentChunked parent plan.inum pos
    creatCommit ((parent : ℕ) : ℤ) type childDirBlock plan server =
      if type = lfsDirectory then
        creatChild plan.inum (newDirectory plan.foundBlock pos) (pos + 4096)
          (entered.wrote lfsBlockSize (childBlock childDirBlock (BitVec.ofNat 32 plan.inum)
            (BitVec.ofInt 32 ((parent : ℕ) : ℤ))))
      else creatChild plan.inum (newInode type) pos entered := by
  intro pos entered
  let sought := server.seek server.cr.endPos.toNat
  have hsought : AllFull sought := hfull
  have hlisted : AllFull ((sought.wrote lfsBlockSize plan.dirBlock).putInode parent
      (server.cr.endPos + 4096)) := hsought.wrote lfsBlockSize plan.dirBlock
  have hentry : AllFull (server.appendedEntry parent plan) := hlisted.wrote _ _
  unfold creatCommit
  rw [bind_run get_run, bind_run (lseek_run _), bind_run (write_run hsought _ _),
    if_neg (by decide), bind_run (index_natCast_run parent), bind_run (update_run _),
    bind_run (write_run hlisted _ _), if_neg (by decide)]
  change (writeParentChunk parent plan.inum _ >>= _) (server.appendedEntry parent plan) = _
  rw [bind_run (writeParentChunk_run hentry parent plan.inum _)]
  split
  next htype =>
    rw [bind_run (write_run (hentry.parentChunked _ _ _) _ _), if_neg (by decide)]
    subst htype
    rfl
  next => rfl

theorem creatCommit_run (hfull : AllFull server) (parent : Fin 4096) (type : Word)
    (childDirBlock : Store) (plan : CreatPlan) (hchunk : chunkOf parent = chunkOf plan.inum) :
    creatCommit ((parent : ℕ) : ℤ) type childDirBlock plan server =
      if type = lfsDirectory then
        creatChild plan.inum (newDirectory plan.foundBlock (server.cr.endPos + 4096 + 64))
          (server.cr.endPos + 4096 + 64 + 4096)
          ((server.appendedEntry parent plan).wrote lfsBlockSize (childBlock childDirBlock
            (BitVec.ofNat 32 plan.inum) (BitVec.ofInt 32 ((parent : ℕ) : ℤ))))
      else
        creatChild plan.inum (newInode type) (server.cr.endPos + 4096 + 64)
          (server.appendedEntry parent plan) := by
  rw [creatCommit_eq hfull parent type childDirBlock plan, parentChunked_same hchunk]

end OS537.LFS
