import OS537.LFS.Records

/-!
# The file server's operations on its image

`6/libfsi.c`, one definition for each function. The state is the server's memory (`cr`, `inodes`),
the image behind `fsid` with its file offset, and what the coming `write` calls will do. Locals
that the C code leaves uninitialised are parameters (the frames), so that a theorem holds
whatever the stack contains. `none` is undefined behaviour: an index outside an array.

`lseek` to a negative offset fails and leaves the file offset where it was; the code ignores that,
so a following `read` goes on from there. Positions are `int`s and wrap modulo 2^32.
-/

namespace OS537.LFS

open Bytes Posix

/-- What one `write` call does: all of it, a shorter part, or nothing and an error. -/
inductive WriteResult
  | full
  | short (count : ℕ)
  | error

/-- The effect of one `write` call on the disk. -/
structure Write where
  offset : ℕ
  n : ℕ
  source : Store

def Write.apply (file : File) (write : Write) : File :=
  file.pwrite write.offset write.n write.source

structure Server where
  image : File
  offset : ℕ
  cr : Checkpoint
  inodes : InodeMap
  results : ℕ → WriteResult
  /-- The disk writes so far, oldest first. -/
  trace : List Write

abbrev Fsi := StateT Server Option

def undefined {α : Type} : Fsi α := fun _ ↦ none

/-- An array index of the C code; outside the array the behaviour is undefined. -/
def index (n : ℕ) (i : ℤ) : Fsi (Fin n) := fun server ↦
  if h : 0 ≤ i ∧ i < n then some (⟨i.toNat, by omega⟩, server) else none

/-! ## System calls -/

def lseek (offset : ℤ) : Fsi Unit := fun server ↦
  some ((), if 0 ≤ offset then { server with offset := offset.toNat } else server)

def read (buffer : Store) (n : ℕ) : Fsi (ℤ × Store) := fun server ↦
  let count := server.image.available server.offset n
  some ((count, server.image.pread server.offset n buffer),
    { server with offset := server.offset + count })

/-- `n` bytes reach the disk at the file offset. -/
def Server.append (server : Server) (n : ℕ) (buffer : Store) : Server :=
  { server with
    image := server.image.pwrite server.offset n buffer
    offset := server.offset + n
    trace := server.trace ++ [⟨server.offset, n, buffer⟩] }

def write (n : ℕ) (buffer : Store) : Fsi ℤ := fun server ↦
  let rest := { server with results := fun k ↦ server.results (k + 1) }
  match server.results 0 with
  | .full => some (n, rest.append n buffer)
  | .short count => some (min count n, rest.append (min count n) buffer)
  | .error => some (-1, rest)

/-! ## Memory -/

def chunkOf (inum : Fin 4096) : Fin 256 :=
  ⟨inum / imapChunkSize, Nat.div_lt_of_lt_mul inum.isLt⟩

/-- `inodes[inum] = pos` -/
def Server.putInode (server : Server) (inum : Fin 4096) (pos : Word) : Server :=
  { server with inodes := Function.update server.inodes inum pos }

/-- `cr.chunks[chunk] = pos` -/
def Server.putChunk (server : Server) (chunk : Fin 256) (pos : Word) : Server :=
  { server with cr := server.cr.setChunk chunk pos }

/-- `cr.end = pos` -/
def Server.putEnd (server : Server) (pos : Word) : Server :=
  { server with cr := { server.cr with endPos := pos } }

def update (change : Server → Server) : Fsi Unit := fun server ↦ some ((), change server)

/-- `write(fsid, &inodes[inum/IMAP_CHUNK_SIZE*IMAP_CHUNK_SIZE], IMAP_CHUNK_SIZE * sizeof(int))` -/
def writeChunk (inum : Fin 4096) : Fsi ℤ := do
  write chunkSize (chunkBytes (← get).inodes (chunkOf inum))

/-- `lseek(fsid, 0, SEEK_SET); write(fsid, &cr, sizeof(cr_t))` -/
def writeCheckpoint : Fsi ℤ := do
  lseek 0
  write crSize (← get).cr.toBytes

/-- The end of every operation that changes the image: the chunk of `inum` at `pos`, then the
checkpoint that makes it current. -/
def commitChunk (inum : Fin 4096) (pos : Word) : Fsi ℤ := do
  update (·.putChunk (chunkOf inum) pos)
  if (← writeChunk inum) < 0 then return -1
  let pos := pos + 64
  update (·.putEnd pos)
  if (← writeCheckpoint) < 0 then return -1
  return 0

/-! ## Reading inodes and blocks -/

def getInode (inum : ℤ) (node : Store) : Fsi (ℤ × Inode) := do
  let i ← index 4096 inum
  let pos := (← get).inodes i
  if pos = -1 then return (-1, Inode.ofBytes node 0)
  lseek pos.toInt
  let (rc, node) ← read node inodeSize
  return (rc, Inode.ofBytes node 0)

def getBlock (inode : Inode) (buffer : Store) (block : ℤ) : Fsi (ℤ × Store) := do
  if block > 13 then return (-1, buffer)
  let j ← index ndirect block
  lseek (inode.direct j).toInt
  read buffer lfsBlockSize

/-! ## Building and loading an image -/

def dot : CString := ⟨[46], by decide⟩
def dotDot : CString := ⟨[46, 46], by decide⟩

/-- The root's block: "." and "..", the other slots free. -/
def rootBlock (dirBlock : Store) : Store :=
  let dirBlock := setEntryInum (strcpy dirBlock 0 dot) 0 0
  let dirBlock := setEntryInum (strcpy dirBlock 32 dotDot) 1 0
  (List.range' 2 126).foldl (fun block i ↦ setEntryInum block i (-1)) dirBlock

def rootInode : Inode :=
  { size := 4096, type := lfsDirectory, direct := fun j ↦ if j = 0 then 0 + 1028 else -1 }

/-- `fsi_build` on a file that `open` has just created. -/
def fsiBuild (dirBlock : Store) : Fsi Unit := do
  lseek crSize
  let _ ← write lfsBlockSize (rootBlock dirBlock)
  let pos : Word := 0
  let pos := pos + 4096
  let _ ← write inodeSize rootInode.toBytes
  update fun server ↦ { server with inodes := fun i ↦ if i = 0 then pos + 1028 else -1 }
  let pos := pos + 64
  update fun server ↦
    { server with cr := { server.cr with chunks := fun k ↦ if k = 0 then pos + 1028 else -1 } }
  let _ ← writeChunk 0
  let pos := pos + 64
  update (·.putEnd (pos + 1028))
  let _ ← writeCheckpoint

/-- The loop of `fsi_init` over the chunks from `chunk` on. -/
def loadChunks : (fuel : ℕ) → (chunk : ℕ) → Fsi Unit
  | 0, _ => pure ()
  | fuel + 1, chunk => do
    let k ← index 256 chunk
    let server ← get
    let pos := server.cr.chunks k
    if pos ≠ -1 then
      lseek pos.toInt
      let (_, buffer) ← read (chunkBytes server.inodes k) chunkSize
      update fun server ↦ { server with inodes := loadChunk server.inodes k buffer 0 }
    else
      update fun server ↦ { server with inodes := fun i ↦
        if (i : ℕ) / imapChunkSize = k then -1 else server.inodes i }
    loadChunks fuel (chunk + 1)

/-- `fsi_init` on an existing image. A short checkpoint fails the assertion: `none`. -/
def fsiInit : Fsi ℤ := do
  lseek 0
  let (rc, buffer) ← read (← get).cr.toBytes crSize
  if rc = crSize then
    update fun server ↦ { server with cr := Checkpoint.ofBytes buffer }
    loadChunks 256 0
    return 0
  else
    undefined

/-! ## Lookup, stat and read -/

/-- Uninitialised locals of `fsi_lookup`. -/
structure LookupFrame where
  node : Store
  dirBlock : Store

/-- The loop of `fsi_lookup` over the blocks from `block` on. -/
def lookupBlocks (node : Inode) (name : CString) : (fuel block : ℕ) → Store → Fsi ℤ
  | 0, _, _ => return -1
  | fuel + 1, block, dirBlock => do
    let (rc, dirBlock) ← getBlock node dirBlock block
    if rc = -1 then return -1
    match Scan.first (entryNamed dirBlock name) dirEntries with
    | some i => return (entryInum dirBlock i).toInt
    | none => lookupBlocks node name fuel (block + 1) dirBlock

def fsiLookup (pinum : ℤ) (name : CString) (frame : LookupFrame) : Fsi ℤ := do
  let (rc, node) ← getInode pinum frame.node
  if rc < 0 then return -1
  if node.type ≠ lfsDirectory then return -1
  lookupBlocks node name ndirect 0 frame.dirBlock

/-- `fsi_stat`: the type and size it stores through its pointer, or `none` for -1. -/
def fsiStat (inum : ℤ) (node : Store) : Fsi (Option (Word × Word)) := do
  let (rc, node) ← getInode inum node
  if rc < 0 then return none
  return some (node.type, node.size)

def fsiRead (inum : ℤ) (buffer : Store) (block : ℤ) (node : Store) : Fsi (ℤ × Store) := do
  let (rc, node) ← getInode inum node
  if rc < 0 then return (-1, buffer)
  let (rc, buffer) ← getBlock node buffer block
  if rc < 0 then return (-1, buffer)
  return (0, buffer)

/-! ## Write -/

/-- `fsi_write` from its first write on. -/
def writeCommit (inum : ℤ) (buffer : Store) (block : ℤ) (node : Inode) : Fsi ℤ := do
  let endPos := (← get).cr.endPos
  lseek endPos.toNat
  let pos := endPos
  if (← write lfsBlockSize buffer) < 0 then return -1
  let pos := pos + 4096
  let j ← index ndirect block
  let node := if node.direct j = -1 ∧ node.size.toInt < block * 4096 then
    { node with size := BitVec.ofInt 32 (block * 4096) } else node
  let i ← index 4096 inum
  update (·.putInode i pos)
  let node := node.setDirect j endPos
  if (← write inodeSize node.toBytes) < 0 then return -1
  commitChunk i (pos + 64)

def fsiWrite (inum : ℤ) (buffer : Store) (block : ℤ) (node : Store) : Fsi ℤ := do
  let (rc, node) ← getInode inum node
  if rc < 0 then return -1
  if node.type ≠ lfsRegularFile then return -1
  if block > 13 then return -1
  writeCommit inum buffer block node

/-! ## Unlink -/

/-- Uninitialised locals of `fsi_unlink` and of its call of `fsi_lookup`. -/
structure UnlinkFrame where
  pnode : Store
  cnode : Store
  cdirBlocks : Store
  dirBlock : Store
  lookup : LookupFrame

/-- What `fsi_unlink` has found when it starts to write. `found` is the block and the slot of the
name; without it `foundBlock` is still -1. -/
structure UnlinkPlan where
  pnode : Inode
  cinum : Fin 4096
  dirBlock : Store
  found : Option (ℕ × ℕ)

/-- The loop of `fsi_unlink` over the parent's blocks from `block` on: the last block read, with
the slot of the name cleared if it was found there. `none` is the early return. -/
def unlinkBlocks (pnode : Inode) (name : CString) :
    (fuel block : ℕ) → Store → Fsi (Option (Store × Option (ℕ × ℕ)))
  | 0, _, dirBlock => return some (dirBlock, none)
  | fuel + 1, block, dirBlock => do
    let (rc, dirBlock) ← getBlock pnode dirBlock block
    if rc = -1 then return none
    match Scan.first (entryNamed dirBlock name) dirEntries with
    | some i => return some (setEntryInum dirBlock i (-1), some (block, i))
    | none => unlinkBlocks pnode name fuel (block + 1) dirBlock

/-- The entries of a directory block all equal both numbers: the loop that `fsi_unlink` takes for
a test that the directory is empty. -/
def onlySelfAndParent (cdirBlocks : Store) (cinum pinum : ℤ) : Bool :=
  (Scan.first (fun i ↦ (entryInum cdirBlocks i).toInt ≠ cinum ∨
    (entryInum cdirBlocks i).toInt ≠ pinum) dirEntries).isNone

/-- `fsi_unlink` up to its first write: the value of an early return, or what it has found. -/
def unlinkSearch (pinum : ℤ) (name : CString) (frame : UnlinkFrame) : Fsi (ℤ ⊕ UnlinkPlan) := do
  let (rc, pnode) ← getInode pinum frame.pnode
  if rc < 0 then return .inl (-1)
  let cinum ← fsiLookup pinum name frame.lookup
  if cinum < 0 then return .inl (-1)
  let (_, cnode) ← getInode cinum frame.cnode
  if cnode.type = lfsDirectory then
    if cnode.size.toInt > 4096 then return .inl (-1)
    let (_, cdirBlocks) ← getBlock cnode frame.cdirBlocks 0
    if !onlySelfAndParent cdirBlocks cinum pinum then return .inl (-1)
  match ← unlinkBlocks pnode name ndirect 0 frame.dirBlock with
  | none => return .inl (-1)
  | some (dirBlock, found) =>
    let i ← index 4096 cinum
    return .inr ⟨pnode, i, dirBlock, found⟩

/-- The chunk of the parent, written only when it is another one than the child's. As in the
source, `pos` moves on only when the write fails. -/
def writeParentChunk (parent child : Fin 4096) (pos : Word) : Fsi Word := do
  if chunkOf parent ≠ chunkOf child then
    update (·.putChunk (chunkOf parent) pos)
    if (← writeChunk parent) < 0 then return pos + 64
  return pos

/-- `fsi_unlink` from its first write on. -/
def unlinkCommit (pinum : ℤ) (plan : UnlinkPlan) : Fsi ℤ := do
  let pos := (← get).cr.endPos
  lseek pos.toInt
  if (← write lfsBlockSize plan.dirBlock) < 0 then return -1
  match plan.found with
  | none => undefined
  | some (block, slot) =>
    let j ← index ndirect block
    let pnode := plan.pnode.setDirect j (if slot = 0 then -1 else pos)
    let pos := pos + 4096
    if (← write inodeSize pnode.toBytes) < 0 then return -1
    let parent ← index 4096 pinum
    update (·.putInode parent pos)
    update (·.putInode plan.cinum (-1))
    let pos := pos + 64
    let pos ← writeParentChunk parent plan.cinum pos
    commitChunk plan.cinum pos

def fsiUnlink (pinum : ℤ) (name : CString) (frame : UnlinkFrame) : Fsi ℤ := do
  match ← unlinkSearch pinum name frame with
  | .inl rc => return rc
  | .inr plan => unlinkCommit pinum plan

/-! ## Create -/

/-- Uninitialised locals of `fsi_creat` and of the calls it makes. -/
structure CreatFrame where
  pnode : Store
  dirBlock : Store
  childDirBlock : Store
  lookup : LookupFrame
  unlink : UnlinkFrame

/-- What `fsi_creat` has found when it starts to write: the parent as it read it first, the new
inode number, the block with the new entry in it and its index. -/
structure CreatPlan where
  pnode : Inode
  inum : Fin 4096
  dirBlock : Store
  foundBlock : Fin ndirect

/-- `inodes[i] == -1` -/
def inodeFree (inodes : InodeMap) (i : ℕ) : Bool :=
  if h : i < 4096 then inodes ⟨i, h⟩ = -1 else false

/-- The loop of `fsi_creat` over the parent's blocks from `block` on. `none` is a return of -1,
also for a directory without a free slot. -/
def creatBlocks (pnode : Inode) (name : CString) (inum : Word) :
    (fuel block : ℕ) → Store → Fsi (Option (Store × ℕ))
  | 0, _, _ => return none
  | fuel + 1, block, dirBlock => do
    let (rc, dirBlock) ← getBlock pnode dirBlock block
    if rc = -1 then return none
    match Scan.first (fun i ↦ entryInum dirBlock i = -1) dirEntries with
    | some i => return some (setEntry dirBlock i name inum, block)
    | none => creatBlocks pnode name inum fuel (block + 1) dirBlock

/-- The start of `fsi_creat`: the parent and what `fsi_lookup` says about the name, or `none` for
the early return. -/
def creatProbe (pinum : ℤ) (name : CString) (frame : CreatFrame) : Fsi (Option (Inode × ℤ)) := do
  let (rc, pnode) ← getInode pinum frame.pnode
  if rc < 0 then return none
  if name.chars.length > 27 then return none
  let rc ← fsiLookup pinum name frame.lookup
  return some (pnode, rc)

/-- A free inode number and a free slot of the parent, or `none` for a return of -1. -/
def creatPlace (pnode : Inode) (name : CString) (dirBlock : Store) : Fsi (Option CreatPlan) := do
  match Scan.first (inodeFree (← get).inodes) 4096 with
  | none => return none
  | some inum =>
    let i ← index 4096 inum
    match ← creatBlocks pnode name (BitVec.ofNat 32 inum) ndirect 0 dirBlock with
    | none => return none
    | some (dirBlock, block) =>
      let j ← index ndirect block
      return some ⟨pnode, i, dirBlock, j⟩

/-- The block a new directory starts with: "." and "..", the other slots as the stack has them. -/
def childBlock (childDirBlock : Store) (inum pinum : Word) : Store :=
  setEntry (setEntry childDirBlock 0 dot inum) 1 dotDot pinum

/-- The end of `fsi_creat`: the child's inode at `pos`, its chunk and the checkpoint. -/
def creatChild (inum : Fin 4096) (child : Inode) (pos : Word) : Fsi ℤ := do
  update (·.putInode inum pos)
  if (← write inodeSize child.toBytes) < 0 then return -1
  commitChunk inum (pos + 64)

/-- `fsi_creat` from its first own write on. -/
def creatCommit (pinum : ℤ) (type : Word) (childDirBlock : Store) (plan : CreatPlan) : Fsi ℤ := do
  let endPos := (← get).cr.endPos
  lseek endPos.toNat
  let pos := endPos
  if (← write lfsBlockSize plan.dirBlock) < 0 then return -1
  let pos := pos + 4096
  let foundSize : ℤ := plan.foundBlock * 4096
  let pnode := if plan.pnode.size.toInt < foundSize then
    { plan.pnode with size := BitVec.ofInt 32 foundSize } else plan.pnode
  let parent ← index 4096 pinum
  update (·.putInode parent pos)
  let pnode := pnode.setDirect plan.foundBlock endPos
  if (← write inodeSize pnode.toBytes) < 0 then return -1
  let pos := pos + 64
  let pos ← writeParentChunk parent plan.inum pos
  let child : Inode := { size := 0, type := type, direct := fun _ ↦ -1 }
  if type = lfsDirectory then
    if (← write lfsBlockSize (childBlock childDirBlock (BitVec.ofNat 32 plan.inum)
      (BitVec.ofInt 32 pinum))) < 0 then return -1
    creatChild plan.inum { child.setDirect plan.foundBlock pos with size := 64 } (pos + 4096)
  else
    creatChild plan.inum child pos

/-- `if(fsi_lookup(pinum, name) > 0) fsi_unlink(pinum, name);` -/
def creatReplace (pinum : ℤ) (name : CString) (frame : UnlinkFrame) (found : ℤ) : Fsi Unit := do
  if found > 0 then
    let _ ← fsiUnlink pinum name frame

def fsiCreat (pinum : ℤ) (type : Word) (name : CString) (frame : CreatFrame) : Fsi ℤ := do
  match ← creatProbe pinum name frame with
  | none => return -1
  | some (pnode, found) =>
    -- The parent was read before this unlink rewrites it, and is not read again.
    creatReplace pinum name frame.unlink found
    match ← creatPlace pnode name frame.dirBlock with
    | none => return -1
    | some plan => creatCommit pinum type frame.childDirBlock plan

end OS537.LFS
