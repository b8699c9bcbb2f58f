import OS537.XV6.Cache

/-!
# Files

`readi` and `writei` of `5/xv6/fs.c`, and the calls on open files of `5/xv6/file.c`. The loops of
`readi` and `writei` go through the same rounds, which depend on the offset and the length only.
There are no pipes and no devices: a file is on an inode or on nothing, and `devsw` is empty.
-/

namespace OS537.XV6

open Bytes

/-! ## Rounds -/

/-- A round of the loop in `readi` or `writei`: `m` bytes, at offset `off` of the file and `tot` of
the buffer. -/
structure Round where
  tot : ℕ
  off : ℕ
  m : ℕ

/-- `for(tot=0; tot<n; tot+=m, off+=m)`. A round copies a byte at least, so `n` rounds are enough.
-/
def rounds : (fuel tot off n : ℕ) → List Round
  | 0, _, _, _ => []
  | fuel + 1, tot, off, n =>
    if tot < n then
      let m := min (n - tot) (512 - off % 512)
      ⟨tot, off, m⟩ :: rounds fuel (tot + m) (off + m) n
    else []

/-- `memmove(dst, bp->data + off%BSIZE, m)` for the buffer of block `addr` -/
def readBlock (addr : Word) (off m : ℕ) : FSM (List Byte) := fun fs ↦
  some ((List.range m).map fun i ↦ fs.disk.block addr (off % 512 + i), fs)

def readRounds (slot : Slot) : List Round → FSM (List Byte)
  | [] => pure []
  | round :: rest => do
    let addr ← mapSlot slot (BitVec.ofNat 32 round.off)
    let data ← readBlock addr round.off round.m
    let next ← readRounds slot rest
    return data ++ next

def writeRounds (slot : Slot) (src : Store) : List Round → FSM Unit
  | [] => pure ()
  | round :: rest => do
    storeRound slot (BitVec.ofNat 32 round.off) round.m fun i ↦ src (round.tot + i)
    writeRounds slot src rest

/-! ## Reading and writing inodes -/

/-- `MAXFILE*BSIZE` -/
def maxSize : Word := 140 * 512

/-- The number of bytes that `readi` reads. -/
def Dinode.readLength (node : Dinode) (off n : Word) : Word :=
  if node.size < off + n then node.size - off else n

/-- The number of bytes that `writei` writes. -/
def Dinode.writeLength (node : Dinode) (off n : Word) : Word :=
  if maxSize < off + n ∧ node.type ≠ .extent then maxSize - off else n

/-- `ip->type == T_DEV`, or `off > ip->size || off + n < off` -/
def Dinode.refuses (node : Dinode) (off n : Word) : Bool :=
  node.type = .dev || node.size < off || off + n < off

/-- Read data from inode. -/
def readi (slot : Slot) (off n : Word) : FSM (Word × List Byte) := fun fs ↦
  let node := (fs.icache slot).toDinode
  if node.refuses off n then some ((-1, []), fs)
  else
    let n := node.readLength off n
    (readRounds slot (rounds n.toNat 0 off.toNat n.toNat) fs).map fun result ↦
      ((n, result.1), result.2)

/-- `ip->size = size; iupdate(ip)` -/
def resize (slot : Slot) (size : Word) : FSM Unit := fun fs ↦
  iupdateSlot slot (fs.set slot { fs.icache slot with size := size })

/-- The end of `writei`, where `off` has become the end of what was written. -/
def growSize (slot : Slot) (n off : Word) : FSM Unit := fun fs ↦
  if 0 < n ∧ (fs.icache slot).size < off then resize slot off fs else some ((), fs)

/-- Write data to inode. -/
def writei (slot : Slot) (src : Store) (off n : Word) : FSM Word := fun fs ↦
  let node := (fs.icache slot).toDinode
  if node.refuses off n then some (-1, fs)
  else
    let n := node.writeLength off n
    let code : FSM Word := do
      writeRounds slot src (rounds n.toNat 0 off.toNat n.toNat)
      growSize slot n (off + n)
      return n
    code fs

/-! ## Open files -/

inductive FdType where
  | none
  | inode
deriving DecidableEq

/-- `struct file` -/
structure File where
  type : FdType
  ref : ℤ
  readable : Bool
  writable : Bool
  ip : Slot
  off : Word

/-- `if((r = ...) > 0) f->off += r` -/
def File.advance (f : File) (r : Word) : File :=
  if 0 < r.toInt then { f with off := f.off + r } else f

/-- Read from file `f`. The result is the return value, the bytes that were read, and the file. -/
def fileread (f : File) (n : Word) : FSM (Word × List Byte × File) :=
  if f.readable = false then pure (-1, [], f)
  else match f.type with
    | .none => fun _ ↦ none
    | .inode => do
      ilock f.ip
      let (r, data) ← readi f.ip f.off n
      iunlock f.ip
      return (r, data, f.advance r)

/-- Write to file `f`. -/
def filewrite (f : File) (src : Store) (n : Word) : FSM (Word × File) :=
  if f.writable = false then pure (-1, f)
  else match f.type with
    | .none => fun _ ↦ none
    | .inode => do
      ilock f.ip
      let r ← writei f.ip src f.off n
      iunlock f.ip
      return (r, f.advance r)

/-- `if (offset > f->ip->size) f->ip->size = offset`: `offset` becomes unsigned in the comparison,
and the size does not go to the disk. -/
def seekSize (slot : Slot) (offset : Word) : FSM Unit := fun fs ↦
  if (fs.icache slot).size < offset then
    some ((), fs.set slot { fs.icache slot with size := offset })
  else some ((), fs)

def filelseek (f : File) (offset : Word) : FSM (Word × File) :=
  match f.type with
  | .none => pure (-1, f)
  | .inode => do
    ilock f.ip
    seekSize f.ip offset
    iunlock f.ip
    return (offset, { f with off := offset })

end OS537.XV6
