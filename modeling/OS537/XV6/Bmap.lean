import OS537.XV6.Disk
import Mathlib.Data.List.FinRange

/-!
# Block maps

`bmap` and `itrunc` of `5/xv6/fs.c`. An inode lists its blocks in `addrs` in one of two ways. A
`T_EXTENT` inode has six extents, each in two words: the base and the length, packed as 24 and 8
bits, and the first logical block. Any other inode has twelve direct pointers and an indirect block
of 128 more.
-/

namespace OS537.XV6

open Bytes

/-- `struct inode`, on the one device there is. -/
structure Inode extends Dinode where
  inum : Word
  ref : ℤ
  busy : Bool
  valid : Bool

/-! ## Extents -/

/-- `addrs[2k]`: base and length of extent `k`. -/
def Addrs.packed (addrs : Addrs) (k : Fin 6) : Word := addrs ⟨2 * k, by omega⟩

/-- `addrs[2k+1]`: the first logical block of extent `k`. -/
def Addrs.start (addrs : Addrs) (k : Fin 6) : Word := addrs ⟨2 * k + 1, by omega⟩

def Addrs.setPacked (addrs : Addrs) (k : Fin 6) (word : Word) : Addrs :=
  Function.update addrs ⟨2 * k, by omega⟩ word

def Addrs.setStart (addrs : Addrs) (k : Fin 6) (word : Word) : Addrs :=
  Function.update addrs ⟨2 * k + 1, by omega⟩ word

/-- `word & 0xFF` -/
def extentLength (word : Word) : Word := word &&& 0xFF

/-- `word >> 8` -/
def extentBase (word : Word) : Word := word >>> 8

/-- What the loop of `bmap` over the extents ends with: the address of the block, or the slots
that a new block may go to. -/
inductive Search where
  | found (addr : Word)
  | missed (fillBlock neighborBlock : Option (Fin 6))
deriving DecidableEq

/-- `bn >= ip->addrs[i+1] && bn < length + ip->addrs[i+1]` -/
def Addrs.covers (addrs : Addrs) (bn : Word) (k : Fin 6) : Bool :=
  addrs.start k ≤ bn && bn < extentLength (addrs.packed k) + addrs.start k

/-- `bn == length + ip->addrs[i+1]` -/
def Addrs.precedes (addrs : Addrs) (bn : Word) (k : Fin 6) : Bool :=
  bn == extentLength (addrs.packed k) + addrs.start k

/-- The address of a block inside extent `k`. -/
def Addrs.addrIn (addrs : Addrs) (bn : Word) (k : Fin 6) : Word :=
  extentBase (addrs.packed k) + (bn - addrs.start k)

def searchExtents (addrs : Addrs) (bn : Word) :
    List (Fin 6) → (fillBlock neighborBlock : Option (Fin 6)) → Search
  | [], fillBlock, neighborBlock => .missed fillBlock neighborBlock
  | k :: rest, fillBlock, neighborBlock =>
    let fillBlock := if fillBlock = none ∧ addrs.packed k = 0 then some k else fillBlock
    if addrs.covers bn k then .found (addrs.addrIn bn k)
    else if addrs.precedes bn k then searchExtents addrs bn rest fillBlock (some k)
    else searchExtents addrs bn rest fillBlock neighborBlock

/-- `addr == (ip->addrs[i] >> 8)+(ip->addrs[i] & 0xFF)` -/
def Addrs.adjoins (addrs : Addrs) (addr : Word) (k : Fin 6) : Bool :=
  addr == extentBase (addrs.packed k) + extentLength (addrs.packed k)

/-- The extent grows by one block. The length has no room for 256, and then the carry goes to the
base. -/
def Addrs.grow (addrs : Addrs) (k : Fin 6) : Addrs := addrs.setPacked k (addrs.packed k + 1)

/-- The extent becomes the one block `addr`, of which the packed word keeps 24 bits. -/
def Addrs.fill (addrs : Addrs) (k : Fin 6) (addr bn : Word) : Addrs :=
  (addrs.setPacked k ((addr <<< 8) + 1)).setStart k bn

/-- Record a new block: in the neighbor extent if the block adjoins it, else in the empty slot. -/
def Addrs.record (addrs : Addrs) (bn addr : Word) (fillBlock neighborBlock : Option (Fin 6)) :
    Option Addrs :=
  match neighborBlock.filter (addrs.adjoins addr) with
  | some k => some (addrs.grow k)
  | none => fillBlock.map fun k ↦ addrs.fill k addr bn

/-- The `T_EXTENT` branch of `bmap`. -/
def bmapExtent (disk : Disk) (addrs : Addrs) (bn : Word) : Option (Word × Addrs × Disk) :=
  match searchExtents addrs bn (List.finRange 6) none none with
  | .found addr => some (addr, addrs, disk)
  | .missed fillBlock neighborBlock => do
    let (addr, disk) ← balloc disk
    let addrs ← addrs.record bn addr fillBlock neighborBlock
    return (addr, addrs, disk)

/-! ## Pointers -/

/-- `((uint*)bp->data)[j]` for the buffer of block `b` -/
def Disk.entry (disk : Disk) (b : Word) (j : ℕ) : Word := load32 (disk.block b) (4 * j)

def Disk.setEntry (disk : Disk) (b : Word) (j : ℕ) (addr : Word) : Disk :=
  disk.setBlock b (store32 (disk.block b) (4 * j) addr)

/-- Load the indirect block, allocating if necessary. -/
def indirectBlock (disk : Disk) (addrs : Addrs) : Option (Word × Addrs × Disk) :=
  if addrs 12 = 0 then do
    let (addr, disk) ← balloc disk
    return (addr, Function.update addrs 12 addr, disk)
  else some (addrs 12, addrs, disk)

/-- Entry `j` of the indirect block, allocating if necessary. -/
def indirectEntry (disk : Disk) (indirect : Word) (j : ℕ) : Option (Word × Disk) :=
  if disk.entry indirect j = 0 then do
    let (addr, disk) ← balloc disk
    return (addr, disk.setEntry indirect j addr)
  else some (disk.entry indirect j, disk)

theorem lt_of_direct {bn : Word} (h : bn.toNat < 12) : bn.toNat < 13 := by omega

/-- The other branch of `bmap`. -/
def bmapPointer (disk : Disk) (addrs : Addrs) (bn : Word) : Option (Word × Addrs × Disk) :=
  if hdirect : bn.toNat < 12 then
    if addrs ⟨bn.toNat, lt_of_direct hdirect⟩ = 0 then do
      let (addr, disk) ← balloc disk
      return (addr, Function.update addrs ⟨bn.toNat, lt_of_direct hdirect⟩ addr, disk)
    else some (addrs ⟨bn.toNat, lt_of_direct hdirect⟩, addrs, disk)
  else if bn.toNat < 140 then do
    let (indirect, addrs, disk) ← indirectBlock disk addrs
    let (addr, disk) ← indirectEntry disk indirect (bn.toNat - 12)
    return (addr, addrs, disk)
  else none

/-- Return the disk block address of the nth block in inode `ip`. If there is no such block, `bmap`
allocates one; `none` is one of the panics "balloc: out of blocks" and "bmap: out of range". -/
def bmap (disk : Disk) (ip : Inode) (bn : Word) : Option (Word × Inode × Disk) := do
  let (addr, addrs, disk) ←
    if ip.type = .extent then bmapExtent disk ip.addrs bn else bmapPointer disk ip.addrs bn
  return (addr, { ip with addrs := addrs }, disk)

/-! ## Truncation -/

/-- Copy inode, which has changed, from memory to disk. -/
def iupdate (disk : Disk) (ip : Inode) : Disk :=
  { disk with dinode := Function.update disk.dinode ip.inum ip.toDinode }

/-- The blocks `base + j`, `j < length`, of an extent. -/
def Addrs.extentBlocks (addrs : Addrs) (k : Fin 6) : List Word :=
  (List.range (extentLength (addrs.packed k)).toNat).map fun j ↦
    extentBase (addrs.packed k) + BitVec.ofNat 32 j

/-- The block of a pointer, if the pointer is set. -/
def pointerBlock (addr : Word) : List Word := if addr = 0 then [] else [addr]

/-- The direct pointers that are set. -/
def Addrs.directBlocks (addrs : Addrs) : List Word :=
  (List.finRange 12).flatMap fun i ↦ pointerBlock (addrs i.castSucc)

/-- The entries of an indirect block that are set. -/
def Disk.entryBlocks (disk : Disk) (indirect : Word) : List Word :=
  (List.range 128).flatMap fun j ↦ pointerBlock (disk.entry indirect j)

/-- Both loops of the `T_EXTENT` branch of `itrunc`. They leave `addrs[12]` alone. -/
def itruncExtent (disk : Disk) (addrs : Addrs) : Option (Addrs × Disk) := do
  let disk ← bfreeAll disk ((List.finRange 6).flatMap addrs.extentBlocks)
  return (fun i ↦ if i = 12 then addrs i else 0, disk)

/-- The other branch of `itrunc`. An entry that names the indirect block itself would wait for its
buffer for ever; here the block is freed twice, and that is a panic. -/
def itruncPointer (disk : Disk) (addrs : Addrs) : Option (Addrs × Disk) := do
  let disk ← bfreeAll disk addrs.directBlocks
  let disk ← if addrs 12 = 0 then some disk else do
    let disk ← bfreeAll disk (disk.entryBlocks (addrs 12))
    bfree disk (addrs 12)
  return (fun _ ↦ 0, disk)

/-- Truncate inode (discard contents). -/
def itrunc (disk : Disk) (ip : Inode) : Option (Inode × Disk) := do
  let (addrs, disk) ←
    if ip.type = .extent then itruncExtent disk ip.addrs else itruncPointer disk ip.addrs
  let ip := { ip with addrs := addrs, size := 0 }
  return (ip, iupdate disk ip)

end OS537.XV6
