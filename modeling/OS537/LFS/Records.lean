import OS537.Base.Posix
import OS537.Base.Scan

/-!
# On-disk records of the log-structured file system

The records of `6/lfsi.h` with their byte layout: inodes, directory entries, chunks of the inode
map and the checkpoint region. All their fields are 32-bit `int`s, so a record in memory and its
bytes on disk determine each other; the round trips proved here are all that the later modules
use of the layout.
-/

namespace OS537.LFS

open Bytes

abbrev lfsDirectory : Word := 0
abbrev lfsRegularFile : Word := 1
abbrev lfsBlockSize : ℕ := 4096
abbrev ndirect : ℕ := 14
abbrev imapChunkSize : ℕ := 16
abbrev inodeSize : ℕ := 64
abbrev chunkSize : ℕ := 64
abbrev crSize : ℕ := 1028
abbrev dirEntries : ℕ := 128
abbrev dirEntSize : ℕ := 32

instance neZeroDirect : NeZero ndirect := ⟨by decide⟩

/-- There are 4096 inodes. -/
instance neZeroInodes : NeZero 4096 := ⟨by decide⟩

/-- There are 256 chunks. -/
instance neZeroChunks : NeZero 256 := ⟨by decide⟩

/-- The sizes in bytes, for arithmetic about positions. -/
theorem record_sizes : inodeSize = 64 ∧ chunkSize = 64 ∧ lfsBlockSize = 4096 ∧ crSize = 1028 :=
  ⟨rfl, rfl, rfl, rfl⟩

/-- A C string: its characters, none of which is the terminating NUL. -/
structure CString where
  chars : List Byte
  no_nul : ∀ char ∈ chars, char ≠ 0

/-! ## Inodes -/

/-- `inode_t` -/
structure Inode where
  size : Word
  type : Word
  direct : Fin ndirect → Word

def Inode.words (node : Inode) : ℕ → Word
  | 0 => node.size
  | 1 => node.type
  | j + 2 => if h : j < ndirect then node.direct ⟨j, h⟩ else 0

def Inode.toBytes (node : Inode) : Store := wordBytes node.words

/-- The inode whose record stands at `addr`. -/
def Inode.ofBytes (store : Store) (addr : ℕ) : Inode where
  size := load32 store addr
  type := load32 store (addr + 4)
  direct j := load32 store (addr + (8 + 4 * j))

def Inode.setDirect (node : Inode) (block : Fin ndirect) (value : Word) : Inode :=
  { node with direct := Function.update node.direct block value }

theorem Inode.ofBytes_congr {first second : Store} {addr addr' : ℕ}
    (h : ∀ i < inodeSize, first (addr + i) = second (addr' + i)) :
    Inode.ofBytes first addr = Inode.ofBytes second addr' := by
  have hword (i : ℕ) (hi : i + 4 ≤ inodeSize) :
      load32 first (addr + i) = load32 second (addr' + i) := by
    rw [load32, load32]
    congr 1
    apply loadLE_congr
    intro j hj
    rw [Nat.add_assoc, Nat.add_assoc]
    exact h (i + j) (by omega)
  have hdirect : (fun j : Fin ndirect ↦ load32 first (addr + (8 + 4 * j))) =
      fun j : Fin ndirect ↦ load32 second (addr' + (8 + 4 * j)) := by
    funext j
    have hj := j.isLt
    simp only [ndirect] at hj
    exact hword (8 + 4 * j) (by simp only [inodeSize]; omega)
  simp only [Inode.ofBytes, hdirect, Inode.mk.injEq, and_true]
  exact ⟨hword 0 (by decide), hword 4 (by decide)⟩

theorem Inode.ofBytes_toBytes (node : Inode) : Inode.ofBytes node.toBytes 0 = node := by
  have hword (k : ℕ) : load32 node.toBytes (4 * k) = node.words k :=
    load32_wordBytes node.words k
  have hdirect : (fun j : Fin ndirect ↦ load32 node.toBytes (0 + (8 + 4 * j))) = node.direct := by
    funext j
    have haddr : 0 + (8 + 4 * (j : ℕ)) = 4 * (j + 2) := by omega
    rw [haddr, hword]
    simp [Inode.words]
  obtain ⟨size, type, direct⟩ := node
  simp only [Inode.ofBytes, hdirect, Inode.mk.injEq, and_true]
  exact ⟨hword 0, hword 1⟩

/-! ## Inode map and checkpoint region -/

/-- The global `inodes`: the offset of every inode record, or -1. -/
abbrev InodeMap := Fin 4096 → Word

/-- The words of `inodes[16 * chunk ..]`. -/
def chunkWords (inodes : InodeMap) (chunk : Fin 256) (j : ℕ) : Word :=
  if h : imapChunkSize * chunk + j < 4096 then inodes ⟨imapChunkSize * chunk + j, h⟩ else 0

def chunkBytes (inodes : InodeMap) (chunk : Fin 256) : Store :=
  wordBytes (chunkWords inodes chunk)

/-- `imap_chunk_t` read over `inodes[16 * chunk ..]`. -/
def loadChunk (inodes : InodeMap) (chunk : Fin 256) (store : Store) (addr : ℕ) : InodeMap :=
  fun i ↦ if (i : ℕ) / imapChunkSize = chunk then load32 store (addr + 4 * (i % imapChunkSize))
    else inodes i

theorem load32_chunkBytes (inodes : InodeMap) (i : Fin 4096) (chunk : Fin 256)
    (h : (i : ℕ) / imapChunkSize = chunk) :
    load32 (chunkBytes inodes chunk) (4 * (i % imapChunkSize)) = inodes i := by
  have hi : imapChunkSize * (chunk : ℕ) + i % imapChunkSize = i := by
    rw [← h]
    exact Nat.div_add_mod _ _
  rw [chunkBytes, load32_wordBytes, chunkWords]
  simp only [hi, i.isLt, dite_true]

/-- `cr_t` -/
structure Checkpoint where
  endPos : Word
  chunks : Fin 256 → Word

def Checkpoint.words (cr : Checkpoint) : ℕ → Word
  | 0 => cr.endPos
  | k + 1 => if h : k < 256 then cr.chunks ⟨k, h⟩ else 0

def Checkpoint.toBytes (cr : Checkpoint) : Store := wordBytes cr.words

def Checkpoint.ofBytes (store : Store) : Checkpoint where
  endPos := load32 store 0
  chunks k := load32 store (4 * (k + 1))

def Checkpoint.setChunk (cr : Checkpoint) (chunk : Fin 256) (value : Word) : Checkpoint :=
  { cr with chunks := Function.update cr.chunks chunk value }

theorem Checkpoint.ofBytes_congr {first second : Store} (h : AgreeOn first second 0 crSize) :
    Checkpoint.ofBytes first = Checkpoint.ofBytes second := by
  have hword (k : ℕ) (hk : k < 257) : load32 first (4 * k) = load32 second (4 * k) :=
    h.load32_eq (Nat.zero_le _) (by simp only [crSize]; omega)
  have hchunks : (fun k : Fin 256 ↦ load32 first (4 * (k + 1))) =
      fun k : Fin 256 ↦ load32 second (4 * (k + 1)) := by
    funext k
    exact hword (k + 1) (by omega)
  simp only [Checkpoint.ofBytes, hchunks, Checkpoint.mk.injEq, and_true]
  exact hword 0 (by decide)

theorem Checkpoint.ofBytes_toBytes (cr : Checkpoint) : Checkpoint.ofBytes cr.toBytes = cr := by
  have hword (k : ℕ) : load32 cr.toBytes (4 * k) = cr.words k := load32_wordBytes cr.words k
  have hchunks : (fun k : Fin 256 ↦ load32 cr.toBytes (4 * (k + 1))) = cr.chunks := by
    funext k
    rw [hword]
    simp [Checkpoint.words]
  obtain ⟨endPos, chunks⟩ := cr
  simp only [Checkpoint.ofBytes, hchunks, Checkpoint.mk.injEq, and_true]
  exact hword 0

/-! ## Directory blocks -/

/-- `dir_block[i].inum` -/
def entryInum (dirBlock : Store) (i : ℕ) : Word := load32 dirBlock (dirEntSize * i + 28)

/-- `strcmp` of the string at `addr` with `name` gives 0. -/
def strcmpEq (store : Store) : (addr : ℕ) → List Byte → Bool
  | addr, [] => store addr == 0
  | addr, char :: rest => store addr == char && strcmpEq store (addr + 1) rest

/-- `strcmp(dir_block[i].name, name) == 0` -/
def entryNamed (dirBlock : Store) (name : CString) (i : ℕ) : Bool :=
  strcmpEq dirBlock (dirEntSize * i) name.chars

/-- `strcpy(store + addr, name)` -/
def strcpy (store : Store) (addr : ℕ) (name : CString) : Store :=
  splice store addr (name.chars.length + 1) fun i ↦ name.chars.getD i 0

/-- `dir_block[i].inum = inum` -/
def setEntryInum (dirBlock : Store) (i : ℕ) (inum : Word) : Store :=
  store32 dirBlock (dirEntSize * i + 28) inum

/-- A slot filled with a name and an inode number. -/
def setEntry (dirBlock : Store) (i : ℕ) (name : CString) (inum : Word) : Store :=
  setEntryInum (strcpy dirBlock (dirEntSize * i) name) i inum

end OS537.LFS
