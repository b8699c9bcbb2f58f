import OS537.Base.Bytes
import OS537.Base.Scan
import Mathlib.Data.List.Nodup

/-!
# The disk of the extent file system

`5/xv6/fs.c` lays a disk out as superblock, inodes, bitmap and data blocks. The regions do not
meet, so a disk is a record with one field for each; a data block is the first `BSIZE` = 512 bytes
of its store. A function that can panic returns an `Option`, with `none` for the panic.
-/

namespace OS537.XV6

open Bytes

/-- The `type` of an inode: 0, `T_DIR`, `T_FILE`, `T_DEV` or `T_EXTENT`. -/
inductive FileType where
  | free
  | dir
  | file
  | dev
  | extent
deriving DecidableEq

/-- `uint addrs[NDIRECT+1]` -/
abbrev Addrs := Fin 13 → Word

instance neZeroAddrs : NeZero 13 := ⟨by decide⟩

/-- `struct dinode`, and the part of `struct inode` that is its copy. -/
structure Dinode where
  type : FileType
  major : BitVec 16
  minor : BitVec 16
  nlink : BitVec 16
  size : Word
  addrs : Addrs

/-- A dinode after `memset(dip, 0, sizeof(*dip))`. -/
def Dinode.zero : Dinode := ⟨.free, 0, 0, 0, 0, fun _ ↦ 0⟩

/-- The superblock's `size` and `ninodes`, the bitmap, the inodes and the data blocks. `balloc`
counts blocks in an `int`, `BPB` = 4096 at a time, and `size_fits` keeps that count in range. To
have the regions apart is right while the blocks that are handed out and freed are data blocks
below `size`: the disk is `Formatted`, and `balloc` finds its blocks below `size`. -/
@[ext]
structure Disk where
  size : ℕ
  ninodes : ℕ
  size_fits : size + 4096 ≤ 2 ^ 31
  used : Word → Bool
  dinode : Word → Dinode
  block : Word → Store

/-- The blocks before the data: boot block, superblock, inodes and bitmap. -/
def Disk.metadata (disk : Disk) : ℕ := disk.ninodes / 8 + 3 + (disk.size + 4095) / 4096

/-- A data block of the disk. -/
def Disk.InData (disk : Disk) (b : Word) : Prop :=
  disk.metadata ≤ b.toNat ∧ b.toNat < disk.size

/-- The metadata is marked as used. -/
def Disk.Formatted (disk : Disk) : Prop :=
  ∀ b : Word, b.toNat < disk.metadata → disk.used b = true

theorem Disk.Formatted.inData {disk : Disk} (h : disk.Formatted) {b : Word}
    (hlt : b.toNat < disk.size) (hclear : disk.used b = false) : disk.InData b := by
  refine ⟨Nat.le_of_not_lt fun hmeta ↦ ?_, hlt⟩
  rw [h b hmeta] at hclear
  cases hclear

def Disk.mark (disk : Disk) (b : Word) : Disk :=
  { disk with used := Function.update disk.used b true }

def Disk.setBlock (disk : Disk) (b : Word) (data : Store) : Disk :=
  { disk with block := Function.update disk.block b data }

/-- Zero a block. -/
def bzero (disk : Disk) (bno : Word) : Disk := disk.setBlock bno fun _ ↦ 0

/-- All bytes of the block are zero. -/
def Disk.ZeroBlock (disk : Disk) (b : Word) : Prop := ∀ i < 512, disk.block b i = 0

/-! ## Allocation -/

/-- The loop of `balloc` over the bitmap blocks, with the number of those that are left: the first
clear bit at or after `b`. -/
def Disk.scanBitmap (disk : Disk) : (blocks b : ℕ) → Option ℕ
  | 0, _ => none
  | blocks + 1, b =>
    match Scan.firstFrom (fun bit ↦ !disk.used (BitVec.ofNat 32 bit)) 4096 b with
    | some bit => some bit
    | none => disk.scanBitmap blocks (b + 4096)

/-- Allocate a disk block. The scan ends with a bitmap block and not with the disk, at the first
multiple of `BPB` that is not below `sb.size`. -/
def balloc (disk : Disk) : Option (Word × Disk) :=
  match disk.scanBitmap ((disk.size + 4095) / 4096) 0 with
  | some bit => some (BitVec.ofNat 32 bit, disk.mark (BitVec.ofNat 32 bit))
  | none => none

/-- Free a disk block; `none` is the panic "freeing free block". -/
def bfree (disk : Disk) (b : Word) : Option Disk :=
  let disk := bzero disk b
  if disk.used b then some { disk with used := Function.update disk.used b false } else none

/-! ## What allocation and freeing do -/

/-- The number of bits that `balloc` looks at. -/
def Disk.scanned (disk : Disk) : ℕ := (disk.size + 4095) / 4096 * 4096

theorem Disk.scanned_le (disk : Disk) : disk.scanned ≤ 2 ^ 31 := by
  have hfits := disk.size_fits
  unfold Disk.scanned
  omega

theorem Disk.size_le_scanned (disk : Disk) : disk.size ≤ disk.scanned := by
  unfold Disk.scanned
  omega

theorem Disk.scanBitmap_eq (disk : Disk) (blocks b : ℕ) :
    disk.scanBitmap blocks b =
      Scan.firstFrom (fun bit ↦ !disk.used (BitVec.ofNat 32 bit)) (blocks * 4096) b := by
  induction blocks generalizing b with
  | zero => rfl
  | succ blocks ih =>
    have hlength : (blocks + 1) * 4096 = 4096 + blocks * 4096 := by ring
    rw [Disk.scanBitmap, hlength, Scan.firstFrom_add, ← ih]
    cases Scan.firstFrom (fun bit ↦ !disk.used (BitVec.ofNat 32 bit)) 4096 b <;> rfl

/-- The block that `balloc` hands out next: the lowest one whose bit is clear. -/
structure Disk.NextFree (disk : Disk) (b : Word) : Prop where
  scanned : b.toNat < disk.scanned
  clear : disk.used b = false
  lowest : ∀ other : Word, other.toNat < b.toNat → disk.used other = true

theorem Disk.NextFree.unique {disk : Disk} {b other : Word} (h : disk.NextFree b)
    (hother : disk.NextFree other) : b = other := by
  rcases Nat.lt_trichotomy b.toNat other.toNat with hlt | heq | hlt
  · have hused := hother.lowest b hlt
    rw [h.clear] at hused
    contradiction
  · exact BitVec.eq_of_toNat_eq heq
  · have hused := h.lowest other hlt
    rw [hother.clear] at hused
    contradiction

theorem Disk.scan_eq_some_iff (disk : Disk) {b : Word} :
    Scan.first (fun bit ↦ !disk.used (BitVec.ofNat 32 bit)) disk.scanned = some b.toNat ↔
      disk.NextFree b := by
  have hle := disk.scanned_le
  rw [Scan.first_eq_some_iff]
  constructor
  · rintro ⟨hlt, hhit, hbefore⟩
    refine ⟨hlt, by simpa using hhit, fun other hother ↦ ?_⟩
    simpa using hbefore other.toNat hother
  · intro h
    refine ⟨h.scanned, by simpa using h.clear, fun j hj ↦ ?_⟩
    have hlt : j < 2 ^ 32 := by
      have := h.scanned
      omega
    have htoNat : (BitVec.ofNat 32 j).toNat = j := by
      rw [BitVec.toNat_ofNat, Nat.mod_eq_of_lt hlt]
    simpa using h.lowest (BitVec.ofNat 32 j) (by rwa [htoNat])

theorem balloc_eq_some_iff {disk disk' : Disk} {b : Word} :
    balloc disk = some (b, disk') ↔ disk.NextFree b ∧ disk' = disk.mark b := by
  have hscan : disk.scanBitmap ((disk.size + 4095) / 4096) 0 =
      Scan.first (fun bit ↦ !disk.used (BitVec.ofNat 32 bit)) disk.scanned :=
    disk.scanBitmap_eq _ 0
  unfold balloc
  rw [hscan]
  cases hfirst : Scan.first (fun bit ↦ !disk.used (BitVec.ofNat 32 bit)) disk.scanned with
  | none =>
    simp only [reduceCtorEq, false_iff, not_and]
    intro h
    rw [disk.scan_eq_some_iff.mpr h] at hfirst
    contradiction
  | some bit =>
    have hlt : bit < 2 ^ 32 := by
      have := (Scan.first_eq_some_iff.mp hfirst).1
      have := disk.scanned_le
      omega
    have htoNat : (BitVec.ofNat 32 bit).toNat = bit := by
      rw [BitVec.toNat_ofNat, Nat.mod_eq_of_lt hlt]
    have hfound : disk.NextFree (BitVec.ofNat 32 bit) := by
      rw [← disk.scan_eq_some_iff, htoNat, hfirst]
    simp only [Option.some.injEq, Prod.mk.injEq]
    constructor
    · rintro ⟨rfl, rfl⟩
      exact ⟨hfound, rfl⟩
    · rintro ⟨h, rfl⟩
      rw [h.unique hfound]
      exact ⟨rfl, rfl⟩

/-- The block number that `balloc` returns. -/
def Disk.nextFree (disk : Disk) : Option Word := (balloc disk).map Prod.fst

theorem Disk.nextFree_eq_some_iff {disk : Disk} {b : Word} :
    disk.nextFree = some b ↔ disk.NextFree b := by
  simp [Disk.nextFree, Option.map_eq_some_iff, balloc_eq_some_iff]

/-- The clear bits of `new` are set from one disk to the other, and no other bit changes. -/
structure Takes (disk disk' : Disk) (new : List Word) : Prop where
  nodup : new.Nodup
  clear : ∀ b ∈ new, disk.used b = false
  used_iff : ∀ b, disk'.used b = true ↔ b ∈ new ∨ disk.used b = true
  dinode : disk'.dinode = disk.dinode
  size : disk'.size = disk.size

theorem Takes.nil (disk : Disk) : Takes disk disk [] :=
  ⟨List.nodup_nil, by simp, by simp, rfl, rfl⟩

theorem Takes.mark {disk : Disk} {b : Word} (h : disk.NextFree b) :
    Takes disk (disk.mark b) [b] := by
  refine ⟨List.nodup_singleton b, by simpa using h.clear, fun other ↦ ?_, rfl, rfl⟩
  by_cases hb : other = b <;> simp [Disk.mark, hb]

theorem Takes.trans {disk disk₁ disk₂ : Disk} {first second : List Word}
    (h : Takes disk disk₁ first) (h' : Takes disk₁ disk₂ second) :
    Takes disk disk₂ (second ++ first) where
  nodup := by
    refine h'.nodup.append h.nodup fun b hsecond hfirst ↦ ?_
    have hused := (h.used_iff b).mpr (.inl hfirst)
    rw [h'.clear b hsecond] at hused
    contradiction
  clear b hmem := by
    rcases List.mem_append.mp hmem with hsecond | hfirst
    · have hclear := h'.clear b hsecond
      rw [← Bool.not_eq_true] at hclear ⊢
      exact fun hused ↦ hclear ((h.used_iff b).mpr (.inr hused))
    · exact h.clear b hfirst
  used_iff b := by
    rw [h'.used_iff, h.used_iff, List.mem_append, or_assoc]
  dinode := h'.dinode.trans h.dinode
  size := h'.size.trans h.size

@[simp]
theorem Disk.mark_used (disk : Disk) (b : Word) :
    (disk.mark b).used = Function.update disk.used b true := rfl

@[simp]
theorem Disk.mark_block (disk : Disk) (b : Word) : (disk.mark b).block = disk.block := rfl

@[simp]
theorem Disk.mark_dinode (disk : Disk) (b : Word) : (disk.mark b).dinode = disk.dinode := rfl

@[simp]
theorem Disk.mark_size (disk : Disk) (b : Word) : (disk.mark b).size = disk.size := rfl

@[simp]
theorem Disk.setBlock_used (disk : Disk) (b : Word) (data : Store) :
    (disk.setBlock b data).used = disk.used := rfl

@[simp]
theorem Disk.setBlock_block (disk : Disk) (b : Word) (data : Store) :
    (disk.setBlock b data).block = Function.update disk.block b data := rfl

@[simp]
theorem Disk.setBlock_dinode (disk : Disk) (b : Word) (data : Store) :
    (disk.setBlock b data).dinode = disk.dinode := rfl

@[simp]
theorem Disk.setBlock_size (disk : Disk) (b : Word) (data : Store) :
    (disk.setBlock b data).size = disk.size := rfl

/-- A block whose bit is set, and no other, becomes free and zero. -/
def Disk.freed (disk : Disk) (b : Word) : Disk :=
  { disk with
    used := Function.update disk.used b false
    block := Function.update disk.block b fun _ ↦ 0 }

theorem bfree_eq_some_iff {disk disk' : Disk} {b : Word} :
    bfree disk b = some disk' ↔ disk.used b = true ∧ disk' = disk.freed b := by
  have hfree : bfree disk b = if disk.used b then some (disk.freed b) else none := rfl
  rw [hfree]
  by_cases hused : disk.used b = true <;> simp [hused, eq_comm]

/-- `bfree` for each block of a list, in order. -/
def bfreeAll (disk : Disk) : List Word → Option Disk
  | [] => some disk
  | b :: rest => (bfree disk b).bind fun disk ↦ bfreeAll disk rest

@[simp]
theorem Disk.freed_used (disk : Disk) (b : Word) :
    (disk.freed b).used = Function.update disk.used b false := rfl

/-- The disk after the blocks of a list have become free. -/
def Disk.freedAll (disk : Disk) (blocks : List Word) : Disk :=
  { disk with
    used := fun b ↦ if b ∈ blocks then false else disk.used b
    block := fun b ↦ if b ∈ blocks then fun _ ↦ 0 else disk.block b }

theorem Disk.freedAll_nil (disk : Disk) : disk.freedAll [] = disk := rfl

theorem Disk.freedAll_cons (disk : Disk) (b : Word) (rest : List Word) :
    (disk.freed b).freedAll rest = disk.freedAll (b :: rest) := by
  ext1
  case used =>
    funext other
    by_cases hb : other = b <;> simp [Disk.freedAll, hb]
  case block =>
    funext other
    by_cases hb : other = b <;> simp [Disk.freedAll, Disk.freed, hb]
  all_goals rfl

/-- Freeing a list succeeds exactly when every block of it is in use and occurs once. -/
theorem bfreeAll_eq_some_iff {disk disk' : Disk} {blocks : List Word} :
    bfreeAll disk blocks = some disk' ↔
      blocks.Nodup ∧ (∀ b ∈ blocks, disk.used b = true) ∧ disk' = disk.freedAll blocks := by
  induction blocks generalizing disk with
  | nil =>
    simp only [bfreeAll, Option.some.injEq, List.nodup_nil, List.not_mem_nil, false_imp_iff,
      implies_true, true_and, Disk.freedAll_nil]
    exact eq_comm
  | cons b rest ih =>
    simp only [bfreeAll, Option.bind_eq_some_iff, bfree_eq_some_iff, List.nodup_cons,
      List.forall_mem_cons]
    constructor
    · rintro ⟨-, ⟨hused, rfl⟩, hfree⟩
      obtain ⟨hnodup, hrest, hdisk⟩ := ih.mp hfree
      have hnotMem : b ∉ rest := by
        intro hmem
        have hclear := hrest b hmem
        simp at hclear
      refine ⟨⟨hnotMem, hnodup⟩, ⟨hused, fun other hother ↦ ?_⟩,
        hdisk.trans (disk.freedAll_cons b rest)⟩
      have hne : other ≠ b := fun h ↦ hnotMem (h ▸ hother)
      have hstill := hrest other hother
      rwa [Disk.freed_used, Function.update_of_ne hne] at hstill
    · rintro ⟨⟨hnotMem, hnodup⟩, ⟨hused, hrest⟩, hdisk⟩
      refine ⟨disk.freed b, ⟨hused, rfl⟩, ih.mpr ⟨hnodup, fun other hother ↦ ?_, ?_⟩⟩
      · have hne : other ≠ b := fun h ↦ hnotMem (h ▸ hother)
        rw [Disk.freed_used, Function.update_of_ne hne]
        exact hrest other hother
      · exact hdisk.trans (disk.freedAll_cons b rest).symm

theorem bfreeAll_append (disk : Disk) (first second : List Word) :
    bfreeAll disk (first ++ second) =
      (bfreeAll disk first).bind fun disk ↦ bfreeAll disk second := by
  induction first generalizing disk with
  | nil => rfl
  | cons b rest ih =>
    rw [List.cons_append, bfreeAll, bfreeAll, Option.bind_assoc]
    congr 1
    funext next
    exact ih next

end OS537.XV6
