import OS537.LFS.TreeRuns

/-!
# What a read depends on

`get_block` does not look for the address -1 of a block that was never written: the seek fails and
the read goes on at the file offset, wherever earlier reads have left it. (The earlier `fsi.c` has
the check.) A read of an allocated block and a search that stays in allocated blocks depend on the
record of the inode and its blocks only; others depend on what follows in the log, and a search also
on the buffer, of which a short read leaves the rest.
-/

namespace OS537.LFS

open Bytes Code Posix

variable {server first second : Server} {inum : Fin 4096} {name : CString}

/-- Both images hold the same record of `n` bytes at `pos`. -/
structure SameRecord (first second : File) (pos : Word) (n : ℕ) : Prop where
  nonneg : pos.toNat < 2 ^ 31
  fits : pos.toNat + n ≤ first.size
  fits_other : pos.toNat + n ≤ second.size
  bytes : AgreeOn second.bytes first.bytes pos.toNat (pos.toNat + n)

/-- Both servers have the same inode record of `inum` and the same allocated blocks. -/
structure SameFile (inum : Fin 4096) (first second : Server) : Prop where
  position : second.inodes inum = first.inodes inum
  record : first.inodes inum ≠ -1 →
    SameRecord first.image second.image (first.inodes inum) inodeSize
  block : first.inodes inum ≠ -1 → ∀ j, (first.inodeRecord inum).direct j ≠ -1 →
    SameRecord first.image second.image ((first.inodeRecord inum).direct j) lfsBlockSize

/-- The block is one that was written. -/
def Server.Written (server : Server) (inum : Fin 4096) (j : Fin ndirect) : Prop :=
  server.inodes inum ≠ -1 ∧ (server.inodeRecord inum).direct j ≠ -1

/-- The bytes at the address of block `k` of the inode. -/
def blockContent (image : File) (node : Inode) (k : ℕ) : Store := fun i ↦
  image.bytes ((if h : k < ndirect then node.direct ⟨k, h⟩ else 0).toNat + i)

/-- `fsi_read` of the block depends on the file only, and fails if the block was never written. -/
structure ReadsOwn (server : Server) (inum : Fin 4096) (j : Fin ndirect) : Prop where
  same : ∀ other, SameFile inum server other → ∀ buffer node node', ∃ result next next',
    fsiRead ((inum : ℕ) : ℤ) buffer ((j : ℕ) : ℤ) node server = some (result, next) ∧
      fsiRead ((inum : ℕ) : ℤ) buffer ((j : ℕ) : ℤ) node' other = some (result, next')
  unwritten : ¬ server.Written inum j → ∀ buffer node, ∃ found next,
    fsiRead ((inum : ℕ) : ℤ) buffer ((j : ℕ) : ℤ) node server = some ((-1, found), next)

/-- `fsi_lookup` of the name depends on the file only, and fails if no allocated block holds it. -/
structure LooksUpOwn (server : Server) (inum : Fin 4096) (name : CString) : Prop where
  same : ∀ other, SameFile inum server other → ∀ frame frame', ∃ result next next',
    fsiLookup ((inum : ℕ) : ℤ) name frame server = some (result, next) ∧
      fsiLookup ((inum : ℕ) : ℤ) name frame' other = some (result, next')
  absent : (∀ j, server.Written inum j → Scan.first (entryNamed
      (blockContent server.image (server.inodeRecord inum) j) name) dirEntries = none) →
    ∀ frame, ∃ next, fsiLookup ((inum : ℕ) : ℤ) name frame server = some (-1, next)

/-! ## Allocated blocks -/

theorem SameFile.inodeRecord_eq (h : SameFile inum first second) (hinum : first.inodes inum ≠ -1) :
    second.inodeRecord inum = first.inodeRecord inum := by
  unfold Server.inodeRecord
  rw [h.position]
  apply Inode.ofBytes_congr
  intro i hi
  exact (h.record hinum).bytes _ (Nat.le_add_right _ _) (by omega)

theorem SameFile.inodeIs (h : SameFile inum first second) (hinum : first.inodes inum ≠ -1) :
    InodeIs first inum (first.inodeRecord inum) ∧ InodeIs second inum (first.inodeRecord inum) := by
  have hrecord := h.record hinum
  refine ⟨⟨hrecord.nonneg, hrecord.fits, rfl⟩, ?_, ?_, h.inodeRecord_eq hinum⟩
  · rw [h.position]
    exact hrecord.nonneg
  · rw [h.position]
    exact hrecord.fits_other

theorem fsiRead_unallocated (hinum : server.inodes inum = -1) (buffer : Store) (block : ℤ)
    (node : Store) :
    fsiRead ((inum : ℕ) : ℤ) buffer block node server = some ((-1, buffer), server) := by
  unfold fsiRead
  rw [bind_run (getInode_unallocated node hinum)]
  rfl

theorem fsiLookup_unallocated (hinum : server.inodes inum = -1) (frame : LookupFrame) :
    fsiLookup ((inum : ℕ) : ℤ) name frame server = some (-1, server) := by
  unfold fsiLookup
  rw [bind_run (getInode_unallocated frame.node hinum)]
  rfl

/-! ## Searching -/

/-- What `fsi_lookup` finds in the blocks from `block` on. -/
def searchBlocks (content : ℕ → Store) (name : CString) : (fuel block : ℕ) → ℤ
  | 0, _ => -1
  | fuel + 1, block =>
    match Scan.first (entryNamed (content block) name) dirEntries with
    | some i => (entryInum (content block) i).toInt
    | none => searchBlocks content name fuel (block + 1)

/-- The search that starts at `block` gets to block `k`: the name does not stand before it. -/
def Reaches (content : ℕ → Store) (name : CString) (block k : ℕ) : Prop :=
  ∀ m, block ≤ m → m < k → Scan.first (entryNamed (content m) name) dirEntries = none

theorem Reaches.step {content : ℕ → Store} {block k : ℕ} (h : Reaches content name (block + 1) k)
    (hhere : Scan.first (entryNamed (content block) name) dirEntries = none) :
    Reaches content name block k := by
  intro m hm hlt
  rcases Nat.eq_or_lt_of_le hm with heq | hgt
  · rwa [← heq]
  · exact h m hgt hlt

theorem searchBlocks_congr {content other : ℕ → Store} (hname : name.Fits) {fuel block : ℕ}
    (h : ∀ k, block ≤ k → k < block + fuel → Reaches content name block k →
      AgreeOn (other k) (content k) 0 lfsBlockSize) :
    searchBlocks other name fuel block = searchBlocks content name fuel block := by
  induction fuel generalizing block with
  | zero => rfl
  | succ fuel ih =>
    have hhere := h block le_rfl (by omega) fun m hm hlt ↦ absurd hlt (not_lt.mpr hm)
    rw [searchBlocks, searchBlocks, first_entryNamed_congr hhere hname]
    cases hfirst : Scan.first (entryNamed (content block) name) dirEntries with
    | none => exact ih fun k hlow hhigh hk ↦ h k (by omega) (by omega) (hk.step hfirst)
    | some i =>
      have hi : i < dirEntries := (Scan.first_eq_some_iff.mp hfirst).1
      dsimp only
      rw [entryInum_congr (AgreeOn.slot hhere hi)]

theorem searchBlocks_absent {content : ℕ → Store} {fuel block : ℕ}
    (h : ∀ k, block ≤ k → k < block + fuel → Reaches content name block k →
      Scan.first (entryNamed (content k) name) dirEntries = none) :
    searchBlocks content name fuel block = -1 := by
  induction fuel generalizing block with
  | zero => rfl
  | succ fuel ih =>
    have hhere := h block le_rfl (by omega) fun m hm hlt ↦ absurd hlt (not_lt.mpr hm)
    rw [searchBlocks, hhere]
    exact ih fun k hlow hhigh hk ↦ h k (by omega) (by omega) (hk.step hhere)

/-- The search for the name ends in slot `slot` of block `k`. -/
structure FoundAt (content : ℕ → Store) (name : CString) (block k slot : ℕ) : Prop where
  reaches : Reaches content name block k
  first : Scan.first (entryNamed (content k) name) dirEntries = some slot

theorem FoundAt.searchBlocks_eq {content : ℕ → Store} {fuel block k slot : ℕ}
    (h : FoundAt content name block k slot) (hlow : block ≤ k) (hhigh : k < block + fuel) :
    searchBlocks content name fuel block = (entryInum (content k) slot).toInt := by
  induction fuel generalizing block with
  | zero => omega
  | succ fuel ih =>
    rw [searchBlocks]
    rcases Nat.eq_or_lt_of_le hlow with rfl | hlt
    · rw [h.first]
    · rw [h.reaches block le_rfl hlt]
      exact ih ⟨fun m hm ↦ h.reaches m (by omega), h.first⟩ hlt (by omega)

theorem blockContent_fin (image : File) (node : Inode) (j : Fin ndirect) :
    blockContent image node (j : ℕ) = fun i ↦ image.bytes ((node.direct j).toNat + i) := by
  unfold blockContent
  rw [dif_pos j.isLt]

theorem blockAt_blockContent {image : File} {node : Inode} {j : Fin ndirect}
    (h : (node.direct j).toNat + lfsBlockSize ≤ image.size) :
    BlockAt image (node.direct j).toNat (blockContent image node j) := by
  rw [blockContent_fin]
  exact ⟨h, fun _ _ ↦ rfl⟩

/-! ## What the blocks of a search deliver -/

/-- What a search carries from block to block. -/
structure Reader where
  offset : ℕ
  buffer : Store

/-- `get_block` of block `k`. -/
def Reader.read (image : File) (node : Inode) (reader : Reader) (k : Fin ndirect) : Reader where
  offset := origin reader.offset (node.direct k) +
    image.available (origin reader.offset (node.direct k)) lfsBlockSize
  buffer := image.pread (origin reader.offset (node.direct k)) lfsBlockSize reader.buffer

/-- The reader after the blocks before `k`. -/
def Reader.before (image : File) (node : Inode) (reader : Reader) : (k : ℕ) → Reader
  | 0 => reader
  | k + 1 =>
    if h : k < ndirect then (reader.before image node k).read image node ⟨k, h⟩
    else reader.before image node k

/-- The block that a search starting with `reader` sees as block `k`. -/
def delivered (image : File) (node : Inode) (reader : Reader) (k : ℕ) : Store :=
  (reader.before image node (k + 1)).buffer

/-- The server as the reader has left it. -/
def Server.at (server : Server) (reader : Reader) : Server := server.seek reader.offset

theorem getBlock_delivers (server : Server) (node : Inode) (reader : Reader) (k : Fin ndirect) :
    ∃ count : ℕ, getBlock node reader.buffer ((k : ℕ) : ℤ) (server.at reader) =
      some (((count : ℤ), (reader.read server.image node k).buffer),
        server.at (reader.read server.image node k)) :=
  ⟨_, getBlock_eq reader.buffer rfl⟩

theorem Reader.before_succ (image : File) (node : Inode) (reader : Reader) (k : Fin ndirect) :
    reader.before image node (k + 1) = (reader.before image node k).read image node k :=
  dif_pos k.isLt

theorem fsiRead_delivers {record : Inode} (hnode : InodeIs server inum record) (j : Fin ndirect)
    (buffer node : Store) :
    ∃ next, fsiRead ((inum : ℕ) : ℤ) buffer ((j : ℕ) : ℤ) node server = some ((0, (Reader.read
      server.image record ⟨(server.inodes inum).toNat + inodeSize, buffer⟩ j).buffer), next) := by
  obtain ⟨count, hblock⟩ : ∃ count : ℕ, getBlock record buffer ((j : ℕ) : ℤ)
      (server.seek ((server.inodes inum).toNat + inodeSize)) = some (((count : ℤ), _), _) :=
    getBlock_delivers server record ⟨(server.inodes inum).toNat + inodeSize, buffer⟩ j
  unfold fsiRead
  rw [bind_run (getInode_run node hnode)]
  dsimp only
  rw [if_neg (by decide), bind_run hblock]
  dsimp only
  rw [if_neg (by omega)]
  exact ⟨_, rfl⟩

theorem fsiRead_written {record : Inode} {j : Fin ndirect} (hnode : InodeIs server inum record)
    (hnonneg : (record.direct j).toNat < 2 ^ 31) (buffer node : Store) :
    ∃ next, fsiRead ((inum : ℕ) : ℤ) buffer ((j : ℕ) : ℤ) node server =
      some ((0, server.image.pread (record.direct j).toNat lfsBlockSize buffer), next) := by
  obtain ⟨next, hread⟩ := fsiRead_delivers hnode j buffer node
  rw [Reader.read, origin_of_lt hnonneg] at hread
  exact ⟨next, hread⟩

/-- A block of the log is delivered as it stands there. -/
theorem delivered_allocated (reader : Reader) {image : File} {node : Inode} {k : Fin ndirect}
    {content : Store} (hpos : (node.direct k).toNat < 2 ^ 31)
    (h : BlockAt image (node.direct k).toNat content) :
    AgreeOn (delivered image node reader k) content 0 lfsBlockSize := by
  rw [delivered, Reader.before_succ, Reader.read, origin_of_lt hpos]
  exact h.pread _

/-- The loop of `fsi_lookup` searches the blocks that are delivered. -/
theorem lookupBlocks_delivers (reader : Reader) (server : Server) (node : Inode) {fuel block : ℕ}
    (hfuel : block + fuel = ndirect) :
    ∃ next, lookupBlocks node name fuel block (reader.before server.image node block).buffer
        (server.at (reader.before server.image node block)) =
      some (searchBlocks (delivered server.image node reader) name fuel block, next) := by
  induction fuel generalizing block with
  | zero => exact ⟨_, rfl⟩
  | succ fuel ih =>
    have hlt : block < ndirect := by omega
    obtain ⟨count, hrun⟩ :=
      getBlock_delivers server node (reader.before server.image node block) ⟨block, hlt⟩
    rw [← reader.before_succ server.image node ⟨block, hlt⟩] at hrun
    have hcount : ¬ (count : ℤ) = -1 := by omega
    have hdelivered : delivered server.image node reader block =
        (reader.before server.image node (block + 1)).buffer := rfl
    rw [lookupBlocks, bind_run hrun, searchBlocks, hdelivered]
    dsimp only
    rw [if_neg hcount]
    cases Scan.first (entryNamed (reader.before server.image node (block + 1)).buffer name)
      dirEntries with
    | some i => exact ⟨_, rfl⟩
    | none => exact ih (by omega)

/-- What a search for a name starts with. -/
def Server.reader (server : Server) (inum : Fin 4096) (frame : LookupFrame) : Reader :=
  ⟨(server.inodes inum).toNat + inodeSize, frame.dirBlock⟩

theorem fsiLookup_delivers {record : Inode} (hnode : InodeIs server inum record) (name : CString)
    (frame : LookupFrame) :
    ∃ next, fsiLookup ((inum : ℕ) : ℤ) name frame server =
      some (if record.type = lfsDirectory then
        searchBlocks (delivered server.image record (server.reader inum frame)) name ndirect 0
        else -1, next) := by
  by_cases htype : record.type = lfsDirectory
  · obtain ⟨next, hnext⟩ := lookupBlocks_delivers (server.reader inum frame) server record
      (Nat.zero_add ndirect)
    refine ⟨next, ?_⟩
    unfold fsiLookup
    rw [bind_run (getInode_run frame.node hnode)]
    dsimp only
    rw [if_neg (by decide), if_neg (not_not.mpr htype), if_pos htype]
    exact hnext
  · rw [if_neg htype]
    exact ⟨_, fsiLookup_not_directory name frame hnode htype⟩

/-- A lookup that stays in allocated blocks. -/
theorem fsiLookup_allocated {record : Inode} {content : ℕ → Store} (hname : name.Fits)
    (hnode : InodeIs server inum record)
    (hblocks : record.type = lfsDirectory → ∀ j : Fin ndirect, Reaches content name 0 j →
      (record.direct j).toNat < 2 ^ 31 ∧
        BlockAt server.image (record.direct j).toNat (content j)) (frame : LookupFrame) :
    ∃ next, fsiLookup ((inum : ℕ) : ℤ) name frame server =
      some (if record.type = lfsDirectory then searchBlocks content name ndirect 0 else -1,
        next) := by
  obtain ⟨next, hnext⟩ := fsiLookup_delivers hnode name frame
  refine ⟨next, ?_⟩
  rw [hnext]
  by_cases htype : record.type = lfsDirectory
  · rw [if_pos htype, if_pos htype, searchBlocks_congr hname]
    intro k _ hk hreach
    have hblock := hblocks htype ⟨k, by omega⟩ hreach
    exact delivered_allocated (k := ⟨k, by omega⟩) _ hblock.1 hblock.2
  · rw [if_neg htype, if_neg htype]

/-! ## When reads depend on the file only -/

theorem readsOwn_of_unallocated (hinum : server.inodes inum = -1) (j : Fin ndirect) :
    ReadsOwn server inum j where
  same other hother buffer node node' := by
    have hinum' : other.inodes inum = -1 := hother.position.trans hinum
    exact ⟨_, _, _, fsiRead_unallocated hinum buffer _ node,
      fsiRead_unallocated hinum' buffer _ node'⟩
  unwritten _ buffer node := ⟨_, _, fsiRead_unallocated hinum buffer _ node⟩

theorem looksUpOwn_of_unallocated (hinum : server.inodes inum = -1) :
    LooksUpOwn server inum name where
  same other hother frame frame' := by
    have hinum' : other.inodes inum = -1 := hother.position.trans hinum
    exact ⟨_, _, _, fsiLookup_unallocated hinum frame, fsiLookup_unallocated hinum' frame'⟩
  absent _ frame := ⟨_, fsiLookup_unallocated hinum frame⟩

/-- A read of a written block. -/
theorem readsOwn_of_written {j : Fin ndirect} (hwritten : server.Written inum j) :
    ReadsOwn server inum j where
  same other hother buffer node node' := by
    obtain ⟨hinum, hj⟩ := hwritten
    obtain ⟨hnode, hnode'⟩ := hother.inodeIs hinum
    have hblock := hother.block hinum j hj
    obtain ⟨next, hnext⟩ := fsiRead_written hnode hblock.nonneg buffer node
    obtain ⟨next', hnext'⟩ := fsiRead_written hnode' hblock.nonneg buffer node'
    rw [File.pread_congr buffer hblock.fits hblock.fits_other fun i hi ↦
      hblock.bytes _ (Nat.le_add_right _ _) (Nat.add_lt_add_left hi _)] at hnext'
    exact ⟨_, next, next', hnext, hnext'⟩
  unwritten hnot := absurd hwritten hnot

theorem SameFile.blockAt (h : SameFile inum first second) (hinum : first.inodes inum ≠ -1)
    {j : Fin ndirect} (hj : (first.inodeRecord inum).direct j ≠ -1) :
    ((first.inodeRecord inum).direct j).toNat < 2 ^ 31 ∧
      BlockAt second.image ((first.inodeRecord inum).direct j).toNat
        (blockContent first.image (first.inodeRecord inum) j) := by
  have hblock := h.block hinum j hj
  refine ⟨hblock.nonneg, hblock.fits_other, fun i hi ↦ ?_⟩
  rw [blockContent_fin]
  exact hblock.bytes _ (Nat.le_add_right _ _) (Nat.add_lt_add_left hi _)

/-- The search for the name stays in allocated blocks. -/
def Server.Answers (server : Server) (i : Fin 4096) (name : CString) : Prop :=
  IsDirectory server i → ∀ j : Fin ndirect,
    Reaches (blockContent server.image (server.inodeRecord i)) name 0 j →
      (server.inodeRecord i).direct j ≠ -1

theorem looksUpOwn_of_answers (hname : name.Fits) (hself : SameFile inum server server)
    (hanswers : server.Answers inum name) : LooksUpOwn server inum name := by
  by_cases hinum : server.inodes inum = -1
  · exact looksUpOwn_of_unallocated hinum
  have hlookup {other : Server} (hother : SameFile inum server other) (frame : LookupFrame) :=
    fsiLookup_allocated hname (hother.inodeIs hinum).2
      (fun htype j hreach ↦ hother.blockAt hinum (hanswers ⟨hinum, htype⟩ j hreach)) frame
  constructor
  · intro other hother frame frame'
    obtain ⟨next, hnext⟩ := hlookup hself frame
    obtain ⟨next', hnext'⟩ := hlookup hother frame'
    exact ⟨_, next, next', hnext, hnext'⟩
  · intro habsent frame
    obtain ⟨next, hnext⟩ := hlookup hself frame
    refine ⟨next, ?_⟩
    rw [hnext]
    by_cases htype : (server.inodeRecord inum).type = lfsDirectory
    · rw [if_pos htype, searchBlocks_absent]
      intro k _ hk hreach
      have hj := hanswers ⟨hinum, htype⟩ ⟨k, by omega⟩ hreach
      exact habsent ⟨k, by omega⟩ ⟨hinum, hj⟩
    · rw [if_neg htype]

/-! ## When a lookup depends on what follows in the log -/

/-- The bytes are neither of the record nor of an allocated block. -/
def Server.Foreign (server : Server) (inum : Fin 4096) (lo hi : ℕ) : Prop :=
  (hi ≤ (server.inodes inum).toNat ∨ (server.inodes inum).toNat + inodeSize ≤ lo) ∧
    ∀ j, (server.inodeRecord inum).direct j ≠ -1 →
      hi ≤ ((server.inodeRecord inum).direct j).toNat ∨
        ((server.inodeRecord inum).direct j).toNat + lfsBlockSize ≤ lo

/-- Where a search gets to block `k` if it has read the blocks before it: behind the last of them,
or behind the record. -/
def Server.behind (server : Server) (inum : Fin 4096) : (k : ℕ) → ℕ
  | 0 => (server.inodes inum).toNat + inodeSize
  | k + 1 => (if h : k < ndirect then (server.inodeRecord inum).direct ⟨k, h⟩ else 0).toNat +
      lfsBlockSize

/-- The first block that the search for the name reaches and that was never written is `k`, and slot
`i` of what it finds there instead is no part of the file. -/
structure Exposed (server : Server) (inum : Fin 4096) (name : CString) (k : Fin ndirect) (i : ℕ) :
    Prop where
  directory : IsDirectory server inum
  unwritten : (server.inodeRecord inum).direct k = -1
  before : ∀ m < k, (server.inodeRecord inum).direct m ≠ -1
  reaches : Reaches (blockContent server.image (server.inodeRecord inum)) name 0 k
  slot : i < dirEntries
  foreign : server.Foreign inum (server.behind inum k + dirEntSize * i)
    (server.behind inum k + dirEntSize * i + 32)
  clean : ∀ m < i, entryNamed (fun n ↦ server.image.bytes (server.behind inum k + n)) name m = false

/-- The server with an entry for the name in that slot. -/
def Server.withEntry (server : Server) (pos i : ℕ) (name : CString) (inum : Word) : Server :=
  { server with image := ⟨splice server.image.bytes (pos + dirEntSize * i) 32
      fun n ↦ setEntry junk i name inum (dirEntSize * i + n),
    max server.image.size (pos + dirEntSize * i + 32)⟩ }

theorem withEntry_bytes (server : Server) (pos i : ℕ) (name : CString) (number : Word) :
    (server.withEntry pos i name number).image.bytes =
      splice server.image.bytes (pos + dirEntSize * i) 32
        fun n ↦ setEntry junk i name number (dirEntSize * i + n) := rfl

theorem Server.Foreign.sameFile {pos i : ℕ}
    (h : server.Foreign inum (pos + dirEntSize * i) (pos + dirEntSize * i + 32))
    (hself : SameFile inum server server) (number : Word) :
    SameFile inum server (server.withEntry pos i name number) where
  position := rfl
  record hinum := by
    obtain ⟨hnonneg, hfits, -, -⟩ := hself.record hinum
    refine ⟨hnonneg, hfits, le_max_of_le_left hfits, ?_⟩
    rw [withEntry_bytes]
    exact agreeOn_splice _ _ h.1.symm
  block hinum j hj := by
    obtain ⟨hnonneg, hfits, -, -⟩ := hself.block hinum j hj
    refine ⟨hnonneg, hfits, le_max_of_le_left hfits, ?_⟩
    rw [withEntry_bytes]
    exact agreeOn_splice _ _ (h.2 j hj).symm

/-- The offset at which the search gets to the block. -/
theorem offset_before {k : Fin ndirect} {image : File} (frame : LookupFrame)
    (h : ∀ m < k, ((server.inodeRecord inum).direct m).toNat < 2 ^ 31 ∧
      ((server.inodeRecord inum).direct m).toNat + lfsBlockSize ≤ image.size) :
    ((server.reader inum frame).before image (server.inodeRecord inum) k).offset =
      server.behind inum k := by
  obtain ⟨_ | k, hk⟩ := k
  · rfl
  · obtain ⟨hnonneg, hfits⟩ := h ⟨k, by omega⟩ (Nat.lt_succ_self k)
    rw [Server.behind, dif_pos (by omega)]
    change ((server.reader inum frame).before image _ (((⟨k, by omega⟩ : Fin ndirect) : ℕ) +
      1)).offset = _
    rw [Reader.before_succ, Reader.read, origin_of_lt hnonneg, image.available_eq_of_le hfits]

section Exposed

variable {k : Fin ndirect} {i : ℕ} (h : Exposed server inum name k i)
  (hself : SameFile inum server server) (hname : name.Fits)

include h hself hname

/-- The search finds whatever stands in the slot. -/
theorem Exposed.fsiLookup_withEntry (number : Word) (frame : LookupFrame) :
    ∃ next, fsiLookup ((inum : ℕ) : ℤ) name frame
      (server.withEntry (server.behind inum k) i name number) = some (number.toInt, next) := by
  let pos := server.behind inum k
  let other := server.withEntry pos i name number
  let reader := server.reader inum frame
  have hinum := h.directory.1
  have hother : SameFile inum server other := h.foreign.sameFile hself number
  have hblock (m : Fin ndirect) (hm : m < k) := hother.blockAt hinum (h.before m hm)
  have hread : delivered other.image (server.inodeRecord inum) reader k =
      other.image.pread pos lfsBlockSize
        (reader.before other.image (server.inodeRecord inum) k).buffer := by
    rw [delivered, Reader.before_succ, Reader.read, h.unwritten, origin,
      if_pos (by decide), offset_before frame fun m hm ↦ ⟨(hblock m hm).1, (hblock m hm).2.fits⟩]
  have hbytes {n : ℕ} (hn : n < dirEntSize * i + 32) :
      delivered other.image (server.inodeRecord inum) reader k n = other.image.bytes (pos + n) := by
    have hslot := h.slot
    rw [hread, File.pread, splice_zero_apply_inside]
    have hsize : pos + dirEntSize * i + 32 ≤ other.image.size := le_max_right _ _
    simp only [File.available, dirEntSize, dirEntries, lfsBlockSize] at hsize hslot hn ⊢
    omega
  have hhere : AgreeOn (delivered other.image (server.inodeRecord inum) reader k)
      (setEntry junk i name number) (dirEntSize * i) (dirEntSize * i + 32) := by
    intro n hlow hhigh
    obtain ⟨n, rfl⟩ := Nat.exists_eq_add_of_le hlow
    rw [hbytes hhigh, ← Nat.add_assoc, withEntry_bytes]
    exact splice_apply_inside _ _ (by omega)
  have hfound : FoundAt (delivered other.image (server.inodeRecord inum) reader) name 0 k i := by
    refine ⟨fun m hlow hm ↦ ?_, Scan.first_eq_some_iff.mpr ⟨h.slot, ?_, fun m hm ↦ ?_⟩⟩
    · have hm' := hblock ⟨m, hm.trans k.isLt⟩ hm
      rw [first_entryNamed_congr (delivered_allocated reader hm'.1 hm'.2) hname]
      exact h.reaches m hlow hm
    · rw [entryNamed_congr hname (hhere.mono le_rfl (by omega))]
      exact (entryNamed_setEntry_same junk i hname number).mpr rfl
    · rw [← h.clean m hm]
      apply entryNamed_congr hname
      intro n hlow hhigh
      have hlt : dirEntSize * m + 28 ≤ dirEntSize * i := by
        simp only [dirEntSize]
        omega
      have hout : pos + n < pos + dirEntSize * i ∨ pos + dirEntSize * i + 32 ≤ pos + n := by omega
      rw [hbytes (by omega), withEntry_bytes]
      exact splice_apply_outside _ _ hout
  obtain ⟨next, hnext⟩ := fsiLookup_delivers (hother.inodeIs hinum).2 name frame
  refine ⟨next, ?_⟩
  rw [hnext, if_pos h.directory.2]
  have hlt : (k : ℕ) < 0 + ndirect := by omega
  have hvalue := hfound.searchBlocks_eq (Nat.zero_le _) hlt
  rw [entryInum_congr hhere, entryInum_setEntry_same] at hvalue
  exact congrArg (fun value ↦ some (value, next)) hvalue

theorem Exposed.not_looksUpOwn : ¬ LooksUpOwn server inum name := by
  intro hown
  have hresult (number : Word) : ∃ next, fsiLookup ((inum : ℕ) : ℤ) name junkFrame.lookup server =
      some (number.toInt, next) := by
    obtain ⟨result, next, next', hfirst, hsecond⟩ := hown.same _ (h.foreign.sameFile hself number)
      junkFrame.lookup junkFrame.lookup
    obtain ⟨last, hlast⟩ := h.fsiLookup_withEntry hself hname number junkFrame.lookup
    cases hsecond.symm.trans hlast
    exact ⟨next, hfirst⟩
  obtain ⟨next, hzero⟩ := hresult 0
  obtain ⟨next', hone⟩ := hresult 1
  cases hzero.symm.trans hone

end Exposed

theorem start_inodeRecord : (freshServer.start junk).inodeRecord 0 = rootInode :=
  (built_rootInode junk _).ofBytes_eq

theorem rootInode_direct_eq_zero {j : Fin ndirect} (hj : rootInode.direct j ≠ -1) : j = 0 := by
  by_contra hne
  exact hj (if_neg hne)

theorem start_sameFile : SameFile 0 (freshServer.start junk) (freshServer.start junk) := by
  have hsize : (freshServer.start junk).image.size = 5252 := rfl
  have hrecord {pos : Word} {n : ℕ} (hfits : pos.toNat + n ≤ 5252) :
      SameRecord (freshServer.start junk).image (freshServer.start junk).image pos n :=
    ⟨by omega, hfits, hfits, fun _ _ _ ↦ rfl⟩
  refine ⟨rfl, fun _ ↦ hrecord (by decide), fun _ j hj ↦ ?_⟩
  rw [start_inodeRecord] at hj ⊢
  cases rootInode_direct_eq_zero hj
  exact hrecord (by decide)

theorem start_answers : (freshServer.start junk).Answers 0 dot := by
  have hroot := start_root freshServer junk
  intro _ j hreach
  by_cases hj : j = 0
  · rw [hj, start_inodeRecord]
    decide
  · have hnone := hreach 0 le_rfl (Fin.pos_iff_ne_zero.mpr hj)
    have hdot : entryNamed (rootBlock junk) dot 0 = true := by decide +kernel
    have hcontent : AgreeOn (blockContent (freshServer.start junk).image
        ((freshServer.start junk).inodeRecord 0) 0) (rootBlock junk) 0 lfsBlockSize := hroot.content
    rw [first_entryNamed_congr hcontent dot_fits, Scan.first_eq_none_iff] at hnone
    simp [hnone 0 (by decide)] at hdot

/-- Behind the only block of the root stand its record and then a chunk of the inode map. -/
theorem start_exposed : Exposed (freshServer.start junk) 0 nameA 1 2 where
  directory := (start_root freshServer junk).directory
  unwritten := (start_root freshServer junk).one_block 1 (by decide)
  before m hm := by
    have hzero : m = 0 := Fin.ext (Nat.lt_one_iff.mp hm)
    rw [start_inodeRecord, hzero]
    decide
  reaches m _ _ := by
    rw [Scan.first_eq_none_iff]
    exact fun slot _ ↦ Lacks.entryNamed (fun i ↦ start_lacks _) (List.mem_singleton.mpr rfl) slot
  slot := by decide
  foreign := by
    unfold Server.Foreign Server.behind
    rw [start_inodeRecord]
    refine ⟨Or.inr (by decide), fun j hj ↦ ?_⟩
    rw [rootInode_direct_eq_zero hj]
    exact Or.inr (by decide)
  clean m _ := Lacks.entryNamed (fun i ↦ start_lacks _) (List.mem_singleton.mpr rfl) m

end OS537.LFS
