import OS537.LFS.AppendOnly
import OS537.LFS.Observed

/-!
# A write and the reads after it

`fsi_write` appends the block, the inode that points at it and the chunk of the inode map, so that a
read goes through two new records. The live records of a server lie apart from what is appended when
they lie in its log; this is kept by the write, so that it holds along runs. The position of the new
inode has to be an `int`: behind it `lseek` fails, and a read gets what stands at the file offset.
-/

namespace OS537.LFS

open Bytes Code Posix

variable {server state next sought : Server} {i dir : Fin 4096} {j : Fin ndirect} {rc : ℤ}

/-! ## Where the live records lie -/

/-- A record at an `int` position, in the log and in the image. -/
structure RecordIn (server : Server) (pos : Word) (n : ℕ) : Prop where
  nonneg : pos.toNat < 2 ^ 31
  log : InLog server pos n
  fits : pos.toNat + n ≤ server.image.size

/-- Every live inode and every allocated block lies in the log. -/
structure Placed (server : Server) : Prop where
  node : ∀ i, server.inodes i ≠ -1 → RecordIn server (server.inodes i) inodeSize
  block : ∀ i j, server.Written i j →
    RecordIn server ((server.inodeRecord i).direct j) lfsBlockSize

theorem Logged.recordIn (h : Logged server) {pos : Word} {n : ℕ} (hlog : InLog server pos n)
    (hpos : 0 < n) : RecordIn server pos n := by
  have hend := h.end_lt
  have hhigh := hlog.2
  exact ⟨by omega, hlog, hhigh.trans h.end_le⟩

theorem Logged.placed (h : Logged server) : Placed server where
  node i hi := h.recordIn (h.node i hi) (by decide)
  block i j hwritten := h.recordIn (h.block i j hwritten.1 hwritten.2) (by decide)

theorem Placed.inodeIs (h : Placed server) (hi : server.inodes i ≠ -1) :
    InodeIs server i (server.inodeRecord i) :=
  ⟨(h.node i hi).nonneg, (h.node i hi).fits, rfl⟩

/-- `fsi_read` of an allocated block. -/
theorem Placed.fsiRead (h : Placed server) (hwritten : server.Written i j) (buffer node : Store) :
    ∃ last, fsiRead ((i : ℕ) : ℤ) buffer ((j : ℕ) : ℤ) node server =
      some ((0, server.image.pread ((server.inodeRecord i).direct j).toNat lfsBlockSize buffer),
        last) :=
  fsiRead_written (h.inodeIs hwritten.1) (h.block i j hwritten).nonneg buffer node

/-- The records stay where the log is kept and its end does not move back. -/
theorem RecordIn.keep {pos : Word} {n : ℕ} (h : RecordIn server pos n) (hkept : Kept server next)
    (hend : server.cr.endPos.toNat ≤ next.cr.endPos.toNat) : RecordIn next pos n :=
  ⟨h.nonneg, ⟨h.log.1, h.log.2.trans hend⟩, h.fits.trans hkept.size_le⟩

theorem RecordIn.range {pos : Word} {n : ℕ} (h : RecordIn server pos n) :
    crSize ≤ pos.toNat ∧ pos.toNat + n ≤ min server.cr.endPos.toNat server.image.size :=
  ⟨h.log.1, le_min h.log.2 h.fits⟩

theorem Placed.view_eq (h : Placed server) (hkept : Kept server next)
    (hinodes : next.inodes i = server.inodes i) : next.view i = server.view i :=
  view_eq_of_agreeOn hkept.bytes hinodes (fun hi ↦ (h.node i hi).range)
    fun hi j hj ↦ (h.block i j ⟨hi, hj⟩).range

/-! ## The file after a write -/

/-- The file after a write of one block. -/
def FileView.write (file : FileView) (j : Fin ndirect) (data : Fin lfsBlockSize → Byte) :
    FileView where
  type := file.type
  size := if (file.blocks j).isNone ∧ file.size.toInt < ((j : ℕ) : ℤ) * 4096 then
    BitVec.ofInt 32 (((j : ℕ) : ℤ) * 4096) else file.size
  blocks := Function.update file.blocks j (some data)

/-- A block that has been written has a position, so that the size stays. -/
theorem FileView.write_write (file : FileView) (j : Fin ndirect)
    (data : Fin lfsBlockSize → Byte) : (file.write j data).write j data = file.write j data := by
  have hwritten : ¬ ((file.write j data).blocks j).isNone := by
    have hblock : (file.write j data).blocks j = some data := Function.update_self _ _ _
    rw [hblock]
    exact Bool.false_ne_true
  unfold FileView.write
  rw [FileView.mk.injEq]
  refine ⟨rfl, if_neg fun h ↦ hwritten h.1, Function.update_idem _ _ _⟩

theorem writtenInode_type (node : Inode) (block : Fin ndirect) (place : Word) :
    (writtenInode node block place).type = node.type := by
  unfold writtenInode
  split <;> rfl

theorem writtenInode_direct (node : Inode) (block : Fin ndirect) (place : Word) :
    (writtenInode node block place).direct = Function.update node.direct block place := by
  unfold writtenInode
  split <;> rfl

theorem writtenInode_size (node : Inode) (block : Fin ndirect) (place : Word) :
    (writtenInode node block place).size =
      if node.direct block = -1 ∧ node.size.toInt < ((block : ℕ) : ℤ) * 4096 then
        BitVec.ofInt 32 (((block : ℕ) : ℤ) * 4096) else node.size := by
  unfold writtenInode
  split <;> rfl

/-- What the records of a write leave: one file has a new block, the others are as they were. -/
structure BlockWritten (next server : Server) (i : Fin 4096) (j : Fin ndirect)
    (data : Fin lfsBlockSize → Byte) : Prop where
  placed : Placed next
  live : ∀ k, next.inodes k = -1 ↔ server.inodes k = -1
  type : (next.inodeRecord i).type = (server.inodeRecord i).type
  view : next.view = Function.update server.view i ((server.view i).map (·.write j data))

theorem appendedBlock_kept (buffer : Store) (node : Inode) :
    Kept server ((server.appendedBlock i buffer j node).committed i
      (server.cr.endPos + 4096 + 64)) := by
  let place := server.cr.endPos
  let block := (server.seek place.toNat).wrote lfsBlockSize buffer
  have hsought : Kept server (server.seek place.toNat) := (Kept.refl server).of_image rfl
  have hblock : Kept server block := hsought.wrote lfsBlockSize buffer (Or.inl le_rfl)
  have hlisted : Kept server (block.putInode i (place + 4096)) := hblock.of_image rfl
  have hoffset : place.toNat ≤ (block.putInode i (place + 4096)).offset := Nat.le_add_right _ _
  have happended := hlisted.wrote inodeSize (writtenInode node j place).toBytes (Or.inl hoffset)
  exact happended.committed (hoffset.trans (Nat.le_add_right _ _)) i _

/-- The block and the inode as they stand after the commit. -/
theorem appendedBlock_records (hlow : crSize ≤ server.cr.endPos.toNat) (buffer : Store)
    (node : Inode) :
    let final := (server.appendedBlock i buffer j node).committed i (server.cr.endPos + 4096 + 64)
    BlockAt final.image server.cr.endPos.toNat buffer ∧
      InodeAt final.image (server.cr.endPos.toNat + 4096)
        (writtenInode node j server.cr.endPos) := by
  intro final
  let place := server.cr.endPos
  let listed := ((server.seek place.toNat).wrote lfsBlockSize buffer).putInode i (place + 4096)
  have hblock : BlockAt listed.image place.toNat buffer := holds_wrote lfsBlockSize buffer
  have hnode : InodeAt (listed.wrote inodeSize (writtenInode node j place).toBytes).image
      listed.offset (writtenInode node j place) := holds_wrote inodeSize _
  constructor
  · have happended :=
      holds_wrote_of_holds hblock le_rfl inodeSize (writtenInode node j place).toBytes
    exact holds_committed happended hlow (Nat.le_add_right _ _) i _
  · exact holds_committed hnode (hlow.trans (Nat.le_add_right _ _)) le_rfl i _

theorem appendedBlock_blockWritten (h : Placed server) (hi : server.inodes i ≠ -1)
    (hroom : server.cr.endPos.toNat + 4096 < 2 ^ 31) (buffer : Store) (j : Fin ndirect) :
    BlockWritten ((server.appendedBlock i buffer j (server.inodeRecord i)).committed i
      (server.cr.endPos + 4096 + 64)) server i j fun b ↦ buffer b := by
  let place := server.cr.endPos
  let record := server.inodeRecord i
  let final := (server.appendedBlock i buffer j record).committed i (place + 4096 + 64)
  have hsizes := record_sizes
  have hroom' : place.toNat + 4096 < 2 ^ 31 := hroom
  have hlow : crSize ≤ place.toNat := (h.node i hi).log.1.trans
    ((Nat.le_add_right _ _).trans (h.node i hi).log.2)
  have hpos : (place + 4096).toNat = place.toNat + 4096 := toNat_after_block _ (by omega)
  have hend : final.cr.endPos.toNat = place.toNat + 4224 := by
    have hcommitted : final.cr.endPos = place + 4096 + 64 + 64 := rfl
    have hpos' : (place + 4096 + 64).toNat = place.toNat + 4160 := toNat_after_inode _ (by omega)
    rw [hcommitted, toNat_after_record _ (by omega), hpos']
  have hkept : Kept server final := appendedBlock_kept buffer record
  have hend_le : place.toNat ≤ final.cr.endPos.toNat := by omega
  obtain ⟨hblock, hnode⟩ : BlockAt final.image place.toNat buffer ∧
      InodeAt final.image (place.toNat + 4096) (writtenInode record j place) :=
    appendedBlock_records hlow buffer record
  have hnodeIn : RecordIn final (place + 4096) inodeSize :=
    ⟨by omega, ⟨by omega, by omega⟩, by rw [hpos]; exact hnode.fits⟩
  have hblockIn : RecordIn final place lfsBlockSize := ⟨by omega, ⟨hlow, by omega⟩, hblock.fits⟩
  have hposition : final.inodes i = place + 4096 := Function.update_self _ _ _
  have hinodes (k : Fin 4096) (hk : k ≠ i) : final.inodes k = server.inodes k :=
    Function.update_of_ne hk _ _
  have hallocated : final.inodes i ≠ -1 := by
    rw [hposition]
    exact ne_neg_one_of_toNat_lt (by omega)
  have hplace : place ≠ -1 := ne_neg_one_of_toNat_lt (by omega)
  have hrecord : final.inodeRecord i = writtenInode record j place := by
    unfold Server.inodeRecord
    rw [hposition, hpos]
    exact hnode.ofBytes_eq
  have hview (k : Fin 4096) (hk : k ≠ i) : final.view k = server.view k :=
    h.view_eq hkept (hinodes k hk)
  have hlive (k : Fin 4096) : final.inodes k = -1 ↔ server.inodes k = -1 := by
    by_cases hk : k = i
    · subst hk
      exact iff_of_false hallocated hi
    · rw [hinodes k hk]
  constructor
  case live => exact hlive
  case type => rw [hrecord, writtenInode_type]
  case placed =>
    constructor
    case node =>
      intro k hk
      by_cases hki : k = i
      · subst hki
        rw [hposition]
        exact hnodeIn
      · rw [hinodes k hki] at hk ⊢
        exact (h.node k hk).keep hkept hend_le
    case block =>
      rintro k l ⟨hk, hl⟩
      by_cases hki : k = i
      · subst hki
        rw [hrecord, writtenInode_direct] at hl ⊢
        by_cases hlj : l = j
        · rw [hlj, Function.update_self]
          exact hblockIn
        · rw [Function.update_of_ne hlj] at hl ⊢
          exact (h.block k l ⟨hi, hl⟩).keep hkept hend_le
      · have hwritten : server.Written k l := (written_iff_of_view (hview k hki)).mpr ⟨hk, hl⟩
        have hsame : final.inodeRecord k = server.inodeRecord k := by
          obtain ⟨hnodeLow, hnodeHigh⟩ := (h.node k hwritten.1).range
          unfold Server.inodeRecord
          rw [hinodes k hki]
          apply Inode.ofBytes_congr
          intro b hb
          exact hkept.bytes _ (by omega) (by omega)
        rw [hsame]
        exact (h.block k l hwritten).keep hkept hend_le
  case view =>
    ext1 k
    by_cases hki : k = i
    · subst hki
      have hblocks : (fun l ↦ blockView final.image ((writtenInode record j place).direct l)) =
          Function.update (fun l ↦ blockView server.image (record.direct l)) j
            (some fun b ↦ buffer b) := by
        ext1 l
        rw [writtenInode_direct]
        by_cases hl : l = j
        · subst hl
          rw [Function.update_self, Function.update_self]
          unfold blockView
          rw [if_neg hplace, Option.some_inj]
          ext1 b
          exact hblock.bytes b b.isLt
        · rw [Function.update_of_ne hl, Function.update_of_ne hl]
          exact blockView_congr hkept.bytes fun hne ↦ (h.block k l ⟨hi, hne⟩).range
      have hnone : (blockView server.image ((server.inodeRecord k).direct j)).isNone = true ↔
          (server.inodeRecord k).direct j = -1 := by
        rw [Option.isNone_iff_eq_none, blockView_eq_none_iff]
      rw [Function.update_self, view_allocated hallocated, view_allocated hi, hrecord, hblocks,
        writtenInode_type, writtenInode_size, Option.map_some]
      unfold FileView.write
      simp only [hnone]
      rfl
    · rw [Function.update_of_ne hki]
      exact hview k hki

/-- The blocks other than the written one are seen as before. -/
theorem BlockWritten.blockView_eq {data : Fin lfsBlockSize → Byte}
    (h : BlockWritten next server i j data) {k : Fin 4096} {l : Fin ndirect}
    (hk : server.inodes k ≠ -1) (hother : (k, l) ≠ (i, j)) :
    blockView next.image ((next.inodeRecord k).direct l) =
      blockView server.image ((server.inodeRecord k).direct l) := by
  have hk' : next.inodes k ≠ -1 := fun hnone ↦ hk ((h.live k).mp hnone)
  have hfile := congrFun h.view k
  by_cases hki : k = i
  · subst hki
    have hlj : l ≠ j := fun heq ↦ hother (by rw [heq])
    rw [Function.update_self, view_allocated hk', view_allocated hk, Option.map_some,
      Option.some_inj] at hfile
    have hblock := congrFun (congrArg FileView.blocks hfile) l
    exact hblock.trans (Function.update_of_ne hlj _ _)
  · rw [Function.update_of_ne hki, view_allocated hk', view_allocated hk, Option.some_inj] at hfile
    exact congrFun (congrArg FileView.blocks hfile) l

/-! ## A call that returns 0 -/

/-- A `write` that does not fail writes all of its bytes. -/
def WholeWrites (server : Server) : Prop :=
  ∀ k count, server.results k ≠ .short count

theorem AllFull.wholeWrites (h : AllFull server) : WholeWrites server := by
  intro k count heq
  cases (h k).symm.trans heq

theorem WholeWrites.wrote (h : WholeWrites server) (n : ℕ) (buffer : Store) :
    WholeWrites (server.wrote n buffer) :=
  fun k ↦ h (k + 1)

/-- Code that goes on after a write has written all of it. -/
theorem checked_write {code rest : Fsi ℤ} {n : ℕ} {buffer : Store}
    (h : (code >>= fun rc ↦ if rc < 0 then pure (-1) else rest) state = some (0, next))
    (hcode : code state = write n buffer sought) (hwhole : WholeWrites sought) :
    rest (sought.wrote n buffer) = some (0, next) := by
  unfold write at hcode
  dsimp only at hcode
  cases hresult : sought.results 0 with
  | full =>
    rw [hresult] at hcode
    rw [bind_run hcode, if_neg (by omega)] at h
    exact h
  | short count => exact absurd hresult (hwhole 0 count)
  | error =>
    rw [hresult] at hcode
    rw [bind_run hcode, if_pos (by decide)] at h
    cases h

theorem writeChunk_eq (i : Fin 4096) (state : Server) :
    writeChunk i state = write chunkSize (chunkBytes state.inodes (chunkOf i)) state := rfl

theorem writeCheckpoint_eq (state : Server) :
    writeCheckpoint state = write crSize state.cr.toBytes (state.seek 0) := by
  rw [writeCheckpoint, bind_run lseek_zero_run]
  rfl

theorem commitChunk_zero {pos : Word} (hwhole : WholeWrites state)
    (h : commitChunk i pos state = some (0, next)) : next = state.committed i pos := by
  let listed := state.putChunk (chunkOf i) pos
  have hlisted : WholeWrites listed := hwhole
  have hchunked := hlisted.wrote chunkSize (chunkBytes listed.inodes (chunkOf i))
  unfold commitChunk at h
  rw [bind_run (update_run _)] at h
  have hchunk := checked_write h (writeChunk_eq i listed) hlisted
  rw [bind_run (update_run _)] at hchunk
  have hcheckpoint := checked_write hchunk (writeCheckpoint_eq _) hchunked
  cases hcheckpoint
  rfl

theorem writeCommit_zero {buffer : Store} {node : Inode} (hwhole : WholeWrites server)
    (h : writeCommit ((i : ℕ) : ℤ) buffer ((j : ℕ) : ℤ) node server = some (0, next)) :
    next = (server.appendedBlock i buffer j node).committed i (server.cr.endPos + 4096 + 64) := by
  let sought := server.seek server.cr.endPos.toNat
  have hsought : WholeWrites sought := hwhole
  have hlisted : WholeWrites ((sought.wrote lfsBlockSize buffer).putInode i
      (server.cr.endPos + 4096)) := hsought.wrote lfsBlockSize buffer
  unfold writeCommit at h
  rw [bind_run get_run, bind_run (lseek_run _)] at h
  have hblock := checked_write h rfl hsought
  rw [bind_run (index_natCast_run j), bind_run (index_natCast_run i), bind_run (update_run _)]
    at hblock
  have hnode := checked_write hblock rfl hlisted
  exact commitChunk_zero (hlisted.wrote _ _) hnode

theorem Placed.fsiWrite_zero (h : Placed server) (hwhole : WholeWrites server)
    (hi : server.inodes i ≠ -1) {buffer node : Store}
    (hrun : fsiWrite ((i : ℕ) : ℤ) buffer ((j : ℕ) : ℤ) node server = some (0, next)) :
    next = (server.appendedBlock i buffer j (server.inodeRecord i)).committed i
      (server.cr.endPos + 4096 + 64) := by
  unfold fsiWrite at hrun
  rw [bind_run (getInode_run node (h.inodeIs hi))] at hrun
  dsimp only at hrun
  rw [if_neg (by decide)] at hrun
  split at hrun
  · cases hrun
  split at hrun
  · cases hrun
  · exact writeCommit_zero hwhole hrun

/-! ## Reading what was written -/

/-- After a write of a block the reads deliver it, and everything else is as before. -/
structure ReadAfterWrite (next server : Server) (i : Fin 4096) (j : Fin ndirect) (buffer : Store) :
    Prop where
  written : ∀ dest node, ∃ found last,
    fsiRead ((i : ℕ) : ℤ) dest ((j : ℕ) : ℤ) node next = some ((0, found), last) ∧
      AgreeOn found buffer 0 lfsBlockSize
  others : ∀ k l, (k, l) ≠ (i, j) → server.Written k l → ∀ dest node node',
    ∃ result last last',
      fsiRead ((k : ℕ) : ℤ) dest ((l : ℕ) : ℤ) node server = some (result, last) ∧
        fsiRead ((k : ℕ) : ℤ) dest ((l : ℕ) : ℤ) node' next = some (result, last')
  live : ∀ k, next.inodes k = -1 ↔ server.inodes k = -1
  type : ∀ k, server.inodes k ≠ -1 → (next.inodeRecord k).type = (server.inodeRecord k).type
  allocated : ∀ k l, k ≠ i → (next.Written k l ↔ server.Written k l)
  entries : ∀ slot : Slot, (slot.Live next ↔ slot.Live server) ∧
    (slot.Live server → slot.inum next = slot.inum server ∧
      ∀ name : CString, name.Fits → (slot.Named next name ↔ slot.Named server name))
  placed : Placed next

/-- The entries of a directory whose blocks stay. -/
theorem SameInode.slot_live (h : SameInode server next dir) (hdir : IsDirectory server dir)
    (hlive : next.inodes dir ≠ -1) {slot : Slot} (hslot : slot.dir = dir) :
    (slot.Live next ↔ slot.Live server) ∧
      (slot.Live server → slot.inum next = slot.inum server ∧
        ∀ name : CString, name.Fits → (slot.Named next name ↔ slot.Named server name)) := by
  subst hslot
  have hagree (hblock : (server.inodeRecord slot.dir).direct slot.block ≠ -1) :
      AgreeOn (next.dirBlock slot.dir slot.block) (server.dirBlock slot.dir slot.block) 0
        lfsBlockSize := fun b _ hb ↦ h.bytes slot.block hblock b hb
  have hinum (hblock : (server.inodeRecord slot.dir).direct slot.block ≠ -1) :
      slot.inum next = slot.inum server :=
    entryInum_congr (AgreeOn.slot (hagree hblock) slot.index.isLt)
  constructor
  · constructor
    · intro hnext
      have hblock : (server.inodeRecord slot.dir).direct slot.block ≠ -1 :=
        fun heq ↦ hnext.block ((h.direct slot.block).mpr heq)
      exact ⟨hdir, hblock, hinum hblock ▸ hnext.inum⟩
    · intro hserver
      refine ⟨⟨hlive, h.type.trans hdir.2⟩,
        fun heq ↦ hserver.block ((h.direct slot.block).mp heq), ?_⟩
      rw [hinum hserver.block]
      exact hserver.inum
  · intro hserver
    refine ⟨hinum hserver.block, fun name hname ↦ ?_⟩
    have hslot := AgreeOn.slot (hagree hserver.block) slot.index.isLt
    unfold Slot.Named
    rw [entryNamed_congr hname (hslot.mono le_rfl (by omega))]

/-- When `fsi_write` of a regular file returns 0, `fsi_read` of the block delivers the buffer, and
the other blocks, the other inodes and the directories are as before. -/
theorem fsiWrite_read_back (h : Placed server) (hwhole : WholeWrites server)
    (hroom : server.cr.endPos.toNat + 4096 < 2 ^ 31) (hi : server.inodes i ≠ -1)
    (htype : (server.inodeRecord i).type = lfsRegularFile) {buffer node : Store}
    (hrun : fsiWrite ((i : ℕ) : ℤ) buffer ((j : ℕ) : ℤ) node server = some (0, next)) :
    ReadAfterWrite next server i j buffer := by
  have hwritten : BlockWritten next server i j fun b ↦ buffer b := by
    rw [h.fsiWrite_zero hwhole hi hrun]
    exact appendedBlock_blockWritten h hi hroom buffer j
  have hview (k : Fin 4096) (hk : k ≠ i) : next.view k = server.view k := by
    rw [hwritten.view, Function.update_of_ne hk]
  have hlive (k : Fin 4096) (hk : server.inodes k ≠ -1) : next.inodes k ≠ -1 :=
    fun hnone ↦ hk ((hwritten.live k).mp hnone)
  constructor
  case written =>
    intro dest node
    have hfile := congrFun hwritten.view i
    rw [Function.update_self, view_allocated (hlive i hi), view_allocated hi, Option.map_some,
      Option.some_inj] at hfile
    have hblock : blockView next.image ((next.inodeRecord i).direct j) =
        some fun b : Fin lfsBlockSize ↦ buffer b :=
      (congrFun (congrArg FileView.blocks hfile) j).trans (Function.update_self _ _ _)
    have hallocated : (next.inodeRecord i).direct j ≠ -1 := by
      intro heq
      rw [(blockView_eq_none_iff next.image _).mpr heq] at hblock
      cases hblock
    have hthere : next.Written i j := ⟨hlive i hi, hallocated⟩
    obtain ⟨last, hlast⟩ := hwritten.placed.fsiRead hthere dest node
    refine ⟨_, last, hlast, fun b _ hb ↦ ?_⟩
    unfold blockView at hblock
    rw [if_neg hallocated, Option.some_inj] at hblock
    rw [File.pread_apply_of_le _ _ (hwritten.placed.block i j hthere).fits hb]
    exact congrFun hblock ⟨b, hb⟩
  case others =>
    intro k l hother hthere dest node node'
    have hblock := hwritten.blockView_eq hthere.1 hother
    have hthere' : next.Written k l := by
      refine ⟨hlive k hthere.1, fun heq ↦ hthere.2 ?_⟩
      rwa [← blockView_eq_none_iff next.image, hblock, blockView_eq_none_iff] at heq
    obtain ⟨last, hlast⟩ := h.fsiRead hthere dest node
    obtain ⟨last', hlast'⟩ := hwritten.placed.fsiRead hthere' dest node'
    rw [File.pread_congr dest (h.block k l hthere).fits (hwritten.placed.block k l hthere').fits
      fun b hb ↦ bytes_of_blockView_eq hblock hthere.2 hb] at hlast'
    exact ⟨_, last, last', hlast, hlast'⟩
  case live => exact hwritten.live
  case type =>
    intro k hk
    by_cases hki : k = i
    · rw [hki]
      exact hwritten.type
    · exact (sameInode_of_view (hview k hki) hk).type
  case allocated => exact fun k l hk ↦ (written_iff_of_view (hview k hk)).symm
  case entries =>
    intro slot
    by_cases hdir : IsDirectory server slot.dir
    · have hne : slot.dir ≠ i := by
        intro heq
        have hdirectory := hdir.2
        rw [heq, htype] at hdirectory
        exact absurd hdirectory (by decide)
      exact (sameInode_of_view (hview _ hne) hdir.1).slot_live hdir (hlive _ hdir.1) rfl
    · have hnext : ¬ IsDirectory next slot.dir := by
        rintro ⟨hne, hdirectory⟩
        have hlive' : server.inodes slot.dir ≠ -1 := fun hnone ↦ hne ((hwritten.live _).mpr hnone)
        apply hdir
        by_cases heq : slot.dir = i
        · rw [heq, hwritten.type] at hdirectory
          exact ⟨hlive', by rw [heq]; exact hdirectory⟩
        · exact ⟨hlive', (sameInode_of_view (hview _ heq) hlive').type ▸ hdirectory⟩
      exact ⟨iff_of_false (fun hslot ↦ hnext hslot.directory) fun hslot ↦ hdir hslot.directory,
        fun hslot ↦ absurd hslot.directory hdir⟩
  case placed => exact hwritten.placed

theorem oneFile_placed {endPos : Word} (hend : 1156 ≤ endPos.toNat)
    (hroom : endPos.toNat < 2 ^ 31) :
    Placed (oneFile 1092 endPos) :=
  ((oneFile_onDisk (Or.inl rfl) hend).logged hroom).placed

theorem oneFile_fsiWrite {endPos : Word} (hend : 1156 ≤ endPos.toNat)
    (hroom : endPos.toNat < 2 ^ 31) :
    ((oneFile 1092 endPos).inodeRecord 0).type = lfsRegularFile ∧
      fsiWrite ((0 : Fin 4096) : ℕ) junk ((0 : Fin ndirect) : ℕ) junk (oneFile 1092 endPos) =
        some (0, ((oneFile 1092 endPos).appendedBlock 0 junk 0
          ((oneFile 1092 endPos).inodeRecord 0)).committed 0 (endPos + 4096 + 64)) := by
  have hlogged := (oneFile_onDisk (Or.inl rfl) hend).logged hroom
  have htype : ((oneFile 1092 endPos).inodeRecord 0).type = lfsRegularFile := by
    rw [oneFile_inodeRecord hend]
    rfl
  have hlive : (oneFile 1092 endPos).inodes 0 ≠ -1 := show (1028 : Word) ≠ -1 by decide
  exact ⟨htype, fsiWrite_run (hlogged.inodeIs hlive) (fun _ ↦ rfl) htype junk 0 junk⟩

/-- The first block of the disk with one file is written and read back. -/
theorem oneFile_read_back :
    ∃ next, fsiWrite ((0 : Fin 4096) : ℕ) junk ((0 : Fin ndirect) : ℕ) junk (oneFile 1092 1156) =
      some (0, next) ∧ ReadAfterWrite next (oneFile 1092 1156) 0 0 junk := by
  have hend : 1156 ≤ (1156 : Word).toNat := le_rfl
  obtain ⟨htype, hrun⟩ := oneFile_fsiWrite hend (by decide)
  have hlive : (oneFile 1092 1156).inodes 0 ≠ -1 := by decide
  have hroom : (oneFile 1092 1156).cr.endPos.toNat + 4096 < 2 ^ 31 := by decide
  have hwhole : WholeWrites (oneFile 1092 1156) := AllFull.wholeWrites fun _ ↦ rfl
  exact ⟨_, hrun,
    fsiWrite_read_back (oneFile_placed hend (by decide)) hwhole hroom hlive htype hrun⟩

/-- The read after a write whose inode gets the position 2^31 goes on behind the checkpoint
region: it finds the old inode there, and then the bytes that follow it. -/
theorem oneFile_not_read_back :
    ∃ server next, Placed server ∧ WholeWrites server ∧ server.inodes 0 ≠ -1 ∧
      (server.inodeRecord 0).type = lfsRegularFile ∧
      fsiWrite ((0 : Fin 4096) : ℕ) junk ((0 : Fin ndirect) : ℕ) junk server = some (0, next) ∧
      ¬ ReadAfterWrite next server 0 0 junk := by
  have hend : 1156 ≤ (0x7ffff000 : Word).toNat := by decide
  obtain ⟨htype, hrun⟩ := oneFile_fsiWrite hend (by decide)
  refine ⟨oneFile 1092 0x7ffff000, _, oneFile_placed hend (by decide),
    AllFull.wholeWrites fun _ ↦ rfl, by decide, htype, hrun, fun hread ↦ ?_⟩
  obtain ⟨found, last, hfound, hagree⟩ := hread.written junk junk
  have hfirst : (fsiRead ((0 : Fin 4096) : ℕ) junk ((0 : Fin ndirect) : ℕ) junk
      (((oneFile 1092 0x7ffff000).appendedBlock 0 junk 0
        ((oneFile 1092 0x7ffff000).inodeRecord 0)).committed 0
          (0x7ffff000 + 4096 + 64))).map (fun result ↦ result.1.2 0) = some 4 := by
    decide +kernel
  rw [hfound, Option.map_some, Option.some_inj] at hfirst
  have hjunk : found 0 = 255 := hagree 0 le_rfl (by decide)
  exact absurd (hjunk.symm.trans hfirst) (by decide)

end OS537.LFS
