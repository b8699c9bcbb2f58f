import OS537.LFS.Writing

/-!
# Calls made twice

A client that gets no reply sends its request again. A write made twice leaves the files as a write
made once: the block has a position after the first, so that the size does not change again. A
creation made twice takes a second slot of the parent, and a removal made twice does not find its
name any more. These are consequences of what one call appends to the log, also where parent and
child lie in different chunks of the inode map.
-/

namespace OS537.LFS

open Bytes Code Posix

variable {server next start state : Server} {i dir : Fin 4096} {j : Fin ndirect} {name : CString}
  {pos : ℕ}

/-! ## Appending -/

/-- Since `start`, nothing before `pos` has been written but the checkpoint region. -/
structure Keeps (pos : ℕ) (start state : Server) : Prop where
  full : AllFull state
  offset_le : pos ≤ state.offset
  size_le : pos ≤ state.image.size
  bytes : AgreeOn state.image.bytes start.image.bytes crSize pos

theorem Keeps.wrote (h : Keeps pos start state) (n : ℕ) (buffer : Store) :
    Keeps pos start (state.wrote n buffer) where
  full := h.full.wrote n buffer
  offset_le := h.offset_le.trans (Nat.le_add_right _ _)
  size_le := le_max_of_le_left h.size_le
  bytes := (File.agreeOn_pwrite state.image buffer h.size_le (Or.inl h.offset_le)).trans h.bytes

theorem Keeps.of_image {other : Server} (h : Keeps pos start state)
    (hresults : other.results = state.results) (hoffset : other.offset = state.offset)
    (himage : other.image = state.image) : Keeps pos start other where
  full := by
    intro k
    rw [hresults]
    exact h.full k
  offset_le := hoffset ▸ h.offset_le
  size_le := himage ▸ h.size_le
  bytes := himage ▸ h.bytes

theorem Keeps.parentChunked (h : Keeps pos start state) (parent child : Fin 4096) (place : Word) :
    Keeps pos start (state.parentChunked parent child place) := by
  unfold Server.parentChunked
  split
  · have hlisted : Keeps pos start (state.putChunk (chunkOf parent) place) :=
      h.of_image rfl rfl rfl
    exact hlisted.wrote chunkSize (chunkBytes state.inodes (chunkOf parent))
  · exact h

theorem Server.offset_le_parentChunked (state : Server) (parent child : Fin 4096) (place : Word) :
    state.offset ≤ (state.parentChunked parent child place).offset := by
  unfold Server.parentChunked
  split
  · exact Nat.le_add_right _ _
  · exact le_rfl

theorem parentChunked_inodes (parent child : Fin 4096) (place : Word) :
    (state.parentChunked parent child place).inodes = state.inodes := by
  unfold Server.parentChunked
  split <;> rfl

/-- The commit writes its chunk behind the file offset. -/
theorem Server.offset_le_committed (state : Server) (inum : Fin 4096) (place : Word) :
    state.offset + chunkSize ≤ (state.committed inum place).image.size :=
  le_max_of_le_left (le_max_right _ _)

theorem Keeps.committed_bytes (h : Keeps pos start state) (inum : Fin 4096) (place : Word) :
    AgreeOn (state.committed inum place).image.bytes start.image.bytes crSize pos ∧
      pos ≤ (state.committed inum place).image.size := by
  let listed := state.putChunk (chunkOf inum) place
  have hlisted : Keeps pos start listed := h.of_image rfl rfl rfl
  have hchunked := hlisted.wrote chunkSize (chunkBytes state.inodes (chunkOf inum))
  refine ⟨?_, le_max_of_le_left hchunked.size_le⟩
  exact (File.agreeOn_pwrite _ _ hchunked.size_le (Or.inr (Nat.zero_add _).le)).trans
    hchunked.bytes

theorem Keeps.holds_committed (h : Keeps pos start state) (inum : Fin 4096) (place : Word)
    {addr n : ℕ} {source : Store} (hholds : start.image.Holds addr n source)
    (hlow : crSize ≤ addr) (hhigh : addr + n ≤ pos) :
    (state.committed inum place).image.Holds addr n source :=
  hholds.of_agree (h.committed_bytes inum place).1 (h.committed_bytes inum place).2 hlow hhigh

/-- The log continues when the commit records an end behind the old one. -/
theorem Keeps.extend (h : Keeps server.cr.endPos.toNat server state) (inum : Fin 4096)
    (place : Word) (hend : server.cr.endPos.toNat ≤ (place + 64).toNat) :
    Extends (state.committed inum place) server :=
  ⟨(h.committed_bytes inum place).1, hend⟩

/-- A server that can append `n` bytes of records to its log. -/
structure Appendable (server : Server) (n : ℕ) : Prop where
  full : AllFull server
  low : crSize ≤ server.cr.endPos.toNat
  end_le : server.cr.endPos.toNat ≤ server.image.size
  room : server.cr.endPos.toNat + n < 2 ^ 31

theorem Appendable.seek {n : ℕ} (h : Appendable server n) (offset : ℕ) :
    Appendable (server.seek offset) n :=
  ⟨h.full, h.low, h.end_le, h.room⟩

theorem Appendable.mono {n m : ℕ} (h : Appendable server n) (hle : m ≤ n) : Appendable server m :=
  ⟨h.full, h.low, h.end_le, by have := h.room; omega⟩

theorem Appendable.keeps {n : ℕ} (h : Appendable server n) :
    Keeps server.cr.endPos.toNat server (server.seek server.cr.endPos.toNat) :=
  ⟨h.full, le_rfl, h.end_le, fun _ _ _ ↦ rfl⟩

/-! ## Writing -/

/-- What a call of `fsi_write` that goes through leaves: one file has a new block, the others are as
they were. -/
structure WroteBlock (next server : Server) (i : Fin 4096) (j : Fin ndirect)
    (data : Fin lfsBlockSize → Byte) : Prop where
  logged : Logged next
  full : AllFull next
  end_eq : next.cr.endPos.toNat = server.cr.endPos.toNat + 4224
  allocated : next.inodes i ≠ -1
  type : (next.inodeRecord i).type = (server.inodeRecord i).type
  view : next.view = Function.update server.view i ((server.view i).map (·.write j data))

theorem fsiWrite_wroteBlock (h : Logged server) (hfull : AllFull server)
    (hroom : server.cr.endPos.toNat + 4224 < 2 ^ 31) (hi : server.inodes i ≠ -1)
    (htype : (server.inodeRecord i).type = lfsRegularFile) (buffer : Store) (j : Fin ndirect)
    (node : Store) :
    ∃ next, fsiWrite ((i : ℕ) : ℤ) buffer ((j : ℕ) : ℤ) node server = some (0, next) ∧
      WroteBlock next server i j fun b ↦ buffer b := by
  let place := server.cr.endPos
  let appended := server.appendedBlock i buffer j (server.inodeRecord i)
  let final := appended.committed i (place + 4096 + 64)
  have hroom' : place.toNat + 4224 < 2 ^ 31 := hroom
  have hwritten : BlockWritten final server i j fun b ↦ buffer b :=
    appendedBlock_blockWritten h.placed hi (by omega) buffer j
  have hend : final.cr.endPos.toNat = place.toNat + 4224 := by
    have hcommitted : final.cr.endPos = place + 4096 + 64 + 64 := rfl
    have hpos : (place + 4096 + 64).toNat = place.toNat + 4160 := toNat_after_inode _ (by omega)
    rw [hcommitted, toNat_after_record _ (by omega), hpos]
  refine ⟨final, fsiWrite_run (h.inodeIs hi) hfull htype buffer j node, ?_⟩
  constructor
  case logged =>
    refine ⟨?_, by omega, fun k hk ↦ (hwritten.placed.node k hk).log,
      fun k l hk hl ↦ (hwritten.placed.block k l ⟨hk, hl⟩).log⟩
    rw [hend]
    exact le_max_of_le_left (le_max_right _ _)
  case full => exact fun k ↦ hfull (k + 4)
  case end_eq => exact hend
  case allocated => exact fun hnone ↦ hi ((hwritten.live i).mp hnone)
  case type => exact hwritten.type
  case view => exact hwritten.view

/-- A write made twice in full shows the files that it shows when made once. -/
theorem WroteBlock.sameFiles {once twice : Server} {data : Fin lfsBlockSize → Byte}
    (hfirst : WroteBlock once server i j data) (hsecond : WroteBlock twice once i j data) :
    SameFiles once twice := by
  apply sameFiles_of_view hfirst.logged hsecond.logged
  rw [hsecond.view]
  have honce : once.view i = (server.view i).map (·.write j data) := by
    rw [hfirst.view, Function.update_self]
  have hagain : (once.view i).map (·.write j data) = once.view i := by
    rw [honce, Option.map_map]
    congr 1
    ext1 file
    exact file.write_write j data
  rw [hagain, Function.update_eq_self]

end OS537.LFS
