import OS537.Base.Run
import OS537.LFS.Commit

/-!
# Restart equivalence

A running server is `Synced` when its image alone determines its memory: the checkpoint on disk is
`cr`, and every chunk of `inodes` is either unallocated throughout or a copy of the record its
checkpoint entry points at. `fsi_init` on the image of a synced server loads exactly the memory of
that server.

Every operation keeps this as long as it stays on the path where parent and child share a chunk.
On the other path the code writes the parent's chunk without moving `pos` on, and from then on
`pos` is 64 bytes behind the file.
-/

namespace OS537.LFS

open Bytes Code Posix

theorem chunkOf_eq_iff (i : Fin 4096) (k : Fin 256) :
    chunkOf i = k ↔ (i : ℕ) / imapChunkSize = k :=
  Fin.ext_iff

/-! ## Loading -/

/-- The checkpoint of an image. -/
abbrev diskCheckpoint (image : File) : Checkpoint := Checkpoint.ofBytes image.bytes

/-- The inode map that the checkpoint of an image describes. -/
def diskInodes (image : File) : InodeMap := fun i ↦
  if (diskCheckpoint image).chunks (chunkOf i) = -1 then -1
  else load32 image.bytes
    (((diskCheckpoint image).chunks (chunkOf i)).toNat + 4 * (i % imapChunkSize))

/-- The checkpoint and every chunk it names lie inside the image. -/
structure Loadable (image : File) : Prop where
  crSize_le : crSize ≤ image.size
  chunk : ∀ k, (diskCheckpoint image).chunks k = -1 ∨
    ((diskCheckpoint image).chunks k).toNat < 2 ^ 31 ∧
      ((diskCheckpoint image).chunks k).toNat + chunkSize ≤ image.size

/-- One step of the loop of `fsi_init`: the chunk is loaded and the others stay. -/
theorem loadChunks_step {state : Server} (hload : Loadable state.image)
    (hcr : state.cr = diskCheckpoint state.image) (k : Fin 256) (fuel : ℕ) :
    ∃ next, loadChunks (fuel + 1) k state = loadChunks fuel (k + 1) next ∧
      next.image = state.image ∧ next.cr = state.cr ∧
      ∀ i, next.inodes i = if chunkOf i = k then diskInodes state.image i else state.inodes i := by
  rw [loadChunks, bind_run (index_natCast_run k), bind_run get_run]
  by_cases hchunk : state.cr.chunks k = -1
  · rw [if_neg (not_not.mpr hchunk), bind_run (update_run _)]
    refine ⟨_, rfl, rfl, rfl, fun i ↦ ?_⟩
    rw [hcr] at hchunk
    dsimp only
    by_cases hi : chunkOf i = k
    · rw [if_pos hi, if_pos ((chunkOf_eq_iff i k).mp hi), diskInodes, hi, if_pos hchunk]
    · rw [if_neg hi, if_neg (mt (chunkOf_eq_iff i k).mpr hi)]
  · obtain ⟨hnonneg, hfit⟩ := (hload.chunk k).resolve_left (hcr ▸ hchunk)
    rw [← hcr] at hnonneg hfit
    rw [if_pos hchunk, toInt_eq_toNat hnonneg, bind_run (lseek_run _), bind_run rfl]
    dsimp only
    rw [bind_run (update_run _)]
    refine ⟨_, rfl, rfl, rfl, fun i ↦ ?_⟩
    dsimp only [loadChunk, Server.seek]
    by_cases hi : chunkOf i = k
    · have hmod : (i : ℕ) % imapChunkSize < 16 := Nat.mod_lt _ (by decide)
      have hword : 4 * ((i : ℕ) % imapChunkSize) + 4 ≤ chunkSize := by
        simp only [chunkSize]
        omega
      rw [if_pos hi, if_pos ((chunkOf_eq_iff i k).mp hi), diskInodes, hi, ← hcr, if_neg hchunk,
        Nat.zero_add, state.image.load32_pread _ hfit hword]
    · rw [if_neg hi, if_neg (mt (chunkOf_eq_iff i k).mpr hi)]

theorem loadChunks_run {state : Server} (hload : Loadable state.image)
    (hcr : state.cr = diskCheckpoint state.image) (fuel chunk : ℕ) (hchunk : chunk + fuel = 256)
    (hdone : ∀ i : Fin 4096, (chunkOf i : ℕ) < chunk →
      state.inodes i = diskInodes state.image i) :
    ∃ final, loadChunks fuel chunk state = some ((), final) ∧ final.image = state.image ∧
      final.cr = diskCheckpoint state.image ∧ final.inodes = diskInodes state.image := by
  induction fuel generalizing chunk state with
  | zero =>
    refine ⟨state, rfl, rfl, hcr, funext fun i ↦ hdone i ?_⟩
    have hlt := (chunkOf i).isLt
    omega
  | succ fuel ih =>
    have hlt : chunk < 256 := by omega
    obtain ⟨next, hstep, himage, hcr', hinodes⟩ := loadChunks_step hload hcr ⟨chunk, hlt⟩ fuel
    have hstep' : loadChunks (fuel + 1) chunk state = loadChunks fuel (chunk + 1) next := hstep
    rw [hstep', ← himage]
    apply ih (himage ▸ hload) (by rw [hcr', hcr, himage]) (chunk + 1) (by omega)
    intro i hi
    rw [hinodes, himage]
    split
    · rfl
    next hne =>
      apply hdone
      have hval : (chunkOf i : ℕ) ≠ chunk := fun heq ↦ hne (Fin.ext heq)
      omega

/-- `fsi_init` reads the checkpoint and then loads the chunks. -/
theorem fsiInit_eq {fresh : Server} (hload : crSize ≤ fresh.image.size) :
    fsiInit fresh = (loadChunks 256 0 >>= fun _ ↦ pure 0 : Fsi ℤ)
      { fresh with offset := crSize, cr := diskCheckpoint fresh.image } := by
  have hsize : 0 + crSize ≤ fresh.image.size := (Nat.zero_add _).le.trans hload
  have hcount : fresh.image.available 0 crSize = crSize := fresh.image.available_eq_of_le hsize
  have hcr : Checkpoint.ofBytes (fresh.image.pread 0 crSize fresh.cr.toBytes) =
      diskCheckpoint fresh.image := by
    apply Checkpoint.ofBytes_congr
    intro i _ hi
    rw [File.pread_apply_of_le _ _ hsize hi, Nat.zero_add]
  unfold fsiInit
  rw [bind_run lseek_zero_run, bind_run get_run, bind_run rfl]
  dsimp only [Server.seek]
  rw [hcount, if_pos rfl, bind_run (update_run _), hcr, Nat.zero_add]

/-- What `fsi_init` loads, in a process whose globals hold anything. -/
theorem fsiInit_run {fresh : Server} (hload : Loadable fresh.image) :
    ∃ loaded, fsiInit fresh = some (0, loaded) ∧ loaded.image = fresh.image ∧
      loaded.cr = diskCheckpoint fresh.image ∧ loaded.inodes = diskInodes fresh.image := by
  let state : Server := { fresh with offset := crSize, cr := diskCheckpoint fresh.image }
  have hstate : Loadable state.image := hload
  obtain ⟨loaded, hrun, hloaded⟩ := loadChunks_run hstate rfl 256 0 rfl
    (fun i hi ↦ absurd hi (Nat.not_lt_zero _))
  rw [fsiInit_eq hload.crSize_le]
  exact ⟨loaded, bind_run hrun, hloaded⟩

/-- `fsi_init` on the image of the server loads the memory of the server. -/
def Restarts (server : Server) : Prop :=
  ∀ fresh : Server, fresh.image = server.image →
    ∃ loaded, fsiInit fresh = some (0, loaded) ∧
      loaded.cr = server.cr ∧ loaded.inodes = server.inodes

theorem restarts_iff {server : Server} (hload : Loadable server.image) :
    Restarts server ↔
      diskCheckpoint server.image = server.cr ∧ diskInodes server.image = server.inodes := by
  constructor
  · intro h
    obtain ⟨loaded, hloaded, hcr, hinodes⟩ := h server rfl
    obtain ⟨disk, hdisk, -, hdiskCr, hdiskInodes⟩ := fsiInit_run hload
    have heq : loaded = disk := by
      rw [hloaded] at hdisk
      exact congrArg Prod.snd (Option.some.inj hdisk)
    rw [← hcr, ← hinodes, heq]
    exact ⟨hdiskCr.symm, hdiskInodes.symm⟩
  · rintro ⟨hcr, hinodes⟩ fresh himage
    obtain ⟨disk, hdisk, -, hdiskCr, hdiskInodes⟩ := fsiInit_run (himage ▸ hload)
    rw [himage] at hdiskCr hdiskInodes
    exact ⟨disk, hdisk, hdiskCr.trans hcr, hdiskInodes.trans hinodes⟩

/-! ## Synced servers -/

/-- The record that `cr.chunks[k]` points at is a copy of `inodes[16k .. 16k+15]`. -/
structure ChunkOnDisk (server : Server) (k : Fin 256) : Prop where
  low : crSize ≤ (server.cr.chunks k).toNat
  high : (server.cr.chunks k).toNat + chunkSize ≤ server.cr.endPos.toNat
  nonneg : (server.cr.chunks k).toNat < 2 ^ 31
  words : ∀ i, chunkOf i = k → load32 server.image.bytes
    ((server.cr.chunks k).toNat + 4 * (i % imapChunkSize)) = server.inodes i

/-- No inode of the chunk is allocated, in memory or on disk. -/
structure ChunkUnused (server : Server) (k : Fin 256) : Prop where
  chunk : server.cr.chunks k = -1
  inodes : ∀ i, chunkOf i = k → server.inodes i = -1

/-- `cr` and the log determine `inodes`. -/
structure Mapped (server : Server) : Prop where
  crSize_le : crSize ≤ server.cr.endPos.toNat
  chunk : ∀ k, ChunkUnused server k ∨ ChunkOnDisk server k

/-- The image determines the memory of the server. -/
structure Synced (server : Server) : Prop extends Mapped server where
  checkpoint : diskCheckpoint server.image = server.cr
  end_le : server.cr.endPos.toNat ≤ server.image.size

theorem ChunkOnDisk.ne {server : Server} {k : Fin 256} (h : ChunkOnDisk server k) :
    server.cr.chunks k ≠ -1 :=
  ne_neg_one_of_toNat_lt h.nonneg

theorem Synced.loadable {server : Server} (hsync : Synced server) : Loadable server.image where
  crSize_le := hsync.crSize_le.trans hsync.end_le
  chunk := by
    intro k
    rw [hsync.checkpoint]
    rcases hsync.chunk k with hunused | hdisk
    · exact Or.inl hunused.chunk
    · exact Or.inr ⟨hdisk.nonneg, hdisk.high.trans hsync.end_le⟩

theorem Synced.diskInodes_eq {server : Server} (hsync : Synced server) :
    diskInodes server.image = server.inodes := by
  ext1 i
  unfold diskInodes
  rw [hsync.checkpoint]
  rcases hsync.chunk (chunkOf i) with hunused | hdisk
  · rw [if_pos hunused.chunk, hunused.inodes i rfl]
  · rw [if_neg hdisk.ne, hdisk.words i rfl]

theorem Synced.restarts {server : Server} (hsync : Synced server) : Restarts server :=
  (restarts_iff hsync.loadable).mpr ⟨hsync.checkpoint, hsync.diskInodes_eq⟩

/-! ## Committing -/

/-- A commit at the position the file has really reached leaves a synced server. -/
theorem Mapped.committed {start server : Server} {pos : Word} (hmapped : Mapped start)
    (hlog : Logging start server pos) (inum : Fin 4096)
    (hcr : ∀ k, k ≠ chunkOf inum → server.cr.chunks k = start.cr.chunks k)
    (hother : ∀ i, chunkOf i ≠ chunkOf inum → server.inodes i = start.inodes i)
    (hroom : pos.toNat < 2 ^ 31) : Synced (server.committed inum pos) := by
  have hend : (server.committed inum pos).cr.endPos.toNat = pos.toNat + 64 := by
    rw [committed_cr]
    change (pos + 64).toNat = _
    rw [BitVec.toNat_add]
    change (pos.toNat + 64) % 2 ^ 32 = _
    omega
  have hlow : crSize ≤ pos.toNat := hmapped.crSize_le.trans hlog.start_le
  refine ⟨⟨?_, ?_⟩, committed_checkpoint inum pos, ?_⟩
  · rw [hend]
    omega
  · intro k
    by_cases hk : k = chunkOf inum
    · have hchunk : (server.committed inum pos).cr.chunks k = pos := by
        rw [committed_cr, hk]
        exact Function.update_self _ _ _
      right
      constructor
      · rwa [hchunk]
      · rw [hchunk, hend]
      · rwa [hchunk]
      · intro i hi
        rw [hchunk]
        exact committed_words hlog inum hlow i (hi.trans hk)
    · have hchunk : (server.committed inum pos).cr.chunks k = start.cr.chunks k := by
        rw [committed_cr, ← hcr k hk]
        exact Function.update_of_ne hk _ _
      have hinodes (i : Fin 4096) (hi : chunkOf i = k) :
          (server.committed inum pos).inodes i = start.inodes i :=
        hother i (fun heq ↦ hk (hi.symm.trans heq))
      rcases hmapped.chunk k with hunused | hdisk
      · left
        constructor
        · rw [hchunk, hunused.chunk]
        · intro i hi
          rw [hinodes i hi, hunused.inodes i hi]
      · right
        have hhigh := hdisk.high
        have hstart := hlog.start_le
        constructor
        · rw [hchunk]
          exact hdisk.low
        · rw [hchunk, hend]
          omega
        · rw [hchunk]
          exact hdisk.nonneg
        · intro i hi
          have hmod : (i : ℕ) % imapChunkSize < 16 := Nat.mod_lt _ (by decide)
          have hfit : (start.cr.chunks k).toNat + 4 * ((i : ℕ) % imapChunkSize) + 4 ≤
              start.cr.endPos.toNat := by
            simp only [chunkSize] at hhigh
            omega
          have hdlow := hdisk.low
          rw [hchunk, hinodes i hi, ← hdisk.words i hi]
          rw [(committed_log hlog inum).load32_eq (by omega) (by omega)]
          exact hlog.log.load32_eq (Nat.zero_le _) hfit
  · rw [hend]
    exact committed_size_ge hlog inum

end OS537.LFS
