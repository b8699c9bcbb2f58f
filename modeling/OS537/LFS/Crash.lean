import OS537.LFS.Runs

/-!
# Crash atomicity of `fsi_write`

`fsi_write` appends the data block, the inode and the chunk of the inode map behind the log, and
then overwrites the checkpoint. Stop the disk after any prefix of these four writes: `fsi_init`
sees the state before the call until the checkpoint is written and the state after it from then
on. What the old checkpoint reaches lies before the old end of the log, where the first three
writes do not go.
-/

namespace OS537.LFS

open Bytes Code Posix

variable {server : Server}

/-! ## What a client sees -/

/-- An inode as its readers see it: `none` for a block that is not allocated. -/
structure FileView where
  type : Word
  size : Word
  blocks : Fin ndirect → Option (Fin lfsBlockSize → Byte)

def blockView (image : File) (pos : Word) : Option (Fin lfsBlockSize → Byte) :=
  if pos = -1 then none else some fun i ↦ image.bytes (pos.toNat + i)

def inodeView (image : File) (pos : Word) : Option FileView :=
  if pos = -1 then none
  else
    let node := Inode.ofBytes image.bytes pos.toNat
    some ⟨node.type, node.size, fun j ↦ blockView image (node.direct j)⟩

/-- Every inode of a server. -/
def Server.view (server : Server) : Fin 4096 → Option FileView :=
  fun i ↦ inodeView server.image (server.inodes i)

/-- Disk and memory agree where the checkpoint reaches, and what is live lies in the log. -/
structure OnDisk (server : Server) : Prop where
  checkpoint : diskCheckpoint server.image = server.cr
  end_le : server.cr.endPos.toNat ≤ server.image.size
  chunk : ∀ k, server.cr.chunks k ≠ -1 → InLog server (server.cr.chunks k) chunkSize ∧
    ∀ i, chunkOf i = k → load32 server.image.bytes
      ((server.cr.chunks k).toNat + 4 * (i % imapChunkSize)) = server.inodes i
  node : ∀ i, server.inodes i ≠ -1 → InLog server (server.inodes i) inodeSize
  block : ∀ i j, server.inodes i ≠ -1 → (server.inodeRecord i).direct j ≠ -1 →
    InLog server ((server.inodeRecord i).direct j) lfsBlockSize

/-- Inodes of an unallocated chunk are unallocated. -/
def NoStrayInode (server : Server) : Prop :=
  ∀ i, server.cr.chunks (chunkOf i) = -1 → server.inodes i = -1

theorem OnDisk.synced (h : OnDisk server) (hstray : NoStrayInode server)
    (hlow : crSize ≤ server.cr.endPos.toNat) (hroom : server.cr.endPos.toNat < 2 ^ 31) :
    Synced server where
  crSize_le := hlow
  checkpoint := h.checkpoint
  end_le := h.end_le
  chunk := by
    intro k
    by_cases hk : server.cr.chunks k = -1
    · left
      refine ⟨hk, fun i hi ↦ hstray i ?_⟩
      rw [hi, hk]
    · right
      obtain ⟨⟨hlow, hhigh⟩, hwords⟩ := h.chunk k hk
      exact ⟨hlow, hhigh, by omega, hwords⟩

/-- The live records lie in the log, and the log in the image. -/
structure Logged (server : Server) : Prop where
  end_le : server.cr.endPos.toNat ≤ server.image.size
  end_lt : server.cr.endPos.toNat < 2 ^ 31
  node : ∀ i, server.inodes i ≠ -1 → InLog server (server.inodes i) inodeSize
  block : ∀ i j, server.inodes i ≠ -1 → (server.inodeRecord i).direct j ≠ -1 →
    InLog server ((server.inodeRecord i).direct j) lfsBlockSize

theorem OnDisk.logged (h : OnDisk server) (hroom : server.cr.endPos.toNat < 2 ^ 31) :
    Logged server :=
  ⟨h.end_le, hroom, h.node, h.block⟩

/-- The records of one inode lie in the log. -/
structure InodeLogged (server : Server) (i : Fin 4096) : Prop where
  node : InLog server (server.inodes i) inodeSize
  block : ∀ j, (server.inodeRecord i).direct j ≠ -1 →
    InLog server ((server.inodeRecord i).direct j) lfsBlockSize

theorem Logged.inode (h : Logged server) {i : Fin 4096} (hi : server.inodes i ≠ -1) :
    InodeLogged server i :=
  ⟨h.node i hi, fun j ↦ h.block i j hi⟩

theorem Logged.seek (h : Logged server) (offset : ℕ) : Logged (server.seek offset) :=
  ⟨h.end_le, h.end_lt, h.node, h.block⟩

theorem Logged.inodeIs (h : Logged server) {i : Fin 4096} (hi : server.inodes i ≠ -1) :
    InodeIs server i (server.inodeRecord i) := by
  have hrecord := h.node i hi
  have hend := h.end_lt
  exact ⟨by have := hrecord.2; omega, hrecord.2.trans h.end_le, rfl⟩

theorem Logged.direct_fits (h : Logged server) {i : Fin 4096} (hi : server.inodes i ≠ -1)
    {j : Fin ndirect} (hj : (server.inodeRecord i).direct j ≠ -1) :
    ((server.inodeRecord i).direct j).toNat < 2 ^ 31 ∧
      ((server.inodeRecord i).direct j).toNat + lfsBlockSize ≤ server.image.size := by
  have hblock := h.block i j hi hj
  have hend := h.end_lt
  exact ⟨by have := hblock.2; omega, hblock.2.trans h.end_le⟩

theorem view_unallocated {i : Fin 4096} (hi : server.inodes i = -1) : server.view i = none :=
  if_pos hi

theorem view_allocated {i : Fin 4096} (hi : server.inodes i ≠ -1) :
    server.view i = some ⟨(server.inodeRecord i).type, (server.inodeRecord i).size,
      fun j ↦ blockView server.image ((server.inodeRecord i).direct j)⟩ :=
  if_neg hi

/-- `fsi_stat` reports the type and the size of the view. -/
theorem fsiStat_view (h : Logged server) (i : Fin 4096) (node : Store) :
    ∃ next, fsiStat ((i : ℕ) : ℤ) node server =
      some ((server.view i).map fun file ↦ (file.type, file.size), next) := by
  unfold fsiStat
  by_cases hi : server.inodes i = -1
  · rw [bind_run (getInode_unallocated node hi), view_unallocated hi]
    exact ⟨server, rfl⟩
  · rw [bind_run (getInode_run node (h.inodeIs hi)), view_allocated hi]
    exact ⟨_, rfl⟩

/-! ## Disks that agree on the log -/

theorem blockView_congr {image crash : File} {lo hi : ℕ} {pos : Word}
    (hagree : AgreeOn crash.bytes image.bytes lo hi)
    (hfits : pos ≠ -1 → lo ≤ pos.toNat ∧ pos.toNat + lfsBlockSize ≤ hi) :
    blockView crash pos = blockView image pos := by
  unfold blockView
  split
  next => rfl
  next hne =>
    congr 1
    ext1 i
    have hi := i.isLt
    obtain ⟨hlow, hhigh⟩ := hfits hne
    exact hagree _ (by omega) (by omega)

/-- An inode whose records lie in a part of the image that stays is seen as before. -/
theorem view_eq_of_agreeOn {loaded : Server} {i : Fin 4096} {lo hi : ℕ}
    (hagree : AgreeOn loaded.image.bytes server.image.bytes lo hi)
    (hinodes : loaded.inodes i = server.inodes i)
    (hnode : server.inodes i ≠ -1 →
      lo ≤ (server.inodes i).toNat ∧ (server.inodes i).toNat + inodeSize ≤ hi)
    (hblock : server.inodes i ≠ -1 → ∀ j, (server.inodeRecord i).direct j ≠ -1 →
      lo ≤ ((server.inodeRecord i).direct j).toNat ∧
        ((server.inodeRecord i).direct j).toNat + lfsBlockSize ≤ hi) :
    loaded.view i = server.view i := by
  by_cases hi : server.inodes i = -1
  · rw [view_unallocated hi, view_unallocated (hinodes.trans hi)]
  · obtain ⟨hlow, hhigh⟩ := hnode hi
    have hrecord : loaded.inodeRecord i = server.inodeRecord i := by
      unfold Server.inodeRecord
      rw [hinodes]
      apply Inode.ofBytes_congr
      intro j hj
      exact hagree _ (by omega) (by omega)
    have hblocks : (fun j ↦ blockView loaded.image ((server.inodeRecord i).direct j)) =
        fun j ↦ blockView server.image ((server.inodeRecord i).direct j) := by
      ext1 j
      exact blockView_congr hagree (hblock hi j)
    rw [view_allocated hi, view_allocated (hinodes.trans_ne hi), hrecord, hblocks]

/-- An inode whose records stay is seen as before. -/
theorem view_congr {loaded : Server} {i : Fin 4096}
    (h : server.inodes i ≠ -1 → InodeLogged server i)
    (hagree : AgreeOn loaded.image.bytes server.image.bytes crSize server.cr.endPos.toNat)
    (hinodes : loaded.inodes i = server.inodes i) : loaded.view i = server.view i :=
  view_eq_of_agreeOn hagree hinodes (fun hi ↦ (h hi).node) fun hi ↦ (h hi).block

/-- A disk with the same log shows the same inodes. -/
theorem OnDisk.view_eq (h : OnDisk server) {loaded : Server}
    (hagree : AgreeOn loaded.image.bytes server.image.bytes 0 server.cr.endPos.toNat)
    (hinodes : loaded.inodes = server.inodes) : loaded.view = server.view := by
  ext1 i
  apply view_congr (fun hi ↦ ⟨h.node i hi, fun j ↦ h.block i j hi⟩)
  · exact hagree.mono (Nat.zero_le _) le_rfl
  · rw [hinodes]

theorem Synced.of_agree (h : Synced server) {other : Server} (hcr : other.cr = server.cr)
    (hinodes : other.inodes = server.inodes)
    (hagree : AgreeOn other.image.bytes server.image.bytes 0 server.cr.endPos.toNat)
    (hsize : server.cr.endPos.toNat ≤ other.image.size) : Synced other where
  crSize_le := hcr ▸ h.crSize_le
  checkpoint := by
    rw [hcr, ← h.checkpoint]
    exact Checkpoint.ofBytes_congr (hagree.mono le_rfl h.crSize_le)
  end_le := by rwa [hcr]
  chunk := by
    intro k
    rcases h.chunk k with hunused | hdisk
    · left
      exact ⟨hcr ▸ hunused.chunk, hinodes ▸ hunused.inodes⟩
    · right
      refine ⟨hcr ▸ hdisk.low, hcr ▸ hdisk.high, hcr ▸ hdisk.nonneg, fun i hi ↦ ?_⟩
      have hmod : (i : ℕ) % imapChunkSize < 16 := Nat.mod_lt _ (by decide)
      have hhigh := hdisk.high
      simp only [chunkSize] at hhigh
      rw [hcr, hinodes, ← hdisk.words i hi]
      exact hagree.load32_eq (Nat.zero_le _) (by omega)

/-! ## Crash points -/

/-- The disk when it stops after the first `k` of the writes. -/
def crashImage (image : File) (writes : List Write) (k : ℕ) : File :=
  (writes.take k).foldl Write.apply image

/-- The four writes of `fsi_write`. -/
def fsiWriteWrites (server : Server) (inum : Fin 4096) (buffer : Store) (block : Fin ndirect)
    (node : Inode) : List Write :=
  let endPos := server.cr.endPos
  let appended := server.appendedBlock inum buffer block node
  let committed := appended.committed inum (endPos + 4096 + 64)
  [⟨endPos.toNat, lfsBlockSize, buffer⟩,
    ⟨endPos.toNat + lfsBlockSize, inodeSize, (writtenInode node block endPos).toBytes⟩,
    ⟨endPos.toNat + lfsBlockSize + inodeSize, chunkSize,
      chunkBytes appended.inodes (chunkOf inum)⟩,
    ⟨0, crSize, committed.cr.toBytes⟩]

theorem committed_trace (inum : Fin 4096) (buffer : Store) (block : Fin ndirect) (node : Inode) :
    ((server.appendedBlock inum buffer block node).committed inum
      (server.cr.endPos + 4096 + 64)).trace =
      server.trace ++ fsiWriteWrites server inum buffer block node := by
  have htrace : ((server.appendedBlock inum buffer block node).committed inum
      (server.cr.endPos + 4096 + 64)).trace = (((server.trace ++ [_]) ++ [_]) ++ [_]) ++ [_] := rfl
  rw [htrace]
  simp only [List.append_assoc]
  rfl

/-- Until the checkpoint is written, the disk agrees with the old one on the whole of the log. -/
theorem crashImage_before (h : Running server) (hroom : server.cr.endPos.toNat + 4160 < 2 ^ 31)
    (inum : Fin 4096) (buffer : Store) (block : Fin ndirect) (node : Inode) {k : ℕ} (hk : k < 4) :
    AgreeOn (crashImage server.image (fsiWriteWrites server inum buffer block node) k).bytes
        server.image.bytes 0 server.cr.endPos.toNat ∧
      server.cr.endPos.toNat ≤
        (crashImage server.image (fsiWriteWrites server inum buffer block node) k).size := by
  have hpos := toNat_after_block server.cr.endPos (by omega)
  have hpos' := toNat_after_inode server.cr.endPos (by omega)
  have hblock := h.logging.wrote_block buffer (by omega)
  have hlisted := hblock.putInode inum (server.cr.endPos + 4096)
  have hnode := hlisted.wrote_inode (writtenInode node block server.cr.endPos) (by omega)
  have hlogged {state : Server} {pos : Word} (hlog : Logging server state pos) :
      AgreeOn state.image.bytes server.image.bytes 0 server.cr.endPos.toNat ∧
        server.cr.endPos.toNat ≤ state.image.size :=
    ⟨hlog.log, hlog.start_le.trans hlog.pos_le⟩
  match k, hk with
  | 0, _ => exact ⟨fun _ _ _ ↦ rfl, h.synced.end_le⟩
  | 1, _ => exact hlogged hblock
  | 2, _ => exact hlogged hnode
  | 3, _ =>
    have hmapped : Logging server ((server.appendedBlock inum buffer block node).putChunk
        (chunkOf inum) (server.cr.endPos + 4096 + 64)) (server.cr.endPos + 4096 + 64) :=
      hnode.of_image rfl rfl rfl
    have hchunk := hmapped.wrote chunkSize
      (chunkBytes (server.appendedBlock inum buffer block node).inodes (chunkOf inum))
      (toNat_after_record _ (by omega))
    exact hlogged hchunk

theorem crashImage_after (inum : Fin 4096) (buffer : Store) (block : Fin ndirect) (node : Inode)
    {k : ℕ} (hk : 4 ≤ k) :
    crashImage server.image (fsiWriteWrites server inum buffer block node) k =
      ((server.appendedBlock inum buffer block node).committed inum
        (server.cr.endPos + 4096 + 64)).image := by
  unfold crashImage
  rw [List.take_of_length_le hk]
  rfl

theorem fsiWrite_run {inum : Fin 4096} (hnode : InodeIs server inum (server.inodeRecord inum))
    (hfull : AllFull server)
    (htype : (server.inodeRecord inum).type = lfsRegularFile) (buffer : Store)
    (block : Fin ndirect) (node : Store) :
    fsiWrite ((inum : ℕ) : ℤ) buffer ((block : ℕ) : ℤ) node server =
      some (0, (server.appendedBlock inum buffer block (server.inodeRecord inum)).committed inum
        (server.cr.endPos + 4096 + 64)) := by
  have hblock : ¬ ((block : ℕ) : ℤ) > 13 := by
    have hlt : (block : ℕ) < 14 := block.isLt
    omega
  have hfull' : AllFull (server.seek ((server.inodes inum).toNat + inodeSize)) := hfull
  unfold fsiWrite
  rw [bind_run (getInode_run node hnode)]
  dsimp only
  rw [if_neg (by decide), if_neg (not_not.mpr htype), if_neg hblock]
  exact writeCommit_run hfull' inum buffer block _

/-- A restart shows the new state from the write of the checkpoint on. -/
theorem fsiWrite_crash_view (h : OnDisk server) (hfull : AllFull server)
    (hstray : NoStrayInode server) (hroom : server.cr.endPos.toNat + 4160 < 2 ^ 31)
    (inum : Fin 4096) (hlive : server.inodes inum ≠ -1)
    (htype : (server.inodeRecord inum).type = lfsRegularFile) (buffer : Store)
    (block : Fin ndirect) (node : Store) :
    ∃ after writes, fsiWrite ((inum : ℕ) : ℤ) buffer ((block : ℕ) : ℤ) node server =
        some (0, after) ∧ writes.length = 4 ∧ after.trace = server.trace ++ writes ∧
      ∀ k fresh, fresh.image = crashImage server.image writes k →
        ∃ loaded, fsiInit fresh = some (0, loaded) ∧
          loaded.view = if k < 4 then server.view else after.view := by
  have hlow : crSize ≤ server.cr.endPos.toNat := by
    have hrecord := h.node inum hlive
    exact hrecord.1.trans ((Nat.le_add_right _ _).trans hrecord.2)
  have hrunning : Running server := ⟨h.synced hstray hlow (by omega), hfull⟩
  have hwrite := fsiWrite_run ((h.logged (by omega)).inodeIs hlive) hfull htype buffer block
    node
  refine ⟨_, fsiWriteWrites server inum buffer block (server.inodeRecord inum), hwrite, rfl,
    committed_trace inum buffer block _, fun k fresh hfresh ↦ ?_⟩
  by_cases hk : k < 4
  · obtain ⟨hagree, hsize⟩ :=
      crashImage_before hrunning hroom inum buffer block (server.inodeRecord inum) hk
    rw [← hfresh] at hagree hsize
    let crashed : Server := { server with image := fresh.image }
    have hcrashed : Synced crashed := hrunning.synced.of_agree rfl rfl hagree hsize
    have hload : Loadable fresh.image := hcrashed.loadable
    obtain ⟨loaded, hinit, himage, -, hinodes⟩ := fsiInit_run hload
    refine ⟨loaded, hinit, ?_⟩
    rw [if_pos hk]
    apply h.view_eq
    · rwa [himage]
    · exact hinodes.trans hcrashed.diskInodes_eq
  · rw [crashImage_after inum buffer block _ (not_lt.mp hk)] at hfresh
    have hafter := writeCommit_running hrunning inum buffer block (server.inodeRecord inum) hroom
    have hload : Loadable fresh.image := hfresh ▸ hafter.synced.loadable
    obtain ⟨loaded, hinit, himage, -, hinodes⟩ := fsiInit_run hload
    refine ⟨loaded, hinit, ?_⟩
    rw [if_neg hk]
    unfold Server.view
    rw [himage, hinodes, hfresh, hafter.synced.diskInodes_eq]

/-- Wherever the disk stops, a restart shows the files as they were before the call or as they are
after it. -/
def CrashAtomic (server : Server) (inum : Fin 4096) (buffer : Store) (block : Fin ndirect)
    (node : Store) : Prop :=
  ∃ after writes, fsiWrite ((inum : ℕ) : ℤ) buffer ((block : ℕ) : ℤ) node server =
      some (0, after) ∧ writes.length = 4 ∧ after.trace = server.trace ++ writes ∧
    ∀ k fresh, fresh.image = crashImage server.image writes k →
      ∃ loaded, fsiInit fresh = some (0, loaded) ∧
        (loaded.view = server.view ∨ loaded.view = after.view)

/-- Crash atomicity of `fsi_write`. -/
theorem fsiWrite_crashAtomic (h : OnDisk server) (hfull : AllFull server)
    (hstray : NoStrayInode server) (hroom : server.cr.endPos.toNat + 4160 < 2 ^ 31)
    (inum : Fin 4096) (hlive : server.inodes inum ≠ -1)
    (htype : (server.inodeRecord inum).type = lfsRegularFile) (buffer : Store)
    (block : Fin ndirect) (node : Store) : CrashAtomic server inum buffer block node := by
  obtain ⟨after, writes, hwrite, hlength, htrace, hview⟩ :=
    fsiWrite_crash_view h hfull hstray hroom inum hlive htype buffer block node
  refine ⟨after, writes, hwrite, hlength, htrace, fun k fresh hfresh ↦ ?_⟩
  obtain ⟨loaded, hinit, hloaded⟩ := hview k fresh hfresh
  refine ⟨loaded, hinit, ?_⟩
  split at hloaded
  · exact Or.inl hloaded
  · exact Or.inr hloaded

/-! ## A disk with one file -/

/-- An empty regular file as inode 0, its inode behind the checkpoint and its chunk behind that.
The checkpoint records `chunk` for the chunk and `endPos` for the end of the log. -/
def oneFile (chunk endPos : Word) : Server :=
  let inodes : InodeMap := fun i ↦ if i = 0 then 1028 else -1
  let cr : Checkpoint := ⟨endPos, fun k ↦ if k = 0 then chunk else -1⟩
  { image :=
      { bytes := splice (splice cr.toBytes 1028 inodeSize (newInode lfsRegularFile).toBytes) 1092
          chunkSize (chunkBytes inodes 0)
        size := endPos.toNat }
    offset := 0
    cr := cr
    inodes := inodes
    results := fun _ ↦ .full
    trace := [] }

variable {chunk endPos : Word}

theorem oneFile_node (hend : 1156 ≤ endPos.toNat) :
    InodeAt (oneFile chunk endPos).image 1028 (newInode lfsRegularFile) where
  fits := (show 1028 + 64 ≤ 1156 by decide).trans hend
  bytes := by
    intro i hi
    have hlow : AgreeOn (oneFile chunk endPos).image.bytes _ 0 1092 :=
      agreeOn_splice _ _ (Or.inl le_rfl)
    rw [hlow _ (Nat.zero_le _) (by simp only [inodeSize] at hi; omega)]
    exact splice_apply_inside _ _ hi

theorem oneFile_inodeRecord (hend : 1156 ≤ endPos.toNat) :
    (oneFile chunk endPos).inodeRecord 0 = newInode lfsRegularFile :=
  (oneFile_node hend).ofBytes_eq

/-- The sample meets the condition on disk and memory, with its chunk recorded or not. -/
theorem oneFile_onDisk (hchunk : chunk = 1092 ∨ chunk = -1) (hend : 1156 ≤ endPos.toNat) :
    OnDisk (oneFile chunk endPos) where
  checkpoint := by
    rw [← Checkpoint.ofBytes_toBytes (oneFile chunk endPos).cr]
    apply Checkpoint.ofBytes_congr
    have houter : AgreeOn (oneFile chunk endPos).image.bytes _ 0 1092 :=
      agreeOn_splice _ _ (Or.inl le_rfl)
    exact (houter.mono le_rfl (by decide)).trans (agreeOn_splice _ _ (Or.inl le_rfl))
  end_le := le_rfl
  chunk := by
    intro k hk
    have hzero : k = 0 := by
      by_contra hne
      exact hk (if_neg hne)
    subst hzero
    have hvalue : (oneFile chunk endPos).cr.chunks 0 = chunk := rfl
    rw [hvalue] at hk ⊢
    have hplace : chunk = 1092 := hchunk.resolve_right hk
    subst hplace
    refine ⟨⟨by decide, hend⟩, fun i hi ↦ ?_⟩
    have hmod : (i : ℕ) % imapChunkSize < 16 := Nat.mod_lt _ (by decide)
    have hword : 4 * ((i : ℕ) % imapChunkSize) + 4 ≤ chunkSize := by
      simp only [chunkSize]
      omega
    calc
      load32 (oneFile 1092 endPos).image.bytes (1092 + 4 * (i % imapChunkSize)) =
          load32 (chunkBytes (oneFile 1092 endPos).inodes 0) (4 * (i % imapChunkSize)) :=
        load32_splice_inside _ _ hword
      _ = (oneFile 1092 endPos).inodes i := load32_chunkBytes _ i 0 (congrArg Fin.val hi)
  node := by
    intro i hi
    have hzero : i = 0 := by
      by_contra hne
      exact hi (if_neg hne)
    subst hzero
    exact ⟨le_rfl, (show 1028 + 64 ≤ 1156 by decide).trans hend⟩
  block := by
    intro i j hi hj
    have hzero : i = 0 := by
      by_contra hne
      exact hi (if_neg hne)
    subst hzero
    rw [oneFile_inodeRecord hend] at hj
    exact absurd rfl hj

theorem oneFile_noStrayInode : NoStrayInode (oneFile 1092 endPos) := by
  intro i hi
  apply if_neg
  intro hzero
  subst hzero
  exact absurd hi (show (1092 : Word) ≠ -1 by decide)

/-- The condition is met by a disk whose chunk is recorded. -/
theorem oneFile_crashAtomic : CrashAtomic (oneFile 1092 1156) 0 junk 0 junk :=
  fsiWrite_crashAtomic (oneFile_onDisk (Or.inl rfl) le_rfl) (fun _ ↦ rfl) oneFile_noStrayInode
    (by decide) 0 (by decide) (by rw [oneFile_inodeRecord le_rfl]; rfl) junk 0 junk

/-! ## Where atomicity fails -/

/-- A live inode in a chunk that the checkpoint does not record is lost by a restart before any
write. -/
theorem stray_not_crashAtomic : ¬ CrashAtomic (oneFile (-1) 1156) 0 junk 0 junk := by
  rintro ⟨after, writes, hwrite, -, -, hcrash⟩
  have hdisk : OnDisk (oneFile (-1) 1156) := oneFile_onDisk (Or.inr rfl) le_rfl
  have htype : ((oneFile (-1) 1156).inodeRecord 0).type = lfsRegularFile := by
    rw [oneFile_inodeRecord le_rfl]
    rfl
  obtain ⟨loaded, hinit, hview⟩ := hcrash 0 (oneFile (-1) 1156) rfl
  have hchunks (k : Fin 256) : (diskCheckpoint (oneFile (-1) 1156).image).chunks k = -1 := by
    rw [hdisk.checkpoint]
    exact ite_self _
  have hload : Loadable (oneFile (-1) 1156).image := ⟨by decide, fun k ↦ Or.inl (hchunks k)⟩
  obtain ⟨loaded', hinit', -, -, hinodes⟩ := fsiInit_run hload
  have hlost : loaded.view 0 = none := by
    rw [hinit] at hinit'
    cases hinit'
    have hzero : loaded.inodes 0 = -1 := by
      rw [hinodes]
      exact if_pos (hchunks _)
    unfold Server.view inodeView
    rw [if_pos hzero]
  have hsome {server : Server} (h : server.inodes 0 ≠ -1) : server.view 0 ≠ none := by
    unfold Server.view inodeView
    rw [if_neg h]
    exact Option.some_ne_none _
  rcases hview with hbefore | hafter
  · rw [hbefore] at hlost
    exact hsome (by decide) hlost
  · have hwrite' := fsiWrite_run ((hdisk.logged (by decide)).inodeIs (by decide)) (fun _ ↦ rfl)
      htype junk 0 junk
    rw [hwrite] at hwrite'
    cases hwrite'
    rw [hafter] at hlost
    exact hsome (by decide) hlost

/-- The loop of `fsi_init` leaves the chunks it has passed. -/
theorem loadChunks_frame {fuel chunk : ℕ} {state final : Server}
    (h : loadChunks fuel chunk state = some ((), final)) (i : Fin 4096)
    (hi : (chunkOf i : ℕ) < chunk) : final.inodes i = state.inodes i := by
  induction fuel generalizing chunk state with
  | zero =>
    cases h
    rfl
  | succ fuel ih =>
    obtain ⟨k, middle, hindex, hrest⟩ := bind_eq_some h
    obtain ⟨hk, rfl⟩ := index_eq_some hindex
    have hother : (i : ℕ) / imapChunkSize ≠ k := by
      have hlt : (i : ℕ) / imapChunkSize < chunk := hi
      omega
    rw [bind_run get_run] at hrest
    by_cases hchunk : middle.cr.chunks k = -1
    · rw [if_neg (not_not.mpr hchunk), bind_run (update_run _)] at hrest
      rw [ih hrest (by omega)]
      exact if_neg hother
    · rw [if_pos hchunk] at hrest
      obtain ⟨done, sought, hseek, hrest⟩ := bind_eq_some hrest
      obtain ⟨⟨count, buffer⟩, filled, hread, hrest⟩ := bind_eq_some hrest
      have hinodes : filled.inodes = middle.inodes := by
        rw [readOnly_read _ _ _ _ _ hread, readOnly_lseek _ _ _ _ hseek]
      dsimp only at hrest
      rw [bind_run (update_run _)] at hrest
      rw [ih hrest (by omega), ← hinodes]
      exact if_neg hother

/-- When the chunk's position is no `int`, the restart after the whole call loads the bytes behind
the checkpoint region in its place. -/
theorem overflow_not_crashAtomic : ¬ CrashAtomic (oneFile 1092 0x7ffff000) 0 junk 0 junk := by
  rintro ⟨after, writes, hwrite, hlength, htrace, hcrash⟩
  let server := oneFile 1092 0x7ffff000
  have hdisk : OnDisk server := oneFile_onDisk (Or.inl rfl) (by decide)
  have hrecord : server.inodeRecord 0 = newInode lfsRegularFile := oneFile_inodeRecord (by decide)
  have hwrite' := fsiWrite_run ((hdisk.logged (by decide)).inodeIs (by decide)) (fun _ ↦ rfl)
    (show (server.inodeRecord 0).type = lfsRegularFile by rw [hrecord]; rfl) junk 0 junk
  rw [hwrite] at hwrite'
  cases hwrite'
  have hwrites := List.append_cancel_left (htrace.symm.trans (committed_trace 0 junk 0 _))
  let after := (server.appendedBlock 0 junk 0 (server.inodeRecord 0)).committed 0
    (server.cr.endPos + 4096 + 64)
  obtain ⟨loaded, hinit, hview⟩ := hcrash 4 after (by rw [hwrites, crashImage_after _ _ _ _ le_rfl])
  have hnode : InodeAt after.image 1028 (newInode lfsRegularFile) := by
    have hstart : InodeAt (server.seek server.cr.endPos.toNat).image 1028
        (newInode lfsRegularFile) := oneFile_node (by decide)
    have hblock := holds_wrote_of_holds hstart (by decide) lfsBlockSize junk
    have hlisted : InodeAt (((server.seek server.cr.endPos.toNat).wrote lfsBlockSize
        junk).putInode 0 (server.cr.endPos + 4096)).image 1028 (newInode lfsRegularFile) := hblock
    apply holds_committed _ le_rfl (by decide)
    exact holds_wrote_of_holds hlisted (by decide) inodeSize _
  -- The position 2^31 + 64 is negative, so the chunk is read from behind the checkpoint region.
  have hread : loaded.inodes 1 = 1 := by
    have hsize : crSize ≤ after.image.size := le_max_right _ _
    have hfits : crSize + chunkSize ≤ after.image.size := hnode.fits
    have hcr : diskCheckpoint after.image = after.cr := committed_checkpoint _ _
    let state : Server := { after with offset := crSize, cr := after.cr }
    have hseek : lseek (state.cr.chunks 0).toInt state = some ((), state) :=
      lseek_negative_run (by decide)
    rw [fsiInit_eq hsize, hcr] at hinit
    obtain ⟨done, final, hchunks, hfinal⟩ := bind_eq_some hinit
    cases hfinal
    change loadChunks (255 + 1) ((0 : Fin 256) : ℕ) state = some ((), loaded) at hchunks
    rw [loadChunks, bind_run (index_natCast_run 0), bind_run get_run, if_pos (by decide),
      bind_run hseek, bind_run rfl] at hchunks
    dsimp only at hchunks
    rw [bind_run (update_run _)] at hchunks
    rw [loadChunks_frame hchunks 1 (by decide)]
    calc
      load32 (after.image.pread crSize chunkSize (chunkBytes after.inodes 0)) (0 + 4 * 1) =
          load32 after.image.bytes (crSize + 4) :=
        after.image.load32_pread _ hfits (by decide)
      _ = (newInode lfsRegularFile).words 1 := by
        rw [hnode.load32_eq (by decide)]
        exact load32_wordBytes _ 1
  have hnone : server.view 1 = none ∧ after.view 1 = none := ⟨rfl, rfl⟩
  have hsome : loaded.view 1 ≠ none := by
    unfold Server.view inodeView
    rw [hread, if_neg (by decide)]
    exact Option.some_ne_none _
  rcases hview with hbefore | hafter
  · exact hsome (congrFun hbefore 1 ▸ hnone.1)
  · exact hsome (congrFun hafter 1 ▸ hnone.2)

/-- The two conditions of `fsiWrite_crashAtomic` that go beyond the agreement of disk and memory
are needed. -/
theorem crashAtomic_needs_conditions :
    (∃ server, OnDisk server ∧ AllFull server ∧ server.inodes 0 ≠ -1 ∧
      (server.inodeRecord 0).type = lfsRegularFile ∧ server.cr.endPos.toNat + 4160 < 2 ^ 31 ∧
      ¬ CrashAtomic server 0 junk 0 junk) ∧
    ∃ server, OnDisk server ∧ AllFull server ∧ server.inodes 0 ≠ -1 ∧
      (server.inodeRecord 0).type = lfsRegularFile ∧ NoStrayInode server ∧
      ¬ CrashAtomic server 0 junk 0 junk := by
  constructor
  · refine ⟨oneFile (-1) 1156, oneFile_onDisk (Or.inr rfl) le_rfl, fun _ ↦ rfl, by decide, ?_,
      by decide, stray_not_crashAtomic⟩
    rw [oneFile_inodeRecord le_rfl]
    rfl
  · refine ⟨oneFile 1092 0x7ffff000, oneFile_onDisk (Or.inl rfl) (by decide), fun _ ↦ rfl,
      by decide, ?_, oneFile_noStrayInode, overflow_not_crashAtomic⟩
    rw [oneFile_inodeRecord (by decide)]
    rfl

end OS537.LFS
