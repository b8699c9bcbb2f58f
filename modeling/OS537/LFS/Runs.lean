import OS537.LFS.Log
import OS537.LFS.Restart

/-!
# Restart equivalence over whole runs

A run is a sequence of `fsi_creat`, `fsi_write` and `fsi_unlink` calls from the image made by
`fsi_build`, with every `write` succeeding in full. `Call.Safe` is the condition under which one
call keeps the server synced: the inode numbers the call works on lie in the parent's chunk, its
searches stay inside the arrays they index, and the positions of the log stay `int`s.

Without the first condition a restart brings back an older inode map: the parent's chunk is
written, but `pos` stays where it was.
-/

namespace OS537.LFS

open Bytes Code Posix Run

variable {server : Server}

/-- A synced server whose writes will all succeed. -/
structure Running (server : Server) : Prop where
  synced : Synced server
  full : AllFull server

theorem Running.seek (h : Running server) (offset : ℕ) : Running (server.seek offset) :=
  ⟨⟨⟨h.synced.crSize_le, fun k ↦ (h.synced.chunk k).imp
    (fun hunused ↦ ⟨hunused.chunk, hunused.inodes⟩)
    (fun hdisk ↦ ⟨hdisk.low, hdisk.high, hdisk.nonneg, hdisk.words⟩)⟩,
    h.synced.checkpoint, h.synced.end_le⟩, h.full⟩

theorem Running.of_readOnly {α : Type} {code : Fsi α} {value : α} {next : Server}
    (h : Running server) (hcode : ReadOnly code) (hrun : code server = some (value, next)) :
    Running next := by
  rw [hcode _ _ _ hrun]
  exact h.seek next.offset

/-! ## Appending to the log -/

theorem toNat_add_of_lt {pos : Word} {n : ℕ} (h : pos.toNat + n < 2 ^ 32) :
    (pos + BitVec.ofNat 32 n).toNat = pos.toNat + n := by
  rw [BitVec.toNat_add, BitVec.toNat_ofNat, Nat.add_mod_mod]
  exact Nat.mod_eq_of_lt h

theorem Logging.putInode {start : Server} {pos : Word} (h : Logging start server pos)
    (inum : Fin 4096) (place : Word) : Logging start (server.putInode inum place) pos :=
  h.of_image rfl rfl rfl

theorem Logging.wrote_block {start : Server} {pos : Word} (h : Logging start server pos)
    (block : Store) (hroom : pos.toNat + 4096 < 2 ^ 32) :
    Logging start (server.wrote lfsBlockSize block) (pos + 4096) :=
  h.wrote lfsBlockSize block (toNat_add_of_lt hroom)

theorem Logging.wrote_inode {start : Server} {pos : Word} (h : Logging start server pos)
    (node : Inode) (hroom : pos.toNat + 64 < 2 ^ 32) :
    Logging start (server.wrote inodeSize node.toBytes) (pos + 64) :=
  h.wrote inodeSize node.toBytes (toNat_add_of_lt hroom)

theorem Running.logging (h : Running server) :
    Logging server (server.seek server.cr.endPos.toNat) server.cr.endPos where
  full := h.full
  offset_eq := rfl
  start_le := le_rfl
  pos_le := h.synced.end_le
  log := fun _ _ _ ↦ rfl

theorem Running.committed {start : Server} {pos : Word} (h : Running start)
    (hlog : Logging start server pos) (inum : Fin 4096) (hcr : server.cr = start.cr)
    (hother : ∀ i, chunkOf i ≠ chunkOf inum → server.inodes i = start.inodes i)
    (hroom : pos.toNat < 2 ^ 31) : Running (server.committed inum pos) where
  synced := h.synced.committed hlog inum (fun k _ ↦ by rw [hcr]) hother hroom
  full := committed_full hlog.full inum pos

theorem update_of_chunk_ne {inodes : InodeMap} {i inum : Fin 4096} {place : Word}
    (h : chunkOf i ≠ chunkOf inum) : Function.update inodes inum place i = inodes i := by
  apply Function.update_of_ne
  intro heq
  exact h (congrArg chunkOf heq)

theorem toNat_after_record (pos : Word) (h : pos.toNat + 64 < 2 ^ 32) :
    (pos + 64).toNat = pos.toNat + 64 :=
  toNat_add_of_lt h

/-- The positions after a block and an inode. -/
theorem toNat_after_block (pos : Word) (h : pos.toNat + 4096 < 2 ^ 32) :
    (pos + 4096).toNat = pos.toNat + 4096 :=
  toNat_add_of_lt h

theorem toNat_after_inode (pos : Word) (h : pos.toNat + 4160 < 2 ^ 32) :
    (pos + 4096 + 64).toNat = pos.toNat + 4160 := by
  have hblock : (pos + 4096).toNat = pos.toNat + 4096 := toNat_after_block _ (by omega)
  have hinode : (pos + 4096 + 64).toNat = (pos + 4096).toNat + 64 :=
    toNat_after_record _ (by rw [hblock]; omega)
  rw [hinode, hblock]

theorem writeCommit_running (h : Running server) (inum : Fin 4096) (buffer : Store)
    (block : Fin ndirect) (node : Inode) (hroom : server.cr.endPos.toNat + 4160 < 2 ^ 31) :
    Running ((server.appendedBlock inum buffer block node).committed inum
      (server.cr.endPos + 4096 + 64)) := by
  have hblock := toNat_after_block server.cr.endPos (by omega)
  have hlog : Logging server (server.appendedBlock inum buffer block node)
      (server.cr.endPos + 4096 + 64) := by
    apply Logging.wrote_inode
    · apply Logging.putInode
      exact h.logging.wrote_block buffer (by omega)
    · rw [hblock]
      omega
  apply h.committed hlog inum rfl
  · intro i hi
    exact update_of_chunk_ne hi
  · rw [toNat_after_inode _ (by omega)]
    exact hroom

theorem appendedParent_logging (h : Running server) (parent : Fin 4096) (plan : UnlinkPlan)
    (block : Fin ndirect) (slot : ℕ) (hroom : server.cr.endPos.toNat + 4160 < 2 ^ 31) :
    Logging server (server.appendedParent parent plan block slot)
      (server.cr.endPos + 4096 + 64) := by
  have hblock := toNat_after_block server.cr.endPos (by omega)
  apply Logging.putInode
  apply Logging.putInode
  apply Logging.wrote_inode
  · exact h.logging.wrote_block plan.dirBlock (by omega)
  · rw [hblock]
    omega

theorem unlinkCommit_running (h : Running server) (parent : Fin 4096) (plan : UnlinkPlan)
    (block : Fin ndirect) (slot : ℕ) (hchunk : chunkOf parent = chunkOf plan.cinum)
    (hroom : server.cr.endPos.toNat + 4160 < 2 ^ 31) :
    Running ((server.appendedParent parent plan block slot).committed plan.cinum
      (server.cr.endPos + 4096 + 64)) := by
  apply h.committed (appendedParent_logging h parent plan block slot hroom) plan.cinum rfl
  · intro i hi
    have hparent : chunkOf i ≠ chunkOf parent := by rwa [hchunk]
    exact (update_of_chunk_ne hi).trans (update_of_chunk_ne hparent)
  · rw [toNat_after_inode _ (by omega)]
    exact hroom

theorem appendedEntry_logging (h : Running server) (parent : Fin 4096) (plan : CreatPlan)
    (hroom : server.cr.endPos.toNat + 4160 < 2 ^ 31) :
    Logging server (server.appendedEntry parent plan) (server.cr.endPos + 4096 + 64) := by
  have hblock := toNat_after_block server.cr.endPos (by omega)
  apply Logging.wrote_inode
  · apply Logging.putInode
    exact h.logging.wrote_block plan.dirBlock (by omega)
  · rw [hblock]
    omega

/-- The child's inode, its chunk and the checkpoint, after the parent's records. -/
theorem creatChild_running {start : Server} {pos : Word} (h : Running start)
    (hlog : Logging start server pos) (hcr : server.cr = start.cr) (inum : Fin 4096)
    (child : Inode) (hroom : pos.toNat + 64 < 2 ^ 31)
    (hother : ∀ i, chunkOf i ≠ chunkOf inum → server.inodes i = start.inodes i) :
    Running ((server.appendedChild inum child pos).committed inum (pos + 64)) := by
  have hchild : Logging start (server.appendedChild inum child pos) (pos + 64) := by
    apply Logging.wrote_inode
    · exact hlog.putInode inum pos
    · omega
  apply h.committed hchild inum hcr
  · intro i hi
    exact (update_of_chunk_ne hi).trans (hother i hi)
  · have hpos : (pos + 64).toNat = pos.toNat + 64 := toNat_after_record _ (by omega)
    rw [hpos]
    exact hroom

theorem creatCommit_running (h : Running server) (parent : Fin 4096) (type : Word)
    (childDirBlock : Store) (plan : CreatPlan) (hchunk : chunkOf parent = chunkOf plan.inum)
    (hroom : server.cr.endPos.toNat + 8320 < 2 ^ 31) :
    ∃ next, creatCommit ((parent : ℕ) : ℤ) type childDirBlock plan server = some (0, next) ∧
      Running next := by
  have hother (i : Fin 4096) (hi : chunkOf i ≠ chunkOf plan.inum) :
      (server.appendedEntry parent plan).inodes i = server.inodes i := by
    apply update_of_chunk_ne
    rwa [hchunk]
  rw [creatCommit_run h.full parent type childDirBlock plan hchunk]
  have hlog := appendedEntry_logging h parent plan (by omega)
  have hinode := toNat_after_inode server.cr.endPos (by omega)
  split
  next =>
    have hblock := hlog.wrote_block (childBlock childDirBlock (BitVec.ofNat 32 plan.inum)
      (BitVec.ofInt 32 ((parent : ℕ) : ℤ))) (by omega)
    rw [creatChild_run hblock.full]
    refine ⟨_, rfl, creatChild_running h hblock rfl plan.inum _ ?_ hother⟩
    rw [toNat_after_block _ (by omega)]
    omega
  next =>
    rw [creatChild_run hlog.full]
    exact ⟨_, rfl, creatChild_running h hlog rfl plan.inum _ (by omega) hother⟩

/-! ## Calls -/

/-- A call with arguments in range. The frames are what the stack contains. -/
inductive Call
  | creat (pinum : Fin 4096) (type : Word) (name : CString) (frame : CreatFrame)
  | write (inum : Fin 4096) (buffer : Store) (block : Fin ndirect) (node : Store)
  | unlink (pinum : Fin 4096) (name : CString) (frame : UnlinkFrame)

def Call.exec : Call → Fsi ℤ
  | .creat pinum type name frame => fsiCreat ((pinum : ℕ) : ℤ) type name frame
  | .write inum buffer block node => fsiWrite ((inum : ℕ) : ℤ) buffer ((block : ℕ) : ℤ) node
  | .unlink pinum name frame => fsiUnlink ((pinum : ℕ) : ℤ) name frame

def Call.step (server : Server) (call : Call) : Option Server :=
  (call.exec server).map Prod.snd

/-- The positions of the longest call are still `int`s. -/
def HasRoom (server : Server) : Prop := server.cr.endPos.toNat + 12544 < 2 ^ 31

/-- `fsi_unlink` stays inside its arrays and removes an inode of the parent's chunk. -/
structure UnlinkSafe (server : Server) (pinum : Fin 4096) (name : CString) (frame : UnlinkFrame) :
    Prop where
  defined : unlinkSearch ((pinum : ℕ) : ℤ) name frame server ≠ none
  found : ∀ plan next, unlinkSearch ((pinum : ℕ) : ℤ) name frame server = some (.inr plan, next) →
    ∃ (block : Fin ndirect) (slot : ℕ), plan.found = some ((block : ℕ), slot)
  chunk : ∀ plan next, unlinkSearch ((pinum : ℕ) : ℤ) name frame server = some (.inr plan, next) →
    chunkOf pinum = chunkOf plan.cinum

/-- `fsi_creat` stays inside its arrays, and both the inode it replaces and the first free one are
in the parent's chunk. -/
structure CreatSafe (server : Server) (pinum : Fin 4096) (name : CString) (frame : CreatFrame) :
    Prop where
  unlink : ∀ pnode found next, creatProbe ((pinum : ℕ) : ℤ) name frame server =
    some (some (pnode, found), next) → found > 0 → UnlinkSafe next pinum name frame.unlink
  chunk : ∀ pnode found next freed, creatProbe ((pinum : ℕ) : ℤ) name frame server =
    some (some (pnode, found), next) →
    creatReplace ((pinum : ℕ) : ℤ) name frame.unlink found next = some ((), freed) →
    ∀ inum : Fin 4096, Scan.first (inodeFree freed.inodes) 4096 = some (inum : ℕ) →
      chunkOf pinum = chunkOf inum

def Call.Safe (server : Server) : Call → Prop
  | .creat pinum _ name frame => HasRoom server ∧ CreatSafe server pinum name frame
  | .write _ _ _ _ => HasRoom server
  | .unlink pinum name frame => HasRoom server ∧ UnlinkSafe server pinum name frame

/-! ## One call -/

theorem fsiWrite_running (h : Running server) (hroom : HasRoom server) (inum : Fin 4096)
    (buffer : Store) (block : Fin ndirect) (node : Store) :
    ∃ rc next, fsiWrite ((inum : ℕ) : ℤ) buffer ((block : ℕ) : ℤ) node server = some (rc, next) ∧
      Running next := by
  obtain ⟨⟨rc, inode⟩, middle, hmiddle⟩ := total_getInode inum node server
  have hread := readOnly_getInode _ _ _ _ _ hmiddle
  have hrunning := h.of_readOnly (readOnly_getInode _ _) hmiddle
  have hblock : ¬ ((block : ℕ) : ℤ) > 13 := by
    have hlt : (block : ℕ) < 14 := block.isLt
    omega
  unfold fsiWrite
  rw [bind_run hmiddle]
  dsimp only
  rw [if_neg hblock]
  split
  next => exact ⟨-1, middle, rfl, hrunning⟩
  next =>
    split
    next => exact ⟨-1, middle, rfl, hrunning⟩
    next =>
      rw [writeCommit_run hrunning.full]
      refine ⟨0, _, rfl, writeCommit_running hrunning inum buffer block inode ?_⟩
      have hend : middle.cr = server.cr := by rw [hread]
      unfold HasRoom at hroom
      rw [hend]
      omega

/-- A safe `fsi_unlink` keeps the server running and makes the log 4224 bytes longer at most. -/
theorem fsiUnlink_running (h : Running server) (hroom : HasRoom server) {pinum : Fin 4096}
    {name : CString} {frame : UnlinkFrame} (hsafe : UnlinkSafe server pinum name frame) :
    ∃ rc next, fsiUnlink ((pinum : ℕ) : ℤ) name frame server = some (rc, next) ∧ Running next ∧
      next.cr.endPos.toNat ≤ server.cr.endPos.toNat + 4224 := by
  obtain ⟨⟨outcome, middle⟩, hmiddle⟩ := Option.ne_none_iff_exists'.mp hsafe.defined
  have hrunning := h.of_readOnly (readOnly_unlinkSearch _ _ _) hmiddle
  have hend : middle.cr = server.cr := by
    rw [readOnly_unlinkSearch _ _ _ _ _ _ hmiddle]
  unfold HasRoom at hroom
  unfold fsiUnlink
  rw [bind_run hmiddle]
  cases outcome with
  | inl rc =>
    refine ⟨rc, middle, rfl, hrunning, ?_⟩
    rw [hend]
    omega
  | inr plan =>
    obtain ⟨block, slot, hfound⟩ := hsafe.found plan middle hmiddle
    have hchunk := hsafe.chunk plan middle hmiddle
    dsimp only
    rw [unlinkCommit_run hrunning.full pinum plan block slot hfound hchunk (by rw [hend]; omega)]
    refine ⟨0, _, rfl, unlinkCommit_running hrunning pinum plan block slot hchunk ?_, ?_⟩
    · rw [hend]
      omega
    · have hpos := toNat_after_inode middle.cr.endPos (by rw [hend]; omega)
      have hlast : (middle.cr.endPos + 4096 + 64 + 64).toNat =
          (middle.cr.endPos + 4096 + 64).toNat + 64 :=
        toNat_after_record _ (by rw [hpos, hend]; omega)
      rw [committed_cr]
      change (middle.cr.endPos + 4096 + 64 + 64).toNat ≤ _
      rw [hlast, hpos, hend]

theorem fsiCreat_running (h : Running server) (hroom : HasRoom server) {pinum : Fin 4096}
    (type : Word) {name : CString} {frame : CreatFrame}
    (hsafe : CreatSafe server pinum name frame) :
    ∃ rc next, fsiCreat ((pinum : ℕ) : ℤ) type name frame server = some (rc, next) ∧
      Running next := by
  obtain ⟨probe, middle, hmiddle⟩ := total_creatProbe pinum name frame server
  have hrunning := h.of_readOnly (readOnly_creatProbe _ _ _) hmiddle
  have hend : middle.cr = server.cr := by
    rw [readOnly_creatProbe _ _ _ _ _ _ hmiddle]
  have hmiddleRoom : HasRoom middle := by
    unfold HasRoom
    rwa [hend]
  unfold fsiCreat
  rw [bind_run hmiddle]
  match probe, hmiddle with
  | none, _ => exact ⟨-1, middle, rfl, hrunning⟩
  | some (pnode, found), hmiddle =>
    dsimp only
    have hreplace : ∃ freed, creatReplace ((pinum : ℕ) : ℤ) name frame.unlink found middle =
        some ((), freed) ∧ Running freed ∧
          freed.cr.endPos.toNat ≤ middle.cr.endPos.toNat + 4224 := by
      unfold creatReplace
      split
      next hfound =>
        obtain ⟨rc, freed, hfreed, hresult⟩ := fsiUnlink_running hrunning hmiddleRoom
          (hsafe.unlink pnode found middle hmiddle hfound)
        exact ⟨freed, by rw [bind_run hfreed]; rfl, hresult⟩
      next => exact ⟨middle, rfl, hrunning, by omega⟩
    obtain ⟨freed, hfreed, hfreedRunning, hfreedEnd⟩ := hreplace
    obtain ⟨place, placed, hplaced, hfirst⟩ := creatPlace_run freed pnode name frame.dirBlock
    have hplacedRunning := hfreedRunning.of_readOnly (readOnly_creatPlace _ _ _) hplaced
    rw [bind_run hfreed, bind_run hplaced]
    cases place with
    | none => exact ⟨-1, placed, rfl, hplacedRunning⟩
    | some plan =>
      have hchunk := hsafe.chunk pnode found middle freed hmiddle hfreed plan.inum
        (hfirst plan rfl)
      have hplacedEnd : placed.cr = freed.cr := by
        rw [readOnly_creatPlace _ _ _ _ _ _ hplaced]
      obtain ⟨next, hnext, hlast⟩ := creatCommit_running hplacedRunning pinum type
        frame.childDirBlock plan hchunk (by
          unfold HasRoom at hroom
          rw [hplacedEnd]
          rw [hend] at hfreedEnd
          omega)
      exact ⟨0, next, hnext, hlast⟩

theorem step_running (h : Running server) {call : Call} (hsafe : call.Safe server) :
    ∃ next, call.step server = some next ∧ Running next := by
  have hdone : (∃ rc next, call.exec server = some (rc, next) ∧ Running next) →
      ∃ next, call.step server = some next ∧ Running next := by
    rintro ⟨rc, next, hexec, hnext⟩
    exact ⟨next, by rw [Call.step, hexec, Option.map_some], hnext⟩
  apply hdone
  cases call with
  | creat pinum type name frame => exact fsiCreat_running h hsafe.1 type hsafe.2
  | write inum buffer block node => exact fsiWrite_running h hsafe inum buffer block node
  | unlink pinum name frame =>
    obtain ⟨rc, next, hexec, hnext, -⟩ := fsiUnlink_running h hsafe.1 hsafe.2
    exact ⟨rc, next, hexec, hnext⟩

/-! ## Whole runs -/

theorem fsiBuild_running (hfull : AllFull server) (dirBlock : Store) :
    ∃ start, fsiBuild dirBlock server = some ((), start) ∧ Running start := by
  let built := server.built dirBlock
  -- A server with an empty inode map that is about to write its first chunk.
  let unmapped : Server := { built with cr := ⟨1028, fun _ ↦ -1⟩, inodes := fun _ ↦ -1 }
  have hmapped : Mapped unmapped := ⟨le_rfl, fun k ↦ Or.inl ⟨rfl, fun _ _ ↦ rfl⟩⟩
  have hbuilt : AllFull built := fun k ↦ hfull (k + 2)
  have hlog : Logging unmapped built (0 + 4096 + 64 + 1028) :=
    ⟨hbuilt, rfl, Nat.le_add_right 1028 4160, le_max_right _ _, fun _ _ _ ↦ rfl⟩
  refine ⟨_, fsiBuild_run hfull dirBlock, ?_, committed_full hbuilt 0 _⟩
  apply hmapped.committed hlog
  · intro k hk
    exact if_neg hk
  · intro i hi
    have hne : i ≠ 0 := fun heq ↦ hi (congrArg chunkOf heq)
    exact if_neg hne
  · decide

/-- The chunk that `cr.chunks[k]` points at lies in the image and is a copy of the memory. -/
def ChunkRecorded (server : Server) (k : Fin 256) : Prop :=
  (server.cr.chunks k).toNat + chunkSize ≤ server.image.size ∧
    ∀ i, chunkOf i = k → load32 server.image.bytes
      ((server.cr.chunks k).toNat + 4 * (i % imapChunkSize)) = server.inodes i

theorem Synced.chunkRecorded (h : Synced server) {k : Fin 256} (hk : server.cr.chunks k ≠ -1) :
    ChunkRecorded server k := by
  rcases h.chunk k with hunused | hdisk
  · exact absurd hunused.chunk hk
  · exact ⟨hdisk.high.trans h.end_le, hdisk.words⟩

/-- Restart equivalence: after any run of safe calls on a built image, `fsi_init` loads the memory
of the running server. -/
theorem restarts_of_safe_run (hfull : AllFull server) (dirBlock : Store) :
    ∃ start, fsiBuild dirBlock server = some ((), start) ∧
      ∀ calls, Guarded Call.step (fun state call ↦ call.Safe state) start calls →
        ∃ final, run Call.step start calls = some final ∧ Restarts final ∧
          ∀ k, final.cr.chunks k ≠ -1 → ChunkRecorded final k := by
  obtain ⟨start, hstart, hrunning⟩ := fsiBuild_running hfull dirBlock
  refine ⟨start, hstart, fun calls hcalls ↦ ?_⟩
  obtain ⟨final, hfinal, hlast⟩ := hcalls.run_invariant
    (fun state call hstate hcall ↦ step_running hstate hcall) hrunning
  exact ⟨final, hfinal, hlast.synced.restarts, fun k hk ↦ hlast.synced.chunkRecorded hk⟩

/-! ## A first call -/

/-- A server process before its first call, with an empty file. -/
def freshServer : Server where
  image := File.empty
  offset := 0
  cr := ⟨0, fun _ ↦ 0⟩
  inodes := fun _ ↦ 0
  results := fun _ ↦ .full
  trace := []

theorem freshServer_full : AllFull freshServer := fun _ ↦ rfl

/-- A stack of bytes 255, in which every directory slot reads as free. -/
def junk : Store := fun _ ↦ 255

def junkFrame : CreatFrame where
  pnode := junk
  dirBlock := junk
  childDirBlock := junk
  lookup := ⟨junk, junk⟩
  unlink := ⟨junk, junk, junk, junk, ⟨junk, junk⟩⟩

/-- A regular file created in the object that was created last. -/
def nestedCreat (n : Fin 4096) : Call := .creat n lfsRegularFile dot junkFrame

/-- In the root, "." is found and has inode number 0, so that nothing is unlinked. -/
theorem built_probe :
    creatProbe (((0 : Fin 4096) : ℕ) : ℤ) dot junkFrame
        ((freshServer.built junk).committed 0 (0 + 4096 + 64 + 1028)) =
      some (some (rootInode, 0), ((freshServer.built junk).committed 0
        (0 + 4096 + 64 + 1028)).seek ((rootInode.direct 0).toNat + lfsBlockSize)) := by
  let start := (freshServer.built junk).committed 0 (0 + 4096 + 64 + 1028)
  have hnode : InodeIs start 0 rootInode := .of_inodeAt (by decide) (built_rootInode junk _)
  have hroot : BlockAt start.image (rootInode.direct 0).toNat (rootBlock junk) :=
    built_rootBlock junk _
  have hdot : Scan.first (entryNamed (rootBlock junk) dot) dirEntries = some 0 := by
    rw [Scan.first_eq_some_iff]
    refine ⟨by decide, ?_, fun j hj ↦ absurd hj (Nat.not_lt_zero j)⟩
    rw [entryNamed_rootBlock junk dot_fits, entryNamed_childBlock_self junk 0 0 dot_fits]
  have hzero : (0 : ℤ) = (entryInum (rootBlock junk) 0).toInt := by
    rw [entryInum_rootBlock_dots junk (by decide)]
    rfl
  rw [hzero]
  apply creatProbe_run hnode dot_fits
  exact fsiLookup_first_block _ (hnode.seek _) rfl (by decide) hroot dot_fits hdot

/-- The first creation is safe: it gets inode 1, which is in the root's chunk. -/
theorem first_creat_restarts :
    ∃ start final, fsiBuild junk freshServer = some ((), start) ∧
      run Call.step start [nestedCreat 0] = some final ∧ Restarts final := by
  obtain ⟨start, hbuild, hruns⟩ := restarts_of_safe_run freshServer_full junk
  have hstart := (fsiBuild_run freshServer_full junk).symm.trans hbuild
  cases hstart
  have hfirst : Scan.first (inodeFree (freshServer.built junk).inodes) 4096 = some 1 := by
    rw [Scan.first_eq_some_iff]
    refine ⟨by decide, by decide, fun j hj ↦ ?_⟩
    rw [Nat.lt_one_iff.mp hj]
    decide
  have hsafe : (nestedCreat 0).Safe
      ((freshServer.built junk).committed 0 (0 + 4096 + 64 + 1028)) := by
    refine ⟨by unfold HasRoom; decide, fun pnode found next hprobe hfound ↦ ?_,
      fun pnode found next freed hprobe hfreed inum hinum ↦ ?_⟩
    · rw [built_probe] at hprobe
      cases hprobe
      exact absurd hfound (by decide)
    · rw [built_probe] at hprobe
      cases hprobe
      cases hfreed
      have hone : inum = 1 := Fin.ext (Option.some.inj (hinum.symm.trans hfirst))
      rw [hone]
      decide
  obtain ⟨final, hfinal, hrestarts, -⟩ := hruns [nestedCreat 0] ⟨hsafe, fun _ _ ↦ trivial⟩
  exact ⟨_, final, hbuild, hfinal, hrestarts⟩

end OS537.LFS
