import OS537.LFS.Writing

/-!
# Calls whose writes fail

Every `write` of `fsi_write`, `fsi_creat` and `fsi_unlink` may fail. The calls look at the results
of all but one of their writes, and return -1 at the first that fails. Here each of them is
described by the writes that make it return -1 and by the memory and the image that it leaves.
-/

namespace OS537.LFS

open Bytes Code Posix

variable {server start state next : Server} {i j parent : Fin 4096} {rc : ℤ} {n : ℕ}
  {buffer : Store} {pos : Word}

/-! ## One write -/

/-- The `write` call after `k` others fails. -/
def Server.fails (server : Server) (k : ℕ) : Bool :=
  match server.results k with
  | .error => true
  | _ => false

/-- The server after a `write`, whatever comes of it. -/
def Server.tried (server : Server) (n : ℕ) (buffer : Store) : Server :=
  let rest := { server with results := fun k ↦ server.results (k + 1) }
  match server.results 0 with
  | .full => rest.append n buffer
  | .short count => rest.append (min count n) buffer
  | .error => rest

@[simp] theorem tried_cr : (server.tried n buffer).cr = server.cr := by
  unfold Server.tried
  cases server.results 0 <;> rfl

@[simp] theorem tried_inodes : (server.tried n buffer).inodes = server.inodes := by
  unfold Server.tried
  cases server.results 0 <;> rfl

@[simp] theorem tried_fails (k : ℕ) : (server.tried n buffer).fails k = server.fails (k + 1) := by
  unfold Server.tried Server.fails
  cases server.results 0 <;> rfl

@[simp] theorem putInode_fails (k : ℕ) : (server.putInode i pos).fails k = server.fails k := rfl

@[simp] theorem putChunk_fails (chunk : Fin 256) (k : ℕ) :
    (server.putChunk chunk pos).fails k = server.fails k := rfl

@[simp] theorem putEnd_fails (k : ℕ) : (server.putEnd pos).fails k = server.fails k := rfl

@[simp] theorem seek_fails (offset k : ℕ) : (server.seek offset).fails k = server.fails k := rfl

theorem tried_image_of_fails (h : server.fails 0 = true) :
    (server.tried n buffer).image = server.image := by
  unfold Server.fails at h
  unfold Server.tried
  cases hresult : server.results 0 with
  | full => simp [hresult] at h
  | short count => simp [hresult] at h
  | error => rfl

theorem write_tried (n : ℕ) (buffer : Store) (server : Server) :
    ∃ rc, write n buffer server = some (rc, server.tried n buffer) ∧
      (rc < 0 ↔ server.fails 0 = true) := by
  unfold write Server.tried Server.fails
  dsimp only
  cases server.results 0 with
  | full => exact ⟨_, rfl, by simp⟩
  | short count => exact ⟨_, rfl, by simp⟩
  | error => exact ⟨_, rfl, by simp⟩

/-! ## Code that gives up when a write fails -/

theorem checked_fails {rest : Fsi ℤ} (h : server.fails 0 = true) :
    (write n buffer >>= fun rc ↦ if rc < 0 then pure (-1) else rest) server =
      some (-1, server.tried n buffer) := by
  obtain ⟨rc, hwrite, hrc⟩ := write_tried n buffer server
  rw [bind_run hwrite, if_pos (hrc.mpr h)]
  rfl

/-- The code returns -1 if `failure` holds and else 0, and leaves a state with `post`. -/
def Outcome (code : Fsi ℤ) (state : Server) (failure : Prop) (post : ℤ → Server → Prop) : Prop :=
  ∃ rc next, code state = some (rc, next) ∧ (rc = -1 ∧ failure ∨ rc = 0 ∧ ¬ failure) ∧ post rc next

theorem Outcome.congr {code : Fsi ℤ} {failure failure' : Prop} {post : ℤ → Server → Prop}
    (h : Outcome code state failure post) (hiff : failure' ↔ failure) :
    Outcome code state failure' post := by
  rwa [← propext hiff] at h

theorem Outcome.mono {code : Fsi ℤ} {failure : Prop} {post post' : ℤ → Server → Prop}
    (h : Outcome code state failure post) (hpost : ∀ rc next, post rc next → post' rc next) :
    Outcome code state failure post' := by
  obtain ⟨rc, next, hrun, hvalue, hnext⟩ := h
  exact ⟨rc, next, hrun, hvalue, hpost rc next hnext⟩

theorem Outcome.checked {code rest : Fsi ℤ} {failure : Prop} {post : ℤ → Server → Prop}
    (hcode : code state = write n buffer start)
    (hfailed : start.fails 0 = true → post (-1) (start.tried n buffer))
    (hrest : start.fails 0 = false → Outcome rest (start.tried n buffer) failure post) :
    Outcome (code >>= fun rc ↦ if rc < 0 then pure (-1) else rest) state
      (start.fails 0 = true ∨ failure) post := by
  obtain ⟨rc, hwrite, hrc⟩ := write_tried n buffer start
  unfold Outcome
  rw [bind_run (hcode.trans hwrite)]
  by_cases hfails : start.fails 0 = true
  · rw [if_pos (hrc.mpr hfails)]
    exact ⟨-1, _, rfl, Or.inl ⟨rfl, Or.inl hfails⟩, hfailed hfails⟩
  · obtain ⟨value, next, hrun, hvalue, hpost⟩ := hrest (Bool.eq_false_iff.mpr hfails)
    rw [if_neg (fun h ↦ hfails (hrc.mp h))]
    refine ⟨value, next, hrun, hvalue.imp (fun h ↦ ⟨h.1, Or.inr h.2⟩) fun h ↦ ⟨h.1, ?_⟩, hpost⟩
    exact fun hor ↦ hor.elim hfails h.2

/-- Code behind a part whose run is known. -/
theorem Outcome.after {α : Type} {code : Fsi α} {value : α} {rest : α → Fsi ℤ} {failure : Prop}
    {post : ℤ → Server → Prop} (hcode : code state = some (value, next))
    (h : Outcome (rest value) next failure post) : Outcome (code >>= rest) state failure post := by
  unfold Outcome
  rw [bind_run hcode]
  exact h

theorem Outcome.update {change : Server → Server} {rest : Fsi ℤ} {failure : Prop}
    {post : ℤ → Server → Prop} (h : Outcome rest (change state) failure post) :
    Outcome (LFS.update change >>= fun _ ↦ rest) state failure post :=
  Outcome.after (update_run change) h

theorem Outcome.done {post : ℤ → Server → Prop} (h : post 0 state) :
    Outcome (pure 0) state False post :=
  ⟨0, state, rfl, Or.inr ⟨rfl, not_false⟩, h⟩

/-- The commit keeps the inode map, and if it succeeds it has recorded the new end. -/
theorem commitChunk_outcome (i : Fin 4096) (pos : Word) (state : Server) :
    Outcome (commitChunk i pos) state (state.fails 0 = true ∨ state.fails 1 = true)
      fun rc next ↦ next.inodes = state.inodes ∧ (rc = 0 → next.cr.endPos = pos + 64) := by
  have hinodes : ((state.putChunk (chunkOf i) pos).tried chunkSize
      (chunkBytes state.inodes (chunkOf i))).inodes = state.inodes := tried_inodes
  refine Outcome.congr (Outcome.update (Outcome.checked (writeChunk_eq i _) ?_ fun _ ↦
    Outcome.update (Outcome.checked (writeCheckpoint_eq _) ?_ fun _ ↦ Outcome.done ?_))) ?_
  · exact fun _ ↦ ⟨hinodes, fun h ↦ absurd h (by decide)⟩
  · exact fun _ ↦ ⟨tried_inodes.trans hinodes, fun h ↦ absurd h (by decide)⟩
  · exact ⟨tried_inodes.trans hinodes, fun _ ↦ congrArg _ tried_cr⟩
  · simp only [tried_fails, putChunk_fails, putEnd_fails, seek_fails, or_false]

/-! ## What a call that gives up leaves -/

/-- The memory is as it was, and so is the image up to the end of the log. -/
structure Unchanged (next server : Server) : Prop where
  cr : next.cr = server.cr
  inodes : next.inodes = server.inodes
  size : min server.cr.endPos.toNat next.image.size = min server.cr.endPos.toNat server.image.size
  bytes : AgreeOn next.image.bytes server.image.bytes 0
    (min server.cr.endPos.toNat server.image.size)

theorem Unchanged.of_image (hcr : next.cr = server.cr) (hinodes : next.inodes = server.inodes)
    (himage : next.image = server.image) : Unchanged next server :=
  ⟨hcr, hinodes, by rw [himage], fun _ _ _ ↦ by rw [himage]⟩

theorem Unchanged.of_readOnly {α : Type} {code : Fsi α} {value : α} (hcode : ReadOnly code)
    (hrun : code server = some (value, next)) : Unchanged next server := by
  rw [hcode _ _ _ hrun]
  exact Unchanged.of_image rfl rfl rfl

theorem Unchanged.trans {middle : Server} (hfirst : Unchanged middle server)
    (hsecond : Unchanged next middle) : Unchanged next server := by
  have hsize := hsecond.size
  have hbytes := hsecond.bytes
  rw [hfirst.cr, hfirst.size] at hsize hbytes
  refine ⟨hsecond.cr.trans hfirst.cr, hsecond.inodes.trans hfirst.inodes, hsize,
    fun b hlow hhigh ↦ ?_⟩
  exact (hbytes b hlow hhigh).trans (hfirst.bytes b hlow hhigh)

theorem Unchanged.of_seek {offset : ℕ} (h : Unchanged next (server.seek offset)) :
    Unchanged next server :=
  ⟨h.cr, h.inodes, h.size, h.bytes⟩

theorem Unchanged.to_seek {offset : ℕ} (h : Unchanged next server) :
    Unchanged next (server.seek offset) :=
  ⟨h.cr, h.inodes, h.size, h.bytes⟩

/-- Something was written behind the log, and the memory is as it was. -/
structure Extended (next server : Server) : Prop where
  cr : next.cr = server.cr
  inodes : next.inodes = server.inodes
  size : server.cr.endPos.toNat ≤ next.image.size
  bytes : AgreeOn next.image.bytes server.image.bytes 0
    (min server.cr.endPos.toNat server.image.size)

theorem Extended.unchanged (h : Extended next server)
    (hsize : server.cr.endPos.toNat ≤ server.image.size) : Unchanged next server :=
  ⟨h.cr, h.inodes, by rw [min_eq_left hsize, min_eq_left h.size], h.bytes⟩

theorem tried_extended (hoffset : server.cr.endPos.toNat ≤ server.offset)
    (hok : server.fails 0 = false) : Extended (server.tried n buffer) server := by
  have happend (m : ℕ) : AgreeOn (server.image.pwrite server.offset m buffer).bytes
      server.image.bytes 0 (min server.cr.endPos.toNat server.image.size) :=
    server.image.agreeOn_pwrite buffer (min_le_right _ _)
      (Or.inl ((min_le_left _ _).trans hoffset))
  have hgrown (m : ℕ) : server.cr.endPos.toNat ≤
      (server.image.pwrite server.offset m buffer).size :=
    (hoffset.trans (Nat.le_add_right _ _)).trans (le_max_right _ _)
  unfold Server.fails at hok
  unfold Server.tried
  cases hresult : server.results 0 with
  | full => exact ⟨rfl, rfl, hgrown n, happend n⟩
  | short count => exact ⟨rfl, rfl, hgrown _, happend _⟩
  | error => simp [hresult] at hok

/-- A first write in front of undefined behaviour: the call is defined only if the write fails. -/
theorem checked_undefined {rest : Fsi ℤ} (hrest : ∀ state, rest state = none)
    (hrun : (write n buffer >>= fun rc ↦ if rc < 0 then pure (-1) else rest)
      (server.seek server.cr.endPos.toNat) = some (rc, next)) :
    rc = -1 ∧ server.fails 0 = true ∧ Unchanged next server := by
  obtain ⟨count, hwrite, hcount⟩ := write_tried n buffer (server.seek server.cr.endPos.toNat)
  rw [bind_run hwrite] at hrun
  split at hrun
  next hnegative =>
    have hfails := hcount.mp hnegative
    cases hrun
    exact ⟨rfl, hfails, Unchanged.of_image tried_cr tried_inodes (tried_image_of_fails hfails)⟩
  next => cases (hrest _).symm.trans hrun

/-! ## Write -/

theorem writeCommit_outcome (i : Fin 4096) (buffer : Store) (block : Fin ndirect) (node : Inode)
    (server : Server) :
    Outcome (writeCommit ((i : ℕ) : ℤ) buffer ((block : ℕ) : ℤ) node) server
      (server.fails 0 = true ∨ server.fails 1 = true ∨ server.fails 2 = true ∨
        server.fails 3 = true)
      fun rc next ↦ server.fails 0 = true ∧ Unchanged next server ∨
        server.fails 0 = false ∧
          next.inodes = Function.update server.inodes i (server.cr.endPos + 4096) ∧
          (rc = 0 → next.cr.endPos = server.cr.endPos + 4096 + 64 + 64) := by
  let written := (server.seek server.cr.endPos.toNat).tried lfsBlockSize buffer
  have hwritten : (written.putInode i (server.cr.endPos + 4096)).inodes =
      Function.update server.inodes i (server.cr.endPos + 4096) :=
    congrArg (Function.update · i _) tried_inodes
  refine Outcome.congr (Outcome.after get_run (Outcome.after (lseek_run _)
    (Outcome.checked rfl ?_ fun hok ↦ Outcome.after (index_natCast_run block)
      (Outcome.after (index_natCast_run i) (Outcome.update (Outcome.checked rfl ?_ fun _ ↦
        (commitChunk_outcome i _ _).mono ?_)))))) ?_
  · intro hfails
    exact Or.inl ⟨hfails, Unchanged.of_image tried_cr tried_inodes (tried_image_of_fails hfails)⟩
  · exact fun _ ↦ Or.inr ⟨hok, tried_inodes.trans hwritten, fun h ↦ absurd h (by decide)⟩
  · rintro rc next ⟨hinodes, hend⟩
    exact Or.inr ⟨hok, hinodes.trans (tried_inodes.trans hwritten), hend⟩
  · simp only [tried_fails, putInode_fails, seek_fails]

/-- A block before the first one: the index is used behind the first write. -/
theorem writeCommit_negative {node : Inode} {block : ℤ} (hblock : block < 0)
    (hrun : writeCommit ((i : ℕ) : ℤ) buffer block node server = some (rc, next)) :
    rc = -1 ∧ server.fails 0 = true ∧ Unchanged next server := by
  unfold writeCommit at hrun
  rw [bind_run get_run, bind_run (lseek_run _)] at hrun
  refine checked_undefined (fun state ↦ ?_) hrun
  exact bind_run_none (index_none fun h ↦ not_lt.mpr h.1 hblock)

/-! ## Unlink -/

/-- The number of writes that `fsi_unlink` and `fsi_creat` make without looking at the result: that
of the parent's chunk, if it is another one than the child's. -/
def ignored (parent child : Fin 4096) : ℕ := if chunkOf parent ≠ chunkOf child then 1 else 0

theorem writeParentChunk_ignored (parent child : Fin 4096) (pos : Word) (state : Server) :
    ∃ place next, writeParentChunk parent child pos state = some (place, next) ∧
      (place = pos ∨ place = pos + 64) ∧ next.inodes = state.inodes ∧
      next.cr.endPos = state.cr.endPos ∧
      ∀ k, next.fails k = state.fails (k + ignored parent child) := by
  unfold writeParentChunk ignored
  by_cases hcross : chunkOf parent ≠ chunkOf child
  · let listed := state.putChunk (chunkOf parent) pos
    obtain ⟨rc, hwrite, -⟩ :=
      write_tried chunkSize (chunkBytes listed.inodes (chunkOf parent)) listed
    have hchunk : writeChunk parent listed = some (rc, _) :=
      (writeChunk_eq parent listed).trans hwrite
    have hend : (listed.tried chunkSize (chunkBytes listed.inodes (chunkOf parent))).cr.endPos =
        state.cr.endPos := by
      rw [tried_cr]
      rfl
    rw [if_pos hcross, if_pos hcross, bind_run (update_run _), bind_run hchunk]
    split
    · exact ⟨_, _, rfl, Or.inr rfl, tried_inodes, hend, tried_fails⟩
    · exact ⟨_, _, rfl, Or.inl rfl, tried_inodes, hend, tried_fails⟩
  · rw [if_neg hcross, if_neg hcross]
    exact ⟨_, _, rfl, Or.inl rfl, rfl, rfl, fun _ ↦ rfl⟩

/-- The inode map after the assignments of `fsi_unlink`. -/
def unlinkedInodes (server : Server) (parent cinum : Fin 4096) : InodeMap :=
  Function.update (Function.update server.inodes parent (server.cr.endPos + 4096)) cinum (-1)

theorem unlinkCommit_outcome (parent : Fin 4096) {plan : UnlinkPlan} {block slot : ℕ}
    (hfound : plan.found = some (block, slot)) (hblock : block < ndirect)
    (hroom : server.cr.endPos.toNat < 2 ^ 31) :
    Outcome (unlinkCommit ((parent : ℕ) : ℤ) plan) server
      (server.fails 0 = true ∨ server.fails 1 = true ∨
        server.fails (2 + ignored parent plan.cinum) = true ∨
        server.fails (3 + ignored parent plan.cinum) = true)
      fun rc next ↦ server.fails 0 = true ∧ Unchanged next server ∨
        server.fails 0 = false ∧ server.fails 1 = true ∧ Extended next server ∨
        (server.fails 0 = false ∧ server.fails 1 = false) ∧
          next.inodes = unlinkedInodes server parent plan.cinum ∧
          (rc = 0 → next.cr.endPos = server.cr.endPos + 4096 + 64 + 64 ∨
            next.cr.endPos = server.cr.endPos + 4096 + 64 + 64 + 64) := by
  let pnode := plan.pnode.setDirect ⟨block, hblock⟩ (if slot = 0 then -1 else server.cr.endPos)
  let written := (server.seek server.cr.endPos.toNat).tried lfsBlockSize plan.dirBlock
  let recorded := written.tried inodeSize pnode.toBytes
  let listed := (recorded.putInode parent (server.cr.endPos + 4096)).putInode plan.cinum (-1)
  have hsecond : written.fails 0 = server.fails 1 := tried_fails 0
  have hrecorded : recorded.inodes = server.inodes := tried_inodes.trans tried_inodes
  have hinodes : listed.inodes = unlinkedInodes server parent plan.cinum := by
    unfold unlinkedInodes
    rw [← hrecorded]
    rfl
  obtain ⟨place, last, hparent, hplace, hlast, hend, hfails⟩ :=
    writeParentChunk_ignored parent plan.cinum (server.cr.endPos + 4096 + 64) listed
  have hindex : index ndirect (block : ℤ) written = some (⟨block, hblock⟩, written) :=
    index_natCast_run ⟨block, hblock⟩
  unfold unlinkCommit
  rw [hfound]
  refine Outcome.congr (Outcome.after get_run (Outcome.after
    (by rw [toInt_eq_toNat hroom]; exact lseek_run _)
    (Outcome.checked rfl ?_ fun hok ↦ Outcome.after hindex (Outcome.checked rfl ?_ fun hok' ↦
      Outcome.after (index_natCast_run parent) (Outcome.update (Outcome.update
        (Outcome.after hparent ((commitChunk_outcome _ _ _).mono ?_)))))))) ?_
  · intro hfails
    exact Or.inl ⟨hfails, Unchanged.of_image tried_cr tried_inodes (tried_image_of_fails hfails)⟩
  · intro hfails
    have hwritten : Extended written (server.seek server.cr.endPos.toNat) :=
      tried_extended le_rfl hok
    have himage : recorded.image = written.image := tried_image_of_fails hfails
    refine Or.inr (Or.inl ⟨hok, hsecond.symm.trans hfails, tried_cr.trans hwritten.cr, hrecorded,
      ?_, ?_⟩)
    · rw [himage]
      exact hwritten.size
    · rw [himage]
      exact hwritten.bytes
  · rintro rc next ⟨hnext, hclosed⟩
    refine Or.inr (Or.inr ⟨⟨hok, hsecond.symm.trans hok'⟩, hnext.trans (hlast.trans hinodes),
      fun hrc ↦ ?_⟩)
    rw [hclosed hrc]
    exact hplace.imp (fun h ↦ by rw [h]) fun h ↦ by rw [h]
  · have hrest (k : ℕ) : last.fails k = server.fails (k + 2 + ignored parent plan.cinum) := by
      rw [hfails, Nat.add_right_comm]
      exact (tried_fails _).trans (tried_fails _)
    rw [hrest, hrest, hsecond, seek_fails, Nat.zero_add]

/-- A plan without a slot: only a first write that fails keeps the call defined. -/
theorem unlinkCommit_not_found {plan : UnlinkPlan} (hfound : plan.found = none)
    (hroom : server.cr.endPos.toNat < 2 ^ 31)
    (hrun : unlinkCommit ((parent : ℕ) : ℤ) plan server = some (rc, next)) :
    rc = -1 ∧ server.fails 0 = true ∧ Unchanged next server := by
  unfold unlinkCommit at hrun
  rw [bind_run get_run, toInt_eq_toNat hroom, bind_run (lseek_run _), hfound] at hrun
  exact checked_undefined (fun _ ↦ rfl) hrun

/-! ## Create -/

theorem creatChild_outcome (inum : Fin 4096) (child : Inode) (pos : Word) (state : Server) :
    Outcome (creatChild inum child pos) state
      (state.fails 0 = true ∨ state.fails 1 = true ∨ state.fails 2 = true)
      fun rc next ↦ next.inodes = Function.update state.inodes inum pos ∧
        (rc = 0 → next.cr.endPos = pos + 64 + 64) := by
  refine Outcome.congr (Outcome.update (Outcome.checked rfl ?_ fun _ ↦
    (commitChunk_outcome inum _ _).mono ?_)) ?_
  · exact fun _ ↦ ⟨tried_inodes, fun h ↦ absurd h (by decide)⟩
  · rintro rc next ⟨hinodes, hend⟩
    exact ⟨hinodes.trans tried_inodes, hend⟩
  · simp only [tried_fails, putInode_fails]

/-- The writes of `fsi_creat` behind its first one whose results it looks at. -/
def creatChecked (parent inum : Fin 4096) (type : Word) : List ℕ :=
  1 :: (List.range (if type = lfsDirectory then 4 else 3)).map (2 + ignored parent inum + ·)

/-- The last writes of `fsi_creat`, from the child's block on: the child is not yet in the map, or
its inode is at `pos` or behind it and the log ends behind the inode and one chunk. -/
theorem creatLast_outcome (inum : Fin 4096) (type : Word) (block : Fin ndirect)
    (childBlock : Store) {pos : Word} (hroom : pos.toNat + 4224 < 2 ^ 32) (state : Server) :
    Outcome (if type = lfsDirectory then do
        if (← write lfsBlockSize childBlock) < 0 then return -1
        creatChild inum { (newInode type).setDirect block pos with size := 64 } (pos + 4096)
      else creatChild inum (newInode type) pos) state
      (∃ k ∈ List.range (if type = lfsDirectory then 4 else 3), state.fails k = true)
      fun rc next ↦ rc = -1 ∧ next.inodes = state.inodes ∨
        ∃ place, pos.toNat ≤ place.toNat ∧ next.inodes = Function.update state.inodes inum place ∧
          (rc = 0 → next.cr.endPos.toNat = place.toNat + 128) := by
  by_cases htype : type = lfsDirectory
  · have hplace : (pos + 4096).toNat = pos.toNat + 4096 := by bv_omega
    rw [if_pos htype, if_pos htype]
    refine Outcome.congr (Outcome.checked rfl ?_ fun _ ↦ (creatChild_outcome _ _ _ _).mono ?_) ?_
    · exact fun _ ↦ Or.inl ⟨rfl, tried_inodes⟩
    · rintro rc next ⟨hinodes, hend⟩
      refine Or.inr ⟨pos + 4096, by omega, hinodes.trans (by rw [tried_inodes]), fun hrc ↦ ?_⟩
      rw [hend hrc]
      bv_omega
    · simp [List.range_succ]
  · rw [if_neg htype, if_neg htype]
    refine Outcome.congr ((creatChild_outcome _ _ _ _).mono ?_) ?_
    · rintro rc next ⟨hinodes, hend⟩
      refine Or.inr ⟨pos, le_rfl, hinodes, fun hrc ↦ ?_⟩
      rw [hend hrc]
      bv_omega
    · simp [List.range_succ]

theorem le_creatGrowth (type : Word) : 4352 ≤ creatGrowth type := by
  unfold creatGrowth
  split <;> omega

theorem creatCommit_outcome (parent : Fin 4096) (type : Word) (childDirBlock : Store)
    (plan : CreatPlan) (hroom : server.cr.endPos.toNat + creatGrowth type < 2 ^ 31) :
    Outcome (creatCommit ((parent : ℕ) : ℤ) type childDirBlock plan) server
      (server.fails 0 = true ∨ ∃ k ∈ creatChecked parent plan.inum type, server.fails k = true)
      fun rc next ↦ server.fails 0 = true ∧ Unchanged next server ∨
        server.fails 0 = false ∧
          (rc = -1 ∧
              next.inodes = Function.update server.inodes parent (server.cr.endPos + 4096) ∨
            ∃ child : Word, server.cr.endPos.toNat + 4160 ≤ child.toNat ∧
              next.inodes = Function.update
                (Function.update server.inodes parent (server.cr.endPos + 4096)) plan.inum child ∧
              (rc = 0 → next.cr.endPos.toNat = child.toNat + 128)) := by
  let pnode := createdParent plan.pnode plan.foundBlock server.cr.endPos
  let written := (server.seek server.cr.endPos.toNat).tried lfsBlockSize plan.dirBlock
  let recorded := (written.putInode parent (server.cr.endPos + 4096)).tried inodeSize pnode.toBytes
  have hrecorded : recorded.inodes =
      Function.update server.inodes parent (server.cr.endPos + 4096) :=
    tried_inodes.trans (congrArg (Function.update · parent _) tried_inodes)
  obtain ⟨place, last, hparent, hplace, hlast, -, hfails⟩ :=
    writeParentChunk_ignored parent plan.inum (server.cr.endPos + 4096 + 64) recorded
  have hgrowth := le_creatGrowth type
  have hbehind : server.cr.endPos.toNat + 4160 ≤ place.toNat ∧ place.toNat + 4224 < 2 ^ 32 := by
    rcases hplace with rfl | rfl <;> bv_omega
  refine Outcome.congr (Outcome.after get_run (Outcome.after (lseek_run _)
    (Outcome.checked rfl ?_ fun hok ↦ Outcome.after (index_natCast_run parent)
      (Outcome.update (Outcome.checked rfl ?_ fun _ ↦ Outcome.after hparent
        ((creatLast_outcome plan.inum type plan.foundBlock _ hbehind.2 last).mono ?_)))))) ?_
  · intro hfails
    exact Or.inl ⟨hfails, Unchanged.of_image tried_cr tried_inodes (tried_image_of_fails hfails)⟩
  · exact fun _ ↦ Or.inr ⟨hok, Or.inl ⟨rfl, hrecorded⟩⟩
  · rw [hlast, hrecorded]
    rintro rc next (hgave | ⟨child, hchild, hinodes, hend⟩)
    · exact Or.inr ⟨hok, Or.inl hgave⟩
    · exact Or.inr ⟨hok, Or.inr ⟨child, by omega, hinodes, hend⟩⟩
  · have hrest (k : ℕ) : last.fails k = server.fails (2 + ignored parent plan.inum + k) := by
      rw [hfails]
      have hshift : k + ignored parent plan.inum + 1 + 1 = 2 + ignored parent plan.inum + k := by
        omega
      exact (tried_fails _).trans ((tried_fails _).trans (congrArg server.fails hshift))
    have hsecond : (written.putInode parent (server.cr.endPos + 4096)).fails 0 = server.fails 1 :=
      tried_fails 0
    simp only [creatChecked, List.exists_mem_cons_iff, List.mem_map, exists_exists_and_eq_and,
      hrest, seek_fails, ← hsecond]
    rfl

/-- Behind a first write that succeeds, the parent's entry points behind the old end of the log,
whatever the call returns. -/
theorem creatCommit_moves_parent {type : Word} {childDirBlock : Store} {plan : CreatPlan}
    (hroom : server.cr.endPos.toNat + creatGrowth type < 2 ^ 31) (hok : server.fails 0 = false)
    (hrun : creatCommit ((parent : ℕ) : ℤ) type childDirBlock plan server = some (rc, next)) :
    server.cr.endPos.toNat ≤ (next.inodes parent).toNat := by
  obtain ⟨_, _, hrun', -, hpost⟩ := creatCommit_outcome parent type childDirBlock plan hroom
  cases hrun'.symm.trans hrun
  have hgrowth := le_creatGrowth type
  have hblock := toNat_after_block server.cr.endPos (by omega)
  rcases hpost with ⟨hfails, -⟩ | ⟨-, ⟨-, hinodes⟩ | ⟨child, hchild, hinodes, -⟩⟩
  · exact absurd hfails (Bool.eq_false_iff.mp hok)
  · rw [hinodes, Function.update_self]
    omega
  · rw [hinodes]
    by_cases hself : parent = plan.inum
    · rw [hself, Function.update_self]
      omega
    · rw [Function.update_of_ne hself, Function.update_self]
      omega

end OS537.LFS
