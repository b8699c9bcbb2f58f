import OS537.Base.Code
import OS537.LFS.Server

/-!
# What the server's code can change

Rules for running the code of `Server` symbolically. `ReadOnly` code moves the file offset and
nothing else; it is closed under sequencing, so every search of the server is read-only. `Logging`
relates a server that is appending records to the server the append started from: the image up to
the old end of the log, checkpoint included, is as it was, and the position counter of the code
equals the file offset. That equality is what the bookkeeping of `pos` is about.
-/

namespace OS537.LFS

open Bytes Code Posix

variable {α β : Type} {server next : Server}

/-! ## Symbolic execution -/

theorem index_run {n : ℕ} {i : ℤ} (hlow : 0 ≤ i) (hhigh : i < n) :
    index n i server = some (⟨i.toNat, by omega⟩, server) := by
  simp only [index, hlow, hhigh, and_self, dite_true]

theorem index_natCast_run {n : ℕ} (i : Fin n) :
    index n ((i : ℕ) : ℤ) server = some (i, server) := by
  rw [index_run (by omega) (by have := i.isLt; omega)]
  rfl

theorem index_eq_some {n : ℕ} {i : ℤ} {k : Fin n} (h : index n i server = some (k, next)) :
    ((k : ℕ) : ℤ) = i ∧ next = server := by
  unfold index at h
  split at h
  next hi =>
    cases h
    exact ⟨Int.toNat_of_nonneg hi.1, rfl⟩
  next => cases h

/-! ## Read-only code -/

/-- The code changes the file offset at most. -/
def ReadOnly (code : Fsi α) : Prop :=
  ∀ server value next, code server = some (value, next) →
    next = { server with offset := next.offset }

theorem ReadOnly.pure (value : α) : ReadOnly (pure value : Fsi α) := by
  rintro server _ _ ⟨⟩
  rfl

theorem ReadOnly.bind {code : Fsi α} {rest : α → Fsi β} (hcode : ReadOnly code)
    (hrest : ∀ value, ReadOnly (rest value)) : ReadOnly (code >>= rest) := by
  intro server value next h
  obtain ⟨result, middle, hmiddle, hnext⟩ := bind_eq_some h
  have hfirst := hcode _ _ _ hmiddle
  have hsecond := hrest result _ _ _ hnext
  rw [hfirst] at hsecond
  exact hsecond

theorem ReadOnly.ite {condition : Prop} [Decidable condition] {code other : Fsi α}
    (hcode : ReadOnly code) (hother : ReadOnly other) :
    ReadOnly (if condition then code else other) := by
  split
  · exact hcode
  · exact hother

theorem readOnly_get : ReadOnly (get : Fsi Server) := by
  rintro server _ _ ⟨⟩
  rfl

theorem readOnly_index (n : ℕ) (i : ℤ) : ReadOnly (index n i) := by
  intro server value next h
  simp only [index] at h
  split at h
  · cases h
    rfl
  · contradiction

theorem readOnly_lseek (offset : ℤ) : ReadOnly (lseek offset) := by
  rintro server _ _ ⟨⟩
  split <;> rfl

theorem readOnly_read (buffer : Store) (n : ℕ) : ReadOnly (read buffer n) := by
  rintro server _ _ ⟨⟩
  rfl

theorem readOnly_getInode (inum : ℤ) (node : Store) : ReadOnly (getInode inum node) := by
  refine (readOnly_index _ _).bind fun i ↦ readOnly_get.bind fun server ↦ ?_
  refine ReadOnly.ite (ReadOnly.pure _) ?_
  exact (readOnly_lseek _).bind fun _ ↦ (readOnly_read _ _).bind fun _ ↦ ReadOnly.pure _

theorem readOnly_getBlock (inode : Inode) (buffer : Store) (block : ℤ) :
    ReadOnly (getBlock inode buffer block) := by
  refine ReadOnly.ite (ReadOnly.pure _) ?_
  exact (readOnly_index _ _).bind fun _ ↦ (readOnly_lseek _).bind fun _ ↦ readOnly_read _ _

theorem readOnly_lookupBlocks (node : Inode) (name : CString) (fuel block : ℕ) (dirBlock : Store) :
    ReadOnly (lookupBlocks node name fuel block dirBlock) := by
  induction fuel generalizing block dirBlock with
  | zero => exact ReadOnly.pure _
  | succ fuel ih =>
    refine (readOnly_getBlock _ _ _).bind fun result ↦ ReadOnly.ite (ReadOnly.pure _) ?_
    cases Scan.first (entryNamed result.2 name) dirEntries with
    | none => exact ih _ _
    | some i => exact ReadOnly.pure _

theorem readOnly_fsiLookup (pinum : ℤ) (name : CString) (frame : LookupFrame) :
    ReadOnly (fsiLookup pinum name frame) := by
  refine (readOnly_getInode _ _).bind fun result ↦ ReadOnly.ite (ReadOnly.pure _) ?_
  exact ReadOnly.ite (ReadOnly.pure _) (readOnly_lookupBlocks _ _ _ _ _)

theorem readOnly_unlinkBlocks (pnode : Inode) (name : CString) (fuel block : ℕ)
    (dirBlock : Store) : ReadOnly (unlinkBlocks pnode name fuel block dirBlock) := by
  induction fuel generalizing block dirBlock with
  | zero => exact ReadOnly.pure _
  | succ fuel ih =>
    refine (readOnly_getBlock _ _ _).bind fun result ↦ ReadOnly.ite (ReadOnly.pure _) ?_
    cases Scan.first (entryNamed result.2 name) dirEntries with
    | none => exact ih _ _
    | some i => exact ReadOnly.pure _

theorem readOnly_unlinkSearch (pinum : ℤ) (name : CString) (frame : UnlinkFrame) :
    ReadOnly (unlinkSearch pinum name frame) := by
  have hrest (pnode : Inode) (cinum : ℤ)
      {rest : Option (Store × Option (ℕ × ℕ)) → Fsi (ℤ ⊕ UnlinkPlan)}
      (hnone : rest none = pure (.inl (-1)))
      (hsome : ∀ entry, rest (some entry) = do
        let i ← index 4096 cinum
        return .inr ⟨pnode, i, entry.1, entry.2⟩) :
      ReadOnly (unlinkBlocks pnode name ndirect 0 frame.dirBlock >>= rest) := by
    refine (readOnly_unlinkBlocks _ _ _ _ _).bind fun result ↦ ?_
    cases result with
    | none =>
      rw [hnone]
      exact ReadOnly.pure _
    | some entry =>
      rw [hsome]
      exact (readOnly_index _ _).bind fun _ ↦ ReadOnly.pure _
  refine (readOnly_getInode _ _).bind fun result ↦ ReadOnly.ite (ReadOnly.pure _) ?_
  refine (readOnly_fsiLookup _ _ _).bind fun cinum ↦ ReadOnly.ite (ReadOnly.pure _) ?_
  refine (readOnly_getInode _ _).bind fun child ↦ ReadOnly.ite ?_ (hrest _ _ rfl fun _ ↦ rfl)
  refine ReadOnly.ite (ReadOnly.pure _) ?_
  exact (readOnly_getBlock _ _ _).bind fun _ ↦
    ReadOnly.ite (ReadOnly.pure _) (hrest _ _ rfl fun _ ↦ rfl)

theorem readOnly_creatBlocks (pnode : Inode) (name : CString) (inum : Word) (fuel block : ℕ)
    (dirBlock : Store) : ReadOnly (creatBlocks pnode name inum fuel block dirBlock) := by
  induction fuel generalizing block dirBlock with
  | zero => exact ReadOnly.pure _
  | succ fuel ih =>
    refine (readOnly_getBlock _ _ _).bind fun result ↦ ReadOnly.ite (ReadOnly.pure _) ?_
    cases Scan.first (fun i ↦ entryInum result.2 i = -1) dirEntries with
    | none => exact ih _ _
    | some i => exact ReadOnly.pure _

theorem readOnly_creatProbe (pinum : ℤ) (name : CString) (frame : CreatFrame) :
    ReadOnly (creatProbe pinum name frame) := by
  refine (readOnly_getInode _ _).bind fun result ↦ ReadOnly.ite (ReadOnly.pure _) ?_
  refine ReadOnly.ite (ReadOnly.pure _) ?_
  exact (readOnly_fsiLookup _ _ _).bind fun _ ↦ ReadOnly.pure _

theorem readOnly_creatPlace (pnode : Inode) (name : CString) (dirBlock : Store) :
    ReadOnly (creatPlace pnode name dirBlock) := by
  refine readOnly_get.bind fun server ↦ ?_
  cases Scan.first (inodeFree server.inodes) 4096 with
  | none => exact ReadOnly.pure _
  | some inum =>
    refine (readOnly_index _ _).bind fun i ↦ (readOnly_creatBlocks _ _ _ _ _ _).bind fun result ↦ ?_
    cases result with
    | none => exact ReadOnly.pure _
    | some pair => exact (readOnly_index _ _).bind fun _ ↦ ReadOnly.pure _

/-! ## Code that is always defined -/

/-- The code is defined in every state. -/
def Total (code : Fsi α) : Prop := ∀ server, ∃ value next, code server = some (value, next)

theorem Total.pure (value : α) : Total (pure value : Fsi α) :=
  fun server ↦ ⟨value, server, rfl⟩

theorem Total.bind {code : Fsi α} {rest : α → Fsi β} (hcode : Total code)
    (hrest : ∀ value, Total (rest value)) : Total (code >>= rest) := by
  intro server
  obtain ⟨value, next, hnext⟩ := hcode server
  rw [bind_run hnext]
  exact hrest value next

theorem Total.ite {condition : Prop} [Decidable condition] {code other : Fsi α}
    (hcode : Total code) (hother : Total other) :
    Total (if condition then code else other) := by
  split
  · exact hcode
  · exact hother

theorem total_get : Total (get : Fsi Server) := fun server ↦ ⟨server, server, rfl⟩

theorem total_index {n : ℕ} (i : Fin n) : Total (index n ((i : ℕ) : ℤ)) :=
  fun server ↦ ⟨i, server, index_natCast_run i⟩

theorem total_lseek (offset : ℤ) : Total (lseek offset) := fun _ ↦ ⟨_, _, rfl⟩

theorem total_read (buffer : Store) (n : ℕ) : Total (read buffer n) := fun _ ↦ ⟨_, _, rfl⟩

theorem total_getInode (inum : Fin 4096) (node : Store) :
    Total (getInode ((inum : ℕ) : ℤ) node) := by
  refine (total_index _).bind fun i ↦ total_get.bind fun server ↦ ?_
  refine Total.ite (Total.pure _) ?_
  exact (total_lseek _).bind fun _ ↦ (total_read _ _).bind fun _ ↦ Total.pure _

/-- The loops over the blocks of a directory pass an index that `get_block` checks. -/
theorem total_getBlock (inode : Inode) (buffer : Store) (block : ℕ) :
    Total (getBlock inode buffer block) := by
  unfold getBlock
  split
  next => exact Total.pure _
  next h =>
    have hblock : block < ndirect := by
      simp only [ndirect]
      omega
    refine (total_index ⟨block, hblock⟩).bind fun _ ↦ ?_
    exact (total_lseek _).bind fun _ ↦ total_read _ _

theorem total_lookupBlocks (node : Inode) (name : CString) (fuel block : ℕ) (dirBlock : Store) :
    Total (lookupBlocks node name fuel block dirBlock) := by
  induction fuel generalizing block dirBlock with
  | zero => exact Total.pure _
  | succ fuel ih =>
    refine (total_getBlock _ _ _).bind fun result ↦ Total.ite (Total.pure _) ?_
    cases Scan.first (entryNamed result.2 name) dirEntries with
    | none => exact ih _ _
    | some i => exact Total.pure _

theorem total_fsiLookup (pinum : Fin 4096) (name : CString) (frame : LookupFrame) :
    Total (fsiLookup ((pinum : ℕ) : ℤ) name frame) := by
  refine (total_getInode _ _).bind fun result ↦ Total.ite (Total.pure _) ?_
  exact Total.ite (Total.pure _) (total_lookupBlocks _ _ _ _ _)

theorem total_fsiStat (inum : Fin 4096) (node : Store) :
    Total (fsiStat ((inum : ℕ) : ℤ) node) :=
  (total_getInode _ _).bind fun _ ↦ Total.ite (Total.pure _) (Total.pure _)

theorem total_creatBlocks (pnode : Inode) (name : CString) (inum : Word) (fuel block : ℕ)
    (dirBlock : Store) : Total (creatBlocks pnode name inum fuel block dirBlock) := by
  induction fuel generalizing block dirBlock with
  | zero => exact Total.pure _
  | succ fuel ih =>
    refine (total_getBlock _ _ _).bind fun result ↦ Total.ite (Total.pure _) ?_
    cases Scan.first (fun i ↦ entryInum result.2 i = -1) dirEntries with
    | none => exact ih _ _
    | some i => exact Total.pure _

theorem total_creatProbe (pinum : Fin 4096) (name : CString) (frame : CreatFrame) :
    Total (creatProbe ((pinum : ℕ) : ℤ) name frame) := by
  refine (total_getInode _ _).bind fun result ↦ Total.ite (Total.pure _) ?_
  refine Total.ite (Total.pure _) ?_
  exact (total_fsiLookup _ _ _).bind fun _ ↦ Total.pure _

/-- The block that `fsi_creat` has found is one it has searched. -/
theorem creatBlocks_lt {pnode : Inode} {name : CString} {inum : Word} {fuel block found : ℕ}
    {dirBlock foundBlock : Store}
    (h : creatBlocks pnode name inum fuel block dirBlock server =
      some (some (foundBlock, found), next)) : found < block + fuel := by
  induction fuel generalizing block dirBlock server with
  | zero => cases h
  | succ fuel ih =>
    obtain ⟨⟨rc, buffer⟩, middle, -, hrest⟩ := bind_eq_some h
    dsimp only at hrest
    split at hrest
    · cases hrest
    · cases hfirst : Scan.first (fun i ↦ entryInum buffer i = -1) dirEntries with
      | some i =>
        rw [hfirst] at hrest
        cases hrest
        omega
      | none =>
        rw [hfirst] at hrest
        have := ih hrest
        omega

/-- `creatPlace` is always defined, and the inode number it gives is the first free one. -/
theorem creatPlace_run (server : Server) (pnode : Inode) (name : CString) (dirBlock : Store) :
    ∃ place next, creatPlace pnode name dirBlock server = some (place, next) ∧
      ∀ plan, place = some plan →
        Scan.first (inodeFree server.inodes) 4096 = some (plan.inum : ℕ) := by
  unfold creatPlace
  rw [bind_run get_run]
  cases hfirst : Scan.first (inodeFree server.inodes) 4096 with
  | none => exact ⟨none, server, rfl, fun plan hplan ↦ by cases hplan⟩
  | some inum =>
    have hinum : inum < 4096 := (Scan.first_eq_some_iff.mp hfirst).1
    dsimp only
    have hindex : index 4096 (inum : ℤ) server = some (⟨inum, hinum⟩, server) :=
      index_natCast_run ⟨inum, hinum⟩
    rw [bind_run hindex]
    obtain ⟨result, middle, hmiddle⟩ :=
      total_creatBlocks pnode name (BitVec.ofNat 32 inum) ndirect 0 dirBlock server
    rw [bind_run hmiddle]
    cases result with
    | none => exact ⟨none, middle, rfl, fun plan hplan ↦ by cases hplan⟩
    | some pair =>
      have hblock : pair.2 < ndirect := by
        have := creatBlocks_lt hmiddle
        omega
      have hslot : index ndirect (pair.2 : ℤ) middle = some (⟨pair.2, hblock⟩, middle) :=
        index_natCast_run ⟨pair.2, hblock⟩
      dsimp only
      rw [bind_run hslot]
      refine ⟨_, middle, rfl, fun plan hplan ↦ ?_⟩
      cases hplan
      rfl

/-! ## Appending to the log -/

/-- Every coming `write` call succeeds in full. -/
def AllFull (server : Server) : Prop := ∀ k, server.results k = .full

/-- The server after a `write` call that succeeds in full. -/
def Server.wrote (server : Server) (n : ℕ) (buffer : Store) : Server where
  image := server.image.pwrite server.offset n buffer
  offset := server.offset + n
  cr := server.cr
  inodes := server.inodes
  results := fun k ↦ server.results (k + 1)
  trace := server.trace ++ [⟨server.offset, n, buffer⟩]

/-- The server after `lseek` to a valid offset. -/
def Server.seek (server : Server) (offset : ℕ) : Server := { server with offset := offset }

@[simp] theorem wrote_inodes (n : ℕ) (buffer : Store) :
    (server.wrote n buffer).inodes = server.inodes := rfl
@[simp] theorem wrote_cr (n : ℕ) (buffer : Store) : (server.wrote n buffer).cr = server.cr := rfl
@[simp] theorem seek_inodes (offset : ℕ) : (server.seek offset).inodes = server.inodes := rfl
@[simp] theorem seek_cr (offset : ℕ) : (server.seek offset).cr = server.cr := rfl
@[simp] theorem putInode_inodes (inum : Fin 4096) (pos : Word) :
    (server.putInode inum pos).inodes = Function.update server.inodes inum pos := rfl
@[simp] theorem putInode_cr (inum : Fin 4096) (pos : Word) :
    (server.putInode inum pos).cr = server.cr := rfl
@[simp] theorem putChunk_inodes (chunk : Fin 256) (pos : Word) :
    (server.putChunk chunk pos).inodes = server.inodes := rfl

theorem update_run (change : Server → Server) :
    update change server = some ((), change server) := rfl

theorem write_run (hfull : AllFull server) (n : ℕ) (buffer : Store) :
    write n buffer server = some ((n : ℤ), server.wrote n buffer) := by
  simp only [write, hfull 0, Server.append, Server.wrote]

theorem AllFull.wrote (hfull : AllFull server) (n : ℕ) (buffer : Store) :
    AllFull (server.wrote n buffer) :=
  fun k ↦ hfull (k + 1)

theorem lseek_run (offset : ℕ) : lseek offset server = some ((), server.seek offset) := by
  simp [lseek, Server.seek]

/-- `lseek` to a negative offset fails. -/
theorem lseek_negative_run {offset : ℤ} (h : offset < 0) :
    lseek offset server = some ((), server) := by
  unfold lseek
  rw [if_neg (not_le.mpr h)]

theorem lseek_zero_run : lseek 0 server = some ((), server.seek 0) := rfl

theorem toInt_eq_toNat {pos : Word} (h : pos.toNat < 2 ^ 31) : pos.toInt = pos.toNat := by
  rw [BitVec.toInt_eq_toNat_of_lt]
  omega

theorem ne_neg_one_of_toNat_lt {pos : Word} (h : pos.toNat < 2 ^ 31) : pos ≠ -1 := by
  intro heq
  rw [heq] at h
  simp at h

theorem toNat_ofNat_fin (i : Fin 4096) : (BitVec.ofNat 32 (i : ℕ)).toNat = i := by
  rw [BitVec.toNat_ofNat]
  apply Nat.mod_eq_of_lt
  have hi := i.isLt
  omega

theorem ofNat_fin_ne_neg_one (i : Fin 4096) : BitVec.ofNat 32 (i : ℕ) ≠ -1 := by
  apply ne_neg_one_of_toNat_lt
  rw [toNat_ofNat_fin]
  have hi := i.isLt
  omega

theorem toInt_ofNat_fin (i : Fin 4096) : (BitVec.ofNat 32 (i : ℕ)).toInt = ((i : ℕ) : ℤ) := by
  have hi := i.isLt
  rw [toInt_eq_toNat (by rw [toNat_ofNat_fin]; omega), toNat_ofNat_fin]

/-- `server` is appending to the log of `start` and has reached `pos`. -/
structure Logging (start server : Server) (pos : Word) : Prop where
  full : AllFull server
  offset_eq : server.offset = pos.toNat
  start_le : start.cr.endPos.toNat ≤ pos.toNat
  pos_le : pos.toNat ≤ server.image.size
  log : AgreeOn server.image.bytes start.image.bytes 0 start.cr.endPos.toNat

theorem Logging.wrote {start : Server} {pos next : Word} (h : Logging start server pos) (n : ℕ)
    (buffer : Store) (hnext : next.toNat = pos.toNat + n) :
    Logging start (server.wrote n buffer) next where
  full := h.full.wrote n buffer
  offset_eq := by
    rw [hnext, ← h.offset_eq]
    rfl
  start_le := by
    have := h.start_le
    omega
  pos_le := by
    rw [hnext, ← h.offset_eq]
    exact le_max_right _ _
  log := by
    have hle := h.start_le.trans h.pos_le
    have hstart : start.cr.endPos.toNat ≤ server.offset := h.offset_eq ▸ h.start_le
    exact (File.agreeOn_pwrite server.image buffer hle (Or.inl hstart)).trans h.log

/-- Changes of the server's memory do not disturb the append. -/
theorem Logging.of_image {start other : Server} {pos : Word} (h : Logging start server pos)
    (hresults : other.results = server.results) (hoffset : other.offset = server.offset)
    (himage : other.image = server.image) : Logging start other pos where
  full := by
    intro k
    rw [hresults]
    exact h.full k
  offset_eq := hoffset.trans h.offset_eq
  start_le := h.start_le
  pos_le := himage ▸ h.pos_le
  log := himage ▸ h.log

theorem writeChunk_run (hfull : AllFull server) (inum : Fin 4096) : writeChunk inum server =
    some ((chunkSize : ℤ), server.wrote chunkSize (chunkBytes server.inodes (chunkOf inum))) :=
  write_run hfull chunkSize _

theorem writeCheckpoint_run (hfull : AllFull server) : writeCheckpoint server =
    some ((crSize : ℤ), (server.seek 0).wrote crSize server.cr.toBytes) := by
  have hseek : AllFull (server.seek 0) := hfull
  rw [writeCheckpoint, bind_run lseek_zero_run]
  exact write_run hseek crSize server.cr.toBytes

/-- The server after `commitChunk` with all writes in full. -/
def Server.committed (server : Server) (inum : Fin 4096) (pos : Word) : Server :=
  let chunked := (server.putChunk (chunkOf inum) pos).wrote chunkSize
    (chunkBytes server.inodes (chunkOf inum))
  let closed := chunked.putEnd (pos + 64)
  (closed.seek 0).wrote crSize closed.cr.toBytes

theorem commitChunk_run (hfull : AllFull server) (inum : Fin 4096) (pos : Word) :
    commitChunk inum pos server = some (0, server.committed inum pos) := by
  have hlisted : AllFull (server.putChunk (chunkOf inum) pos) := hfull
  have hchunked := hlisted.wrote chunkSize (chunkBytes server.inodes (chunkOf inum))
  have hclosed : AllFull (((server.putChunk (chunkOf inum) pos).wrote chunkSize
      (chunkBytes server.inodes (chunkOf inum))).putEnd (pos + 64)) := hchunked
  rw [commitChunk, bind_run (update_run _), bind_run (writeChunk_run hlisted inum),
    if_neg (by decide), putChunk_inodes,
    bind_run (update_run _), bind_run (writeCheckpoint_run hclosed)]
  rfl

@[simp]
theorem committed_inodes (inum : Fin 4096) (pos : Word) :
    (server.committed inum pos).inodes = server.inodes := rfl

theorem committed_cr (inum : Fin 4096) (pos : Word) :
    (server.committed inum pos).cr =
      { server.cr.setChunk (chunkOf inum) pos with endPos := pos + 64 } := rfl

theorem committed_full (hfull : AllFull server) (inum : Fin 4096) (pos : Word) :
    AllFull (server.committed inum pos) :=
  fun k ↦ hfull (k + 2)

theorem committed_checkpoint (inum : Fin 4096) (pos : Word) :
    Checkpoint.ofBytes (server.committed inum pos).image.bytes =
      (server.committed inum pos).cr := by
  rw [← Checkpoint.ofBytes_toBytes (server.committed inum pos).cr]
  apply Checkpoint.ofBytes_congr
  intro i _ hi
  simp only [Server.committed, Server.wrote, Server.seek, File.pwrite]
  exact splice_zero_apply_inside _ _ hi

theorem committed_size_ge {start : Server} {pos : Word} (h : Logging start server pos)
    (inum : Fin 4096) : pos.toNat + chunkSize ≤ (server.committed inum pos).image.size := by
  have hsize : (server.committed inum pos).image.size =
      max (max server.image.size (server.offset + chunkSize)) (0 + crSize) := rfl
  rw [hsize, h.offset_eq]
  exact le_max_of_le_left (le_max_right _ _)

/-- The commit leaves the log it is appended to alone. -/
theorem committed_log {start : Server} {pos : Word} (h : Logging start server pos)
    (inum : Fin 4096) :
    AgreeOn (server.committed inum pos).image.bytes server.image.bytes crSize pos.toNat := by
  let chunked := (server.putChunk (chunkOf inum) pos).wrote chunkSize
    (chunkBytes server.inodes (chunkOf inum))
  have hchunked : AgreeOn chunked.image.bytes server.image.bytes crSize pos.toNat :=
    File.agreeOn_pwrite server.image _ h.pos_le (Or.inl h.offset_eq.ge)
  have hsize : pos.toNat ≤ chunked.image.size := le_max_of_le_left h.pos_le
  exact (File.agreeOn_pwrite chunked.image _ hsize (Or.inr (Nat.zero_add _).le)).trans hchunked

/-- The commit writes the chunk as the memory has it at the position the checkpoint records. -/
theorem committed_words {start : Server} {pos : Word} (h : Logging start server pos)
    (inum : Fin 4096) (hlow : crSize ≤ pos.toNat) (i : Fin 4096) (hi : chunkOf i = chunkOf inum) :
    load32 (server.committed inum pos).image.bytes (pos.toNat + 4 * (i % imapChunkSize)) =
      server.inodes i := by
  let chunked := (server.putChunk (chunkOf inum) pos).wrote chunkSize
    (chunkBytes server.inodes (chunkOf inum))
  have hsize : pos.toNat + chunkSize ≤ chunked.image.size := by
    have hwrote : chunked.image.size = max server.image.size (server.offset + chunkSize) := rfl
    rw [hwrote, h.offset_eq]
    exact le_max_right _ _
  have hcheckpoint : AgreeOn (server.committed inum pos).image.bytes chunked.image.bytes
      pos.toNat (pos.toNat + chunkSize) :=
    File.agreeOn_pwrite chunked.image _ hsize (Or.inr ((Nat.zero_add _).le.trans hlow))
  have hmod : (i : ℕ) % imapChunkSize < 16 := Nat.mod_lt _ (by decide)
  have hword : 4 * ((i : ℕ) % imapChunkSize) + 4 ≤ chunkSize := by
    simp only [chunkSize]
    omega
  rw [hcheckpoint.load32_eq (by omega) (by omega)]
  calc
    load32 chunked.image.bytes (pos.toNat + 4 * (i % imapChunkSize)) =
        load32 (chunkBytes server.inodes (chunkOf inum)) (4 * (i % imapChunkSize)) := by
      rw [← h.offset_eq]
      exact load32_splice_inside _ _ hword
    _ = server.inodes i := load32_chunkBytes _ i _ (congrArg Fin.val hi)

end OS537.LFS
