import OS537.LFS.Crash
import OS537.LFS.Defined

/-!
# The log only grows

Whatever the `write` calls do, in full, in part or not at all, a call of `fsi_write`, `fsi_creat` or
`fsi_unlink` changes no byte of the log as it stands. The code seeks to the end of the log once and
goes on from there; what it writes in front of the log is the checkpoint region. The position
counter may be behind the file offset or ahead of it, but never behind the old end of the log, so
that the end recorded in memory does not move back either.
-/

namespace OS537.LFS

open Bytes Code Posix

variable {server start middle state next : Server} {rc : ℤ} {pos : Word} {n m : ℕ} {name : CString}

/-! ## The frame -/

/-- The bytes of the image in the log of `start` are as they were. -/
structure Kept (start state : Server) : Prop where
  size_le : start.image.size ≤ state.image.size
  bytes : AgreeOn state.image.bytes start.image.bytes crSize
    (min start.cr.endPos.toNat start.image.size)

theorem Kept.of_image (h : Kept start state) (himage : next.image = state.image) :
    Kept start next where
  size_le := himage ▸ h.size_le
  bytes := himage ▸ h.bytes

theorem Kept.refl (server : Server) : Kept server server :=
  ⟨le_rfl, fun _ _ _ ↦ rfl⟩

theorem Kept.trans (hfirst : Kept start middle) (hsecond : Kept middle state)
    (hend : start.cr.endPos.toNat ≤ middle.cr.endPos.toNat) : Kept start state where
  size_le := hfirst.size_le.trans hsecond.size_le
  bytes := by
    have hle : min start.cr.endPos.toNat start.image.size ≤
        min middle.cr.endPos.toNat middle.image.size := min_le_min hend hfirst.size_le
    exact (hsecond.bytes.mono le_rfl hle).trans hfirst.bytes

/-- A write behind the log, or before it, keeps it. -/
theorem Kept.append (h : Kept start state) (n : ℕ) (buffer : Store)
    (hapart : start.cr.endPos.toNat ≤ state.offset ∨ state.offset + n ≤ crSize) :
    Kept start (state.append n buffer) where
  size_le := le_max_of_le_left h.size_le
  bytes := by
    have hsize : min start.cr.endPos.toNat start.image.size ≤ state.image.size :=
      (min_le_right _ _).trans h.size_le
    have hwritten := File.agreeOn_pwrite state.image buffer hsize
      (hapart.imp_left (min_le_left _ _).trans)
    exact hwritten.trans h.bytes

theorem Kept.wrote (h : Kept start state) (n : ℕ) (buffer : Store)
    (hapart : start.cr.endPos.toNat ≤ state.offset ∨ state.offset + n ≤ crSize) :
    Kept start (state.wrote n buffer) :=
  (h.append n buffer hapart).of_image rfl

/-- The commit writes its chunk behind the log, and the checkpoint before it. -/
theorem Kept.committed (h : Kept start state) (hoffset : start.cr.endPos.toNat ≤ state.offset)
    (inum : Fin 4096) (pos : Word) : Kept start (state.committed inum pos) := by
  let listed := state.putChunk (chunkOf inum) pos
  have hlisted : Kept start listed := h.of_image rfl
  let chunked := listed.wrote chunkSize (chunkBytes state.inodes (chunkOf inum))
  have hchunked : Kept start chunked := hlisted.wrote _ _ (Or.inl hoffset)
  have hclosed : Kept start ((chunked.putEnd (pos + 64)).seek 0) := hchunked.of_image rfl
  exact hclosed.wrote crSize _ (Or.inr (Nat.zero_add crSize).le)

/-- What one `write` does to the log, whatever comes of it. -/
theorem Kept.write (h : Kept start state) {n : ℕ} {buffer : Store}
    (hapart : start.cr.endPos.toNat ≤ state.offset ∨ state.offset + n ≤ crSize)
    (hrun : write n buffer state = some (rc, next)) :
    Kept start next ∧ state.offset ≤ next.offset ∧ next.cr = state.cr := by
  let rest : Server := { state with results := fun k ↦ state.results (k + 1) }
  have hrest : Kept start rest := h.of_image rfl
  unfold LFS.write at hrun
  dsimp only at hrun
  cases hresult : state.results 0 with
  | full =>
    rw [hresult] at hrun
    cases hrun
    exact ⟨hrest.append n buffer hapart, Nat.le_add_right _ _, rfl⟩
  | short count =>
    rw [hresult] at hrun
    cases hrun
    have hshort : state.offset + min count n ≤ state.offset + n :=
      Nat.add_le_add_left (min_le_right _ _) _
    exact ⟨hrest.append _ buffer (hapart.imp_right hshort.trans), Nat.le_add_right _ _, rfl⟩
  | error =>
    rw [hresult] at hrun
    cases hrun
    exact ⟨hrest, le_rfl, rfl⟩

/-! ## Appending records -/

/-- `state` is writing behind the log of `start` and has not recorded a new end. -/
structure Appending (start state : Server) : Prop where
  kept : Kept start state
  offset_le : start.cr.endPos.toNat ≤ state.offset
  end_eq : state.cr.endPos = start.cr.endPos

/-- The log after a call that has returned `rc` and appended at most `n` bytes. -/
structure Appended (start : Server) (n : ℕ) (rc : ℤ) (state : Server) : Prop where
  kept : Kept start state
  end_le : start.cr.endPos.toNat ≤ state.cr.endPos.toNat
  end_high : state.cr.endPos.toNat ≤ start.cr.endPos.toNat + n
  grown : rc = 0 → start.cr.endPos.toNat < state.cr.endPos.toNat

theorem Appended.mono (h : Appended start n rc state) (hle : n ≤ m) : Appended start m rc state :=
  ⟨h.kept, h.end_le, h.end_high.trans (Nat.add_le_add_left hle _), h.grown⟩

/-- A call that ends before it has recorded a new end returns -1. -/
theorem Appended.of_end_eq (h : Kept start state) (hend : state.cr.endPos = start.cr.endPos) :
    Appended start n (-1) state where
  kept := h
  end_le := by rw [hend]
  end_high := by
    rw [hend]
    exact Nat.le_add_right _ _
  grown := fun hzero ↦ absurd hzero (by decide)

theorem Appending.failed (h : Appending start state) : Appended start n (-1) state :=
  Appended.of_end_eq h.kept h.end_eq

theorem Appended.of_readOnly {α : Type} {code : Fsi α} {value : α} (hcode : ReadOnly code)
    (hrun : code server = some (value, next)) : Appended server n (-1) next := by
  rw [hcode _ _ _ hrun]
  exact Appended.of_end_eq ((Kept.refl server).of_image rfl) rfl

/-- The log after one call and another. -/
theorem Appended.trans {first : ℤ} (hfirst : Appended start n first middle)
    (hsecond : Appended middle m rc state) : Appended start (n + m) rc state where
  kept := hfirst.kept.trans hsecond.kept hfirst.end_le
  end_le := hfirst.end_le.trans hsecond.end_le
  end_high := by
    have hlow := hfirst.end_high
    have hhigh := hsecond.end_high
    omega
  grown := fun hzero ↦ hfirst.end_le.trans_lt (hsecond.grown hzero)

theorem appending_seek (server : Server) :
    Appending server (server.seek server.cr.endPos.toNat) :=
  ⟨(Kept.refl server).of_image rfl, le_rfl, rfl⟩

theorem write_appending (n : ℕ) (buffer : Store) :
    Triple (Appending start) (write n buffer) fun _ ↦ Appending start := by
  intro state hstate rc next hrun
  obtain ⟨hkept, hoffset, hcr⟩ := hstate.kept.write (Or.inl hstate.offset_le) hrun
  exact ⟨hkept, hstate.offset_le.trans hoffset, by rw [hcr, hstate.end_eq]⟩

theorem index_appending (n : ℕ) (i : ℤ) :
    Triple (Appending start) (index n i) fun _ ↦ Appending start := by
  intro state hstate k next hrun
  rw [(index_eq_some hrun).2]
  exact hstate

theorem putInode_appending (i : Fin 4096) (pos : Word) :
    Triple (Appending start) (update (·.putInode i pos)) fun _ ↦ Appending start := by
  rintro state hstate _ _ ⟨⟩
  exact ⟨hstate.kept.of_image rfl, hstate.offset_le, hstate.end_eq⟩

theorem putChunk_appending (k : Fin 256) (pos : Word) :
    Triple (Appending start) (update (·.putChunk k pos)) fun _ ↦ Appending start := by
  rintro state hstate _ _ ⟨⟩
  exact ⟨hstate.kept.of_image rfl, hstate.offset_le, hstate.end_eq⟩

theorem writeChunk_appending (i : Fin 4096) :
    Triple (Appending start) (writeChunk i) fun _ ↦ Appending start := by
  intro state hstate rc next hrun
  unfold writeChunk at hrun
  rw [bind_run get_run] at hrun
  exact write_appending _ _ hstate hrun

/-! ## The commit -/

theorem writeCheckpoint_kept :
    Triple (fun state ↦ Kept start state ∧ state.cr.endPos = pos) writeCheckpoint
      fun _ state ↦ Kept start state ∧ state.cr.endPos = pos := by
  rintro state ⟨hkept, hend⟩ rc next hrun
  unfold writeCheckpoint at hrun
  rw [bind_run lseek_zero_run, bind_run get_run] at hrun
  have hsought : Kept start (state.seek 0) := hkept.of_image rfl
  obtain ⟨hnext, -, hcr⟩ := hsought.write (Or.inr (Nat.zero_add crSize).le) hrun
  exact ⟨hnext, by rw [hcr, seek_cr, hend]⟩

/-- The commit records an end behind the old one. -/
theorem commitChunk_appended (i : Fin 4096) (hlow : start.cr.endPos.toNat ≤ pos.toNat)
    (hhigh : pos.toNat + 64 ≤ start.cr.endPos.toNat + n)
    (hroom : start.cr.endPos.toNat + n < 2 ^ 31) :
    Triple (Appending start) (commitChunk i pos) (Appended start n) := by
  have hpos : (pos + 64).toNat = pos.toNat + 64 := toNat_after_record _ (by omega)
  have hdone (rc : ℤ) (state : Server) (h : Kept start state ∧ state.cr.endPos = pos + 64) :
      Appended start n rc state := by
    obtain ⟨hkept, hend⟩ := h
    refine ⟨hkept, ?_, ?_, fun _ ↦ ?_⟩ <;> rw [hend, hpos] <;> omega
  refine (putChunk_appending _ _).bind fun _ ↦ (writeChunk_appending i).bind fun _ ↦ ?_
  refine Triple.ite (Triple.pure fun _ h ↦ h.failed) ?_
  have hclosed : Triple (Appending start) (update (·.putEnd (pos + 64)))
      fun _ state ↦ Kept start state ∧ state.cr.endPos = pos + 64 := by
    rintro state hstate _ _ ⟨⟩
    exact ⟨hstate.kept.of_image rfl, rfl⟩
  refine hclosed.bind fun _ ↦ writeCheckpoint_kept.bind fun _ ↦ ?_
  exact Triple.ite (Triple.pure (hdone (-1))) (Triple.pure (hdone 0))

/-- The position behind the parent's chunk, which the code advances when the write of it fails. -/
theorem writeParentChunk_appending (parent child : Fin 4096) (pos : Word) :
    Triple (Appending start) (writeParentChunk parent child pos)
      fun place state ↦ Appending start state ∧ (place = pos ∨ place = pos + 64) := by
  have hstays : Triple (Appending start) (pure pos : Fsi Word)
      fun place state ↦ Appending start state ∧ (place = pos ∨ place = pos + 64) :=
    Triple.pure fun _ h ↦ ⟨h, Or.inl rfl⟩
  refine Triple.ite ?_ hstays
  refine (putChunk_appending _ _).bind fun _ ↦ (writeChunk_appending parent).bind fun _ ↦ ?_
  exact Triple.ite (Triple.pure fun _ h ↦ ⟨h, Or.inr rfl⟩) hstays

/-! ## The calls -/

theorem writeCommit_appended (hroom : server.cr.endPos.toNat + 4224 < 2 ^ 31) {inum block : ℤ}
    {buffer : Store} {node : Inode}
    (h : writeCommit inum buffer block node server = some (rc, next)) :
    Appended server 4224 rc next := by
  have hpos : (server.cr.endPos + 4096 + 64).toNat = server.cr.endPos.toNat + 4160 :=
    toNat_after_inode _ (by omega)
  unfold writeCommit at h
  rw [bind_run get_run, bind_run (lseek_run _)] at h
  refine (?_ : Triple (Appending server) _ (Appended server 4224)) (appending_seek server) h
  refine (write_appending _ _).bind fun _ ↦ Triple.ite (Triple.pure fun _ h ↦ h.failed) ?_
  refine (index_appending _ _).bind fun _ ↦ (index_appending _ _).bind fun i ↦ ?_
  refine (putInode_appending _ _).bind fun _ ↦ (write_appending _ _).bind fun _ ↦ ?_
  refine Triple.ite (Triple.pure fun _ h ↦ h.failed) ?_
  exact commitChunk_appended i (by omega) (by omega) hroom

theorem fsiWrite_appended (hroom : server.cr.endPos.toNat + 4224 < 2 ^ 31) {inum block : ℤ}
    {buffer node : Store} (h : fsiWrite inum buffer block node server = some (rc, next)) :
    Appended server 4224 rc next := by
  obtain ⟨⟨count, record⟩, probed, hprobe, h⟩ := bind_eq_some h
  have hprobed : Appended server 0 (-1) probed :=
    Appended.of_readOnly (readOnly_getInode _ _) hprobe
  have hroom' : probed.cr.endPos.toNat + 4224 < 2 ^ 31 := by
    have hhigh := hprobed.end_high
    omega
  dsimp only at h
  split at h
  · cases h
    exact hprobed.mono (Nat.zero_le _)
  split at h
  · cases h
    exact hprobed.mono (Nat.zero_le _)
  split at h
  · cases h
    exact hprobed.mono (Nat.zero_le _)
  · exact hprobed.trans (writeCommit_appended hroom' h)

theorem unlinkCommit_appended (hroom : server.cr.endPos.toNat + 4288 < 2 ^ 31) {pinum : ℤ}
    {plan : UnlinkPlan} (h : unlinkCommit pinum plan server = some (rc, next)) :
    Appended server 4288 rc next := by
  have hpos : (server.cr.endPos + 4096 + 64).toNat = server.cr.endPos.toNat + 4160 :=
    toNat_after_inode _ (by omega)
  have hpos' : (server.cr.endPos + 4096 + 64 + 64).toNat = server.cr.endPos.toNat + 4224 := by
    rw [toNat_after_record _ (by omega), hpos]
  unfold unlinkCommit at h
  rw [bind_run get_run, toInt_eq_toNat (by omega), bind_run (lseek_run _)] at h
  refine (?_ : Triple (Appending server) _ (Appended server 4288)) (appending_seek server) h
  refine (write_appending _ _).bind fun _ ↦ Triple.ite (Triple.pure fun _ h ↦ h.failed) ?_
  cases plan.found with
  | none =>
    intro state _ rc next hundefined
    cases hundefined
  | some pair =>
    refine (index_appending _ _).bind fun _ ↦ (write_appending _ _).bind fun _ ↦ ?_
    refine Triple.ite (Triple.pure fun _ h ↦ h.failed) ?_
    refine (index_appending _ _).bind fun parent ↦ (putInode_appending _ _).bind fun _ ↦ ?_
    refine (putInode_appending _ _).bind fun _ ↦ ?_
    refine (writeParentChunk_appending _ _ _).bind fun place ↦ Triple.of_and fun hplace ↦ ?_
    rcases hplace with rfl | rfl
    · exact commitChunk_appended _ (by omega) (by omega) hroom
    · exact commitChunk_appended _ (by omega) (by omega) hroom

theorem fsiUnlink_appended (hroom : server.cr.endPos.toNat + 4288 < 2 ^ 31) {pinum : ℤ}
    {frame : UnlinkFrame} (h : fsiUnlink pinum name frame server = some (rc, next)) :
    Appended server 4288 rc next := by
  obtain ⟨result, searched, hsearch, h⟩ := bind_eq_some h
  have hsearched : Appended server 0 (-1) searched :=
    Appended.of_readOnly (readOnly_unlinkSearch _ _ _) hsearch
  have hroom' : searched.cr.endPos.toNat + 4288 < 2 ^ 31 := by
    have hhigh := hsearched.end_high
    omega
  rcases unlinkSearch_cases hsearch with hrefused | ⟨plan, hplan, -⟩
  · rw [hrefused] at h
    cases h
    exact hsearched.mono (Nat.zero_le _)
  · rw [hplan] at h
    exact hsearched.trans (unlinkCommit_appended hroom' h)

/-- The bytes that `fsi_creat` appends itself. -/
def creatGrowth (type : Word) : ℕ := if type = lfsDirectory then 8448 else 4352

theorem creatChild_appended (inum : Fin 4096) (child : Inode)
    (hlow : start.cr.endPos.toNat ≤ pos.toNat)
    (hhigh : pos.toNat + 128 ≤ start.cr.endPos.toNat + n)
    (hroom : start.cr.endPos.toNat + n < 2 ^ 31) :
    Triple (Appending start) (creatChild inum child pos) (Appended start n) := by
  have hpos : (pos + 64).toNat = pos.toNat + 64 := toNat_after_record _ (by omega)
  refine (putInode_appending _ _).bind fun _ ↦ (write_appending _ _).bind fun _ ↦ ?_
  refine Triple.ite (Triple.pure fun _ h ↦ h.failed) ?_
  exact commitChunk_appended inum (by omega) (by omega) hroom

theorem creatCommit_appended {type : Word}
    (hroom : server.cr.endPos.toNat + creatGrowth type < 2 ^ 31) {pinum : ℤ}
    {childDirBlock : Store} {plan : CreatPlan}
    (h : creatCommit pinum type childDirBlock plan server = some (rc, next)) :
    Appended server (creatGrowth type) rc next := by
  have hgrowth : 4352 ≤ creatGrowth type := by
    unfold creatGrowth
    split <;> omega
  have hpos : (server.cr.endPos + 4096 + 64).toNat = server.cr.endPos.toNat + 4160 :=
    toNat_after_inode _ (by omega)
  have hpos' : (server.cr.endPos + 4096 + 64 + 64).toNat = server.cr.endPos.toNat + 4224 := by
    rw [toNat_after_record _ (by omega), hpos]
  unfold creatCommit at h
  rw [bind_run get_run, bind_run (lseek_run _)] at h
  refine (?_ : Triple (Appending server) _ (Appended server _)) (appending_seek server) h
  refine (write_appending _ _).bind fun _ ↦ Triple.ite (Triple.pure fun _ h ↦ h.failed) ?_
  refine (index_appending _ _).bind fun parent ↦ (putInode_appending _ _).bind fun _ ↦ ?_
  refine (write_appending _ _).bind fun _ ↦ Triple.ite (Triple.pure fun _ h ↦ h.failed) ?_
  refine (writeParentChunk_appending _ _ _).bind fun place ↦ Triple.of_and fun hplace ↦ ?_
  have hlow : server.cr.endPos.toNat + 4160 ≤ place.toNat ∧
      place.toNat ≤ server.cr.endPos.toNat + 4224 := by
    rcases hplace with rfl | rfl <;> omega
  split
  next htype =>
    have hdirectory : creatGrowth type = 8448 := if_pos htype
    have hblock : (place + 4096).toNat = place.toNat + 4096 := toNat_after_block _ (by omega)
    refine (write_appending _ _).bind fun _ ↦ Triple.ite (Triple.pure fun _ h ↦ h.failed) ?_
    exact creatChild_appended _ _ (by omega) (by omega) hroom
  next => exact creatChild_appended _ _ (by omega) (by omega) hroom

theorem creatReplace_appended (hroom : server.cr.endPos.toNat + 4288 < 2 ^ 31) {pinum found : ℤ}
    {frame : UnlinkFrame} (h : creatReplace pinum name frame found server = some ((), next)) :
    ∃ rc, Appended server 4288 rc next := by
  unfold creatReplace at h
  split at h
  · obtain ⟨rc, freed, hunlink, hlast⟩ := bind_eq_some h
    cases hlast
    exact ⟨rc, fsiUnlink_appended hroom hunlink⟩
  · cases h
    exact ⟨-1, Appended.of_end_eq (Kept.refl server) rfl⟩

theorem fsiCreat_appended {type : Word}
    (hroom : server.cr.endPos.toNat + (4288 + creatGrowth type) < 2 ^ 31) {pinum : ℤ}
    {frame : CreatFrame} (h : fsiCreat pinum type name frame server = some (rc, next)) :
    Appended server (4288 + creatGrowth type) rc next := by
  obtain ⟨probe, probed, hprobe, h⟩ := bind_eq_some h
  have hprobed : Appended server 0 (-1) probed :=
    Appended.of_readOnly (readOnly_creatProbe _ _ _) hprobe
  have hprobedEnd := hprobed.end_high
  cases probe with
  | none =>
    cases h
    exact hprobed.mono (Nat.zero_le _)
  | some pair =>
    obtain ⟨⟨⟩, freed, hreplace, h⟩ := bind_eq_some h
    obtain ⟨removed, hfreed⟩ := creatReplace_appended (by omega) hreplace
    obtain ⟨place, placed, hplace, h⟩ := bind_eq_some h
    have hplaced : Appended freed 0 (-1) placed :=
      Appended.of_readOnly (readOnly_creatPlace _ _ _) hplace
    have hbefore : Appended server 4288 (-1) placed := (hprobed.trans hfreed).trans hplaced
    cases place with
    | none =>
      cases h
      exact hbefore.mono (Nat.le_add_right _ _)
    | some plan =>
      have hend := hbefore.end_high
      exact hbefore.trans (creatCommit_appended (by omega) h)

/-! ## Every call -/

/-- By how many bytes a call can move the end of the log. -/
def Call.growth : Call → ℕ
  | .creat _ type _ _ => 4288 + creatGrowth type
  | .write .. => 4224
  | .unlink .. => 4288

/-- A call leaves the log as it stands, whatever it returns and whatever its `write` calls do; the
end of the log does not move back, and moves on when the call returns 0. -/
theorem call_appends_only {call : Call} (hroom : server.cr.endPos.toNat + call.growth < 2 ^ 31)
    (h : call.exec server = some (rc, next)) : Appended server call.growth rc next := by
  cases call with
  | creat pinum type name frame => exact fsiCreat_appended hroom h
  | write inum buffer block node => exact fsiWrite_appended hroom h
  | unlink pinum name frame => exact fsiUnlink_appended hroom h

/-- A write that goes through, on the disk with one file. -/
theorem oneFile_write_appends_only :
    ∃ next, (Call.write 0 junk 0 junk).exec (oneFile 1092 1156) = some (0, next) ∧
      Appended (oneFile 1092 1156) 4224 0 next := by
  have hlogged : Logged (oneFile 1092 1156) :=
    (oneFile_onDisk (Or.inl rfl) le_rfl).logged (by decide)
  have hlive : (oneFile 1092 1156).inodes 0 ≠ -1 := by decide
  have htype : ((oneFile 1092 1156).inodeRecord 0).type = lfsRegularFile := by
    rw [oneFile_inodeRecord le_rfl]
    rfl
  have hroom :
      (oneFile 1092 1156).cr.endPos.toNat + (Call.write 0 junk 0 junk).growth < 2 ^ 31 := by
    decide
  have hrun := fsiWrite_run (hlogged.inodeIs hlive) (fun _ ↦ rfl) htype junk 0 junk
  exact ⟨_, hrun, call_appends_only hroom hrun⟩

end OS537.LFS
