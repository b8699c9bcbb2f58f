import OS537.LFS.Defined
import OS537.MFS.Server

/-!
# Which messages the server handles safely

The fields of a message reach the arrays of the file system without a check in between. A message is
handled inside the arrays if and only if its inode number is one, its block number is not negative
where it is used, and a name to be removed stands for an inode number.
-/

namespace OS537.MFS

open Bytes Code LFS

variable {server fs : Server} {reply answer : Msg} {buffer : Store} {frames : Frames}

/-- The request names an inode or a block that cannot exist. -/
def Request.OutOfRange : Request → Prop
  | .lookup inum _ | .stat inum | .creat inum _ _ | .unlink inum _ => ¬ IsInum inum.toInt
  | .write inum _ block | .read inum block =>
    ¬ IsInum inum.toInt ∨ ¬ (0 ≤ block.toInt ∧ block.toInt < 14)
  | .shutdown | .error => False

/-- The message is handled inside the arrays, and refused without a trace if it names an inode or a
block that cannot exist. -/
def Validated (host : Host) (message : Msg) (frames : Frames) : Prop :=
  ∃ next, host.serverInit message frames = some next ∧
    (message.request.OutOfRange → next.reply.inum = -1 ∧ next.fs.cr = host.fs.cr ∧
      next.fs.inodes = host.fs.inodes ∧ next.fs.image = host.fs.image)

/-- No inode record is known for the number. -/
def Unallocated (server : Server) (inum : ℤ) : Prop :=
  ∀ i : Fin 4096, inum = ((i : ℕ) : ℤ) → server.inodes i = -1

/-- What a request must be in a state of the file system to be handled inside the arrays. -/
def Request.Accepted (server : Server) (frames : Frames) : Request → Prop
  | .lookup inum _ | .stat inum => IsInum inum.toInt
  | .write inum _ block => IsInum inum.toInt ∧ (0 ≤ block.toInt ∨ server.results 0 = .error ∨
      ¬ ReadsRegular server inum.toInt frames.node)
  | .read inum block =>
    IsInum inum.toInt ∧ (Unallocated server inum.toInt ∨ 0 ≤ block.toInt)
  | .creat inum _ name => IsInum inum.toInt ∧ CreatInside server inum.toInt name frames.creat
  | .unlink inum name => IsInum inum.toInt ∧ UnlinkInside server inum.toInt name frames.unlink
  | .shutdown | .error => True

/-! ## Handlers inside the arrays -/

/-- Every function uses its inode number as an index first. -/
theorem defined_iff_isInum_and {α : Type} {code : Fsi α} {inum : ℤ} {condition : Prop}
    (hout : ¬ IsInum inum → ¬ Defined code server)
    (hin : ∀ i : Fin 4096, inum = ((i : ℕ) : ℤ) → (Defined code server ↔ condition)) :
    Defined code server ↔ IsInum inum ∧ condition := by
  by_cases hinum : IsInum inum
  · obtain ⟨i, hi⟩ := hinum.exists_fin
    rw [hin i hi]
    exact (and_iff_right hinum).symm
  · exact iff_of_false (hout hinum) fun h ↦ hinum h.1

theorem unallocated_iff (i : Fin 4096) :
    Unallocated server ((i : ℕ) : ℤ) ↔ server.inodes i = -1 := by
  constructor
  · exact fun h ↦ h i rfl
  · intro h j hj
    rwa [← Fin.ext (Int.ofNat_inj.mp hj)]

theorem serve_defined_iff (request : Request) :
    Defined (request.serve reply buffer frames) server ↔ request.Accepted server frames := by
  cases request with
  | lookup inum name =>
    refine (defined_bind_total fun _ ↦ Total.pure _).trans ?_
    have hdefined : Defined (fsiLookup inum.toInt name frames.lookup) server ↔
        IsInum inum.toInt ∧ True :=
      defined_iff_isInum_and (fun h ↦ not_defined_bind (getInode_none h _)) fun i hi ↦
        iff_true_intro (hi ▸ total_fsiLookup i name frames.lookup server)
    rw [hdefined, and_true]
    exact Iff.rfl
  | stat inum =>
    have hdefined : Defined (fsiStat inum.toInt frames.node) server ↔ IsInum inum.toInt ∧ True :=
      defined_iff_isInum_and (fun h ↦ not_defined_bind (getInode_none h _)) fun i hi ↦
        iff_true_intro (hi ▸ total_fsiStat i frames.node server)
    rw [and_true] at hdefined
    refine Iff.trans ⟨?_, serverStat_defined reply⟩ hdefined
    rintro ⟨answer, fs, hrun⟩
    obtain ⟨stat, next, hstat, -⟩ := bind_eq_some hrun
    exact ⟨stat, next, hstat⟩
  | write inum data block =>
    refine (defined_bind_total fun _ ↦ Total.ite (Total.pure _) (Total.pure _)).trans ?_
    refine defined_iff_isInum_and (fun h ↦ not_defined_bind (getInode_none h _)) fun i hi ↦ ?_
    rw [hi]
    exact fsiWrite_defined_iff i _ _ _
  | read inum block =>
    refine (defined_bind_total fun _ ↦ Total.ite (Total.pure _) (Total.pure _)).trans ?_
    refine defined_iff_isInum_and (fun h ↦ not_defined_bind (getInode_none h _)) fun i hi ↦ ?_
    rw [hi, unallocated_iff]
    exact fsiRead_defined_iff i _ _
  | creat inum type name =>
    refine (defined_bind_total fun _ ↦ Total.ite (Total.pure _) (Total.pure _)).trans ?_
    refine defined_iff_isInum_and (fun h ↦ ?_) fun i hi ↦ ?_
    · exact not_defined_bind (bind_run_none (getInode_none h _))
    · rw [hi]
      exact fsiCreat_defined_iff i type frames.creat
  | unlink inum name =>
    refine (defined_bind_total fun _ ↦ Total.ite (Total.pure _) (Total.pure _)).trans ?_
    refine defined_iff_isInum_and (fun h ↦ ?_) fun i hi ↦ ?_
    · exact not_defined_bind (bind_run_none (getInode_none h _))
    · rw [hi]
      exact fsiUnlink_defined_iff i frames.unlink
  | shutdown => exact iff_of_true (defined_pure _) trivial
  | error => exact iff_of_true (defined_pure _) trivial

/-! ## Refusals -/

theorem fsiRead_refused {inum block rc : ℤ} {buffer node found : Store} {next : Server}
    (h : fsiRead inum buffer block node server = some ((rc, found), next))
    (hblock : ¬ (0 ≤ block ∧ block < 14)) : rc = -1 := by
  obtain ⟨⟨rc', record⟩, probed, -, h⟩ := bind_eq_some h
  dsimp only at h
  split at h
  · cases h
    rfl
  · obtain ⟨⟨rc'', content⟩, last, hcontent, h⟩ := bind_eq_some h
    have hlow : 0 ≤ block := (getBlock_defined_iff record buffer).mp ⟨_, _, hcontent⟩
    unfold getBlock at hcontent
    rw [if_pos (by omega)] at hcontent
    cases hcontent
    cases h
    rfl

theorem readOnly_fsiRead (inum : ℤ) (buffer : Store) (block : ℤ) (node : Store) :
    ReadOnly (fsiRead inum buffer block node) := by
  refine (readOnly_getInode _ _).bind fun _ ↦ ReadOnly.ite (ReadOnly.pure _) ?_
  exact (readOnly_getBlock _ _ _).bind fun _ ↦ ReadOnly.ite (ReadOnly.pure _) (ReadOnly.pure _)

/-- A block that cannot exist is not written, but the first write of `fsi_write` may come before
the use of its number. -/
theorem fsiWrite_refused {i : Fin 4096} {block rc : ℤ} {buffer node : Store} {next : Server}
    (h : fsiWrite ((i : ℕ) : ℤ) buffer block node server = some (rc, next))
    (hblock : ¬ (0 ≤ block ∧ block < 14)) :
    rc = -1 ∧ next.cr = server.cr ∧ next.inodes = server.inodes ∧ next.image = server.image := by
  obtain ⟨⟨rc', record⟩, probed, hprobed, h⟩ := bind_eq_some h
  have hsame := readOnly_getInode _ _ _ _ _ hprobed
  have hunchanged : probed.cr = server.cr ∧ probed.inodes = server.inodes ∧
      probed.image = server.image := by
    rw [hsame]
    exact ⟨rfl, rfl, rfl⟩
  dsimp only at h
  split at h
  · cases h
    exact ⟨rfl, hunchanged⟩
  split at h
  · cases h
    exact ⟨rfl, hunchanged⟩
  split at h
  · cases h
    exact ⟨rfl, hunchanged⟩
  next hhigh =>
    let sought := probed.seek probed.cr.endPos.toNat
    obtain ⟨rc'', written, hwrite, hrc, hkept⟩ := write_cases lfsBlockSize buffer sought
    have herror : probed.results 0 = .error := by
      refine
        ((writeCommit_defined_iff i buffer (not_lt.mp hhigh) record).mp ⟨_, _, h⟩).resolve_left ?_
      exact fun hlow ↦ hblock ⟨hlow, by omega⟩
    have hnegative : rc'' < 0 := hrc.mpr herror
    unfold writeCommit at h
    rw [bind_run get_run, bind_run (lseek_run _), bind_run hwrite, if_pos hnegative] at h
    cases h
    obtain ⟨hcr, hinodes, himage⟩ := hkept hnegative
    exact ⟨rfl, hcr.trans hunchanged.1, hinodes.trans hunchanged.2.1, himage.trans hunchanged.2.2⟩

/-- A request that is handled and names a block that cannot exist is refused without a trace; one
that names an inode that cannot exist is not handled. -/
theorem serve_refused {request : Request} (hout : request.OutOfRange)
    (h : request.serve reply buffer frames server = some (answer, fs)) :
    answer.inum = -1 ∧ fs.cr = server.cr ∧ fs.inodes = server.inodes ∧ fs.image = server.image := by
  have haccepted := (serve_defined_iff request).mp ⟨answer, fs, h⟩
  cases request with
  | lookup inum name => exact absurd haccepted hout
  | stat inum => exact absurd haccepted hout
  | write inum data block =>
    obtain ⟨i, hi⟩ := haccepted.1.exists_fin
    have hblock := hout.resolve_left (not_not.mpr haccepted.1)
    obtain ⟨rc, next, hwrite, h⟩ := bind_eq_some h
    rw [hi] at hwrite
    obtain ⟨rfl, hunchanged⟩ := fsiWrite_refused hwrite hblock
    cases h
    exact ⟨rfl, hunchanged⟩
  | read inum block =>
    have hblock := hout.resolve_left (not_not.mpr haccepted.1)
    obtain ⟨⟨rc, found⟩, next, hread, h⟩ := bind_eq_some h
    have hrc : rc = -1 := fsiRead_refused hread hblock
    have hsame := readOnly_fsiRead _ _ _ _ _ _ _ hread
    subst hrc
    cases h
    rw [hsame]
    exact ⟨rfl, rfl, rfl, rfl⟩
  | creat inum type name => exact absurd haccepted.1 hout
  | unlink inum name => exact absurd haccepted.1 hout
  | shutdown => exact hout.elim
  | error => exact hout.elim

/-- A message is handled inside the arrays, and refused if it names what cannot exist, if and only
if its request is accepted. -/
theorem validated_iff (host : Host) (message : Msg) (frames : Frames) :
    Validated host message frames ↔ message.request.Accepted host.fs frames := by
  have hdefined : Defined (message.request.serve host.reply message.buffer frames) host.fs ↔ _ :=
    serve_defined_iff message.request
  rw [← hdefined]
  constructor
  · rintro ⟨next, hnext, -⟩
    exact ⟨next.reply, next.fs, (serve_of_serverInit hnext).1⟩
  · rintro ⟨answer, fs, hserve⟩
    exact ⟨_, serverInit_run hserve, fun hout ↦ serve_refused hout hserve⟩

/-- A new server asked for the status of an inode 5000, and for the block -1 of the root. -/
theorem outside_not_validated :
    let host : Host := ⟨freshServer.start junk, ⟨0, 0, 0, fun _ ↦ 0⟩, [], true⟩
    ¬ Validated host ⟨mfsStat, 5000, 0, junk⟩ junkFrames ∧
      ¬ Validated host ⟨mfsRead, 0, -1, junk⟩ junkFrames := by
  intro host
  have hstat : ¬ Defined (Request.serve host.reply junk junkFrames (.stat 5000)) host.fs := by
    rw [serve_defined_iff]
    exact fun h ↦ absurd h.2 (by decide)
  have hread : ¬ Defined (Request.serve host.reply junk junkFrames (.read 0 (-1))) host.fs := by
    rw [serve_defined_iff]
    rintro ⟨-, hroot | hblock⟩
    · exact absurd (hroot 0 rfl) (by decide)
    · exact absurd hblock (by decide)
  constructor
  · rintro ⟨next, hnext, -⟩
    exact hstat ⟨next.reply, next.fs, (serve_of_serverInit hnext).1⟩
  · rintro ⟨next, hnext, -⟩
    exact hread ⟨next.reply, next.fs, (serve_of_serverInit hnext).1⟩

end OS537.MFS
