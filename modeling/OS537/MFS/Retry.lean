import OS537.LFS.Twice
import OS537.MFS.Validation

/-!
# Requests sent again

The client sends its request again whenever no reply comes, so the server may handle one request
twice. Status requests, reads and writes can be repeated, and lookups that do not search the stack.
A creation or a removal can be repeated only if it is refused: the server does not remember which
requests it has handled.
-/

namespace OS537.MFS

open Bytes Code LFS Posix

variable {server once twice fs : Server} {reply answer : Msg} {buffer : Store} {i : Fin 4096}
  {name : CString}

def Msg.Succeeds (reply : Msg) : Prop := 0 ≤ reply.inum.toInt

/-- Handled twice, with any contents of the stack, the request is answered with the same success,
and shows the files that it shows when handled once. -/
def Resendable (server : Server) (request : Request) : Prop :=
  ∀ reply buffer frames frames', ∃ first once second twice,
    request.serve reply buffer frames server = some (first, once) ∧
      request.serve first buffer frames' once = some (second, twice) ∧
      (first.Succeeds ↔ second.Succeeds) ∧ SameFiles once twice

/-- `fsi_write` has no regular file to write to, or no such block. -/
def WriteRefused (server : Server) (i : Fin 4096) (block : ℤ) : Prop :=
  server.inodes i = -1 ∨ (server.inodeRecord i).type ≠ lfsRegularFile ∨ 13 < block

/-- All writes succeed in full, and there is room for the records of two calls of `fsi_write`. -/
def WritesTwice (server : Server) : Prop :=
  AllFull server ∧ server.cr.endPos.toNat + 8448 < 2 ^ 31

/-- A request that is handled inside the arrays and changes nothing, or a write of a block. -/
def Request.Harmless (server : Server) : Request → Prop
  | .lookup inum name => ∃ i : Fin 4096, inum.toInt = ((i : ℕ) : ℤ) ∧ Steady server i name
  | .stat inum => IsInum inum.toInt
  | .read inum block => IsInum inum.toInt ∧ (Unallocated server inum.toInt ∨ 0 ≤ block.toInt)
  | .write inum _ block => ∃ i : Fin 4096, inum.toInt = ((i : ℕ) : ℤ) ∧
      (WriteRefused server i block.toInt ∨ 0 ≤ block.toInt ∧ WritesTwice server)
  | .creat inum _ name => ∃ i : Fin 4096, inum.toInt = ((i : ℕ) : ℤ) ∧ CreatRefused server i name
  | .unlink inum name => ∃ i : Fin 4096, inum.toInt = ((i : ℕ) : ℤ) ∧ UnlinkRefused server i name
  | .shutdown => False
  | .error => True

/-- A write that has the room, or a creation or removal in a directory of a tree whose own block
answers for the name. -/
def Request.Ordinary (server : Server) : Request → Prop
  | .write inum _ block => ∀ i : Fin 4096, inum.toInt = ((i : ℕ) : ℤ) →
      WriteRefused server i block.toInt ∨ WritesTwice server
  | .creat inum _ name => ∀ i : Fin 4096, inum.toInt = ((i : ℕ) : ℤ) → server.inodes i ≠ -1 →
      name.Fits → HasTree server ∧ Appendable server 25216 ∧ IsDirectory server i ∧
        OwnBlock server i name
  | .unlink inum name => ∀ i : Fin 4096, inum.toInt = ((i : ℕ) : ℤ) → IsDirectory server i →
      HasTree server ∧ HasRoom server ∧ name.Fits ∧ OwnBlock server i name
  | .shutdown => False
  | .lookup _ _ | .stat _ | .read _ _ | .error => True

/-! ## Replies -/

/-- A handler that looks at the sign of the result. -/
theorem handler_run {code : Fsi ℤ} {rc : ℤ} (failed done : Msg)
    (h : code server = some (rc, fs)) :
    (do if (← code) < 0 then return failed else return done : Fsi Msg) server =
      some (if rc < 0 then failed else done, fs) := by
  rw [bind_run h]
  split <;> rfl

theorem handler_cases {code : Fsi ℤ} {failed done : Msg}
    (h : (do if (← code) < 0 then return failed else return done : Fsi Msg) server =
      some (answer, fs)) :
    ∃ rc, code server = some (rc, fs) ∧ answer = if rc < 0 then failed else done := by
  obtain ⟨rc, next, hrun, hrest⟩ := bind_eq_some h
  by_cases hrc : rc < 0
  · rw [if_pos hrc] at hrest
    cases hrest
    exact ⟨rc, hrun, (if_pos hrc).symm⟩
  · rw [if_neg hrc] at hrest
    cases hrest
    exact ⟨rc, hrun, (if_neg hrc).symm⟩

theorem not_succeeds (h : reply.inum = -1) : ¬ reply.Succeeds := by
  unfold Msg.Succeeds
  rw [h]
  decide

theorem succeeds_of_inum (h : reply.inum.toInt = ((i : ℕ) : ℤ)) : reply.Succeeds := by
  unfold Msg.Succeeds
  omega

/-! ## Requests that change nothing -/

theorem sameFiles_seek (h : Logged server) (offset offset' : ℕ) :
    SameFiles (server.seek offset) (server.seek offset') :=
  sameFiles_of_view (h.seek offset) (h.seek offset') rfl

/-- A request that moves the file offset only, with an answer that depends neither on it nor on the
stack. -/
theorem resendable_of_unchanged (h : Logged server) {request : Request} (succeeds : Prop)
    (hserve : ∀ reply buffer frames offset, ∃ answer offset',
      request.serve reply buffer frames (server.seek offset) = some (answer, server.seek offset') ∧
        (answer.Succeeds ↔ succeeds)) : Resendable server request := by
  intro reply buffer frames frames'
  obtain ⟨first, offset, hfirst, hsucceeds⟩ := hserve reply buffer frames server.offset
  obtain ⟨second, offset', hsecond, hsucceeds'⟩ := hserve first buffer frames' offset
  exact ⟨first, _, second, _, hfirst, hsecond, hsucceeds.trans hsucceeds'.symm,
    sameFiles_seek h offset offset'⟩

/-- A lookup from another file offset. -/
theorem fsiLookup_offset (h : Logged server) {frame : LookupFrame} {rc : ℤ} {offset : ℕ}
    (hlookup : fsiLookup ((i : ℕ) : ℤ) name frame (server.seek offset) = some (rc, fs)) :
    ∃ next, fsiLookup ((i : ℕ) : ℤ) name frame server = some (rc, next) := by
  by_cases hi : server.inodes i = -1
  · have hi' : (server.seek offset).inodes i = -1 := hi
    cases hlookup.symm.trans (fsiLookup_unallocated hi' frame)
    exact ⟨_, fsiLookup_unallocated hi frame⟩
  · exact ⟨fs, (fsiLookup_seek (h.inodeIs hi) name frame offset).symm.trans hlookup⟩

theorem resendable_lookup_iff (h : Logged server) {inum : Word}
    (hinum : inum.toInt = ((i : ℕ) : ℤ)) :
    Resendable server (.lookup inum name) ↔ Steady server i name := by
  have hserve (reply : Msg) (frame : LookupFrame) {offset : ℕ} {rc : ℤ} {next : Server}
      (hlookup : fsiLookup ((i : ℕ) : ℤ) name frame (server.seek offset) = some (rc, next)) :
      serverLookup reply inum name frame (server.seek offset) =
        some ({ reply with type := mfsLookup, inum := BitVec.ofInt 32 rc },
          server.seek next.offset) := by
    unfold serverLookup
    rw [hinum, bind_run hlookup, readOnly_fsiLookup _ _ _ _ _ _ hlookup]
    rfl
  constructor
  · intro hresend
    obtain ⟨rc, once, hrc⟩ := total_fsiLookup i name junkFrames.lookup server
    refine ⟨0 ≤ (BitVec.ofInt 32 rc).toInt, fun frame rc' next hlookup ↦ ?_⟩
    obtain ⟨first, once', second, twice, hfirst, hsecond, hsame, -⟩ :=
      hresend ⟨0, 0, 0, junk⟩ junk junkFrames { junkFrames with lookup := frame }
    cases (hserve _ _ hrc).symm.trans hfirst
    obtain ⟨found, last, hlast⟩ := total_fsiLookup i name frame (server.seek once.offset)
    obtain ⟨next', hnext⟩ := fsiLookup_offset h hlast
    cases hlookup.symm.trans hnext
    cases (hserve _ _ hlast).symm.trans hsecond
    exact hsame.symm
  · rintro ⟨found, hfound⟩
    apply resendable_of_unchanged h found
    intro reply buffer frames offset
    obtain ⟨rc, next, hlookup⟩ := total_fsiLookup i name frames.lookup (server.seek offset)
    obtain ⟨next', hnext⟩ := fsiLookup_offset h hlookup
    exact ⟨_, next.offset, hserve reply _ hlookup, hfound _ _ _ hnext⟩

theorem resendable_stat (h : Logged server) {inum : Word}
    (hinum : inum.toInt = ((i : ℕ) : ℤ)) : Resendable server (.stat inum) := by
  apply resendable_of_unchanged h (server.inodes i ≠ -1)
  intro reply buffer frames offset
  obtain ⟨next, hstat⟩ := fsiStat_view (h.seek offset) i frames.node
  have hread : ReadOnly (fsiStat ((i : ℕ) : ℤ) frames.node) :=
    (readOnly_getInode _ _).bind fun _ ↦ ReadOnly.ite (ReadOnly.pure _) (ReadOnly.pure _)
  have hnext : next = (server.seek offset).seek next.offset := hread _ _ _ hstat
  change ∃ answer offset', serverStat reply inum frames.node (server.seek offset) = _ ∧ _
  unfold serverStat
  rw [hinum, bind_run hstat]
  by_cases hi : server.inodes i = -1
  · have hi' : (server.seek offset).inodes i = -1 := hi
    rw [view_unallocated hi', hnext]
    exact ⟨_, _, rfl, iff_of_false (not_succeeds rfl) (not_not.mpr hi)⟩
  · have hi' : (server.seek offset).inodes i ≠ -1 := hi
    rw [view_allocated hi', hnext]
    exact ⟨_, _, rfl, iff_of_true (succeeds_of_inum hinum) hi⟩

/-- `fsi_read` fails if and only if the inode is not allocated or the block number is too big. -/
theorem fsiRead_rc (h : Logged server) (i : Fin 4096) {block : ℤ} (hblock : 0 ≤ block)
    (buffer node : Store) : ∃ found next,
      fsiRead ((i : ℕ) : ℤ) buffer block node server =
        some ((if server.inodes i ≠ -1 ∧ block ≤ 13 then 0 else -1, found), next) := by
  by_cases hi : server.inodes i = -1
  · rw [if_neg fun hboth ↦ hboth.1 hi]
    exact ⟨_, _, fsiRead_unallocated hi buffer block node⟩
  have hnode := h.inodeIs hi
  by_cases hhigh : block ≤ 13
  · rw [if_pos ⟨hi, hhigh⟩]
    obtain ⟨k, rfl⟩ := Int.eq_ofNat_of_zero_le hblock
    have hk : k < ndirect := by
      simp only [ndirect]
      omega
    obtain ⟨next, hread⟩ := fsiRead_delivers hnode ⟨k, hk⟩ buffer node
    exact ⟨_, next, hread⟩
  · rw [if_neg fun hboth ↦ hhigh hboth.2]
    refine ⟨buffer, server.seek ((server.inodes i).toNat + inodeSize), ?_⟩
    unfold fsiRead
    rw [bind_run (getInode_run node hnode)]
    dsimp only
    rw [if_neg (by decide)]
    unfold getBlock
    rw [if_pos (not_le.mp hhigh)]
    rfl

theorem resendable_read (h : Logged server) {inum block : Word}
    (hinum : inum.toInt = ((i : ℕ) : ℤ)) (hblock : server.inodes i = -1 ∨ 0 ≤ block.toInt) :
    Resendable server (.read inum block) := by
  apply resendable_of_unchanged h (server.inodes i ≠ -1 ∧ block.toInt ≤ 13)
  intro reply buffer frames offset
  have hrun : ∃ found next, fsiRead ((i : ℕ) : ℤ) buffer block.toInt frames.node
      (server.seek offset) =
        some ((if server.inodes i ≠ -1 ∧ block.toInt ≤ 13 then 0 else -1, found), next) := by
    by_cases hi : server.inodes i = -1
    · have hi' : (server.seek offset).inodes i = -1 := hi
      rw [if_neg fun hboth ↦ hboth.1 hi]
      exact ⟨_, _, fsiRead_unallocated hi' buffer _ frames.node⟩
    · exact fsiRead_rc (h.seek offset) i (hblock.resolve_left hi) buffer frames.node
  obtain ⟨found, next, hread⟩ := hrun
  have hnext : next = (server.seek offset).seek next.offset := readOnly_fsiRead _ _ _ _ _ _ _ hread
  change ∃ answer offset',
    serverRead reply inum buffer block frames.node (server.seek offset) = _ ∧ _
  unfold serverRead
  rw [hinum, bind_run hread, hnext]
  dsimp only
  by_cases hok : server.inodes i ≠ -1 ∧ block.toInt ≤ 13
  · rw [if_pos hok, if_neg (by decide)]
    exact ⟨_, _, rfl, iff_of_true (succeeds_of_inum hinum) hok⟩
  · rw [if_neg hok, if_pos (by decide)]
    exact ⟨_, _, rfl, iff_of_false (not_succeeds rfl) hok⟩

/-! ## Refused creations and removals -/

theorem resendable_unlink (h : Logged server) {inum : Word}
    (hinum : inum.toInt = ((i : ℕ) : ℤ)) (hrefused : UnlinkRefused server i name) :
    Resendable server (.unlink inum name) := by
  apply resendable_of_unchanged h False
  intro reply buffer frames offset
  obtain ⟨offset', hunlink⟩ := hrefused.run h frames.unlink offset
  rw [← hinum] at hunlink
  refine ⟨_, offset', handler_run _ _ hunlink, iff_of_false ?_ id⟩
  rw [if_pos (by decide)]
  exact not_succeeds rfl

theorem resendable_creat (h : Logged server) {inum : Word} (type : Word)
    (hinum : inum.toInt = ((i : ℕ) : ℤ)) (hrefused : CreatRefused server i name) :
    Resendable server (.creat inum type name) := by
  apply resendable_of_unchanged h False
  intro reply buffer frames offset
  obtain ⟨offset', hcreat⟩ := hrefused.run h type frames.creat offset
  rw [← hinum] at hcreat
  refine ⟨_, offset', handler_run _ _ hcreat, iff_of_false ?_ id⟩
  rw [if_pos (by decide)]
  exact not_succeeds rfl

/-! ## Writes -/

theorem WriteRefused.run {block : ℤ} (hrefused : WriteRefused server i block) (h : Logged server)
    (data node : Store) : ∃ offset, fsiWrite ((i : ℕ) : ℤ) data block node server =
      some (-1, server.seek offset) := by
  unfold fsiWrite
  by_cases hi : server.inodes i = -1
  · rw [bind_run (getInode_unallocated node hi)]
    exact ⟨server.offset, rfl⟩
  · rw [bind_run (getInode_run node (h.inodeIs hi))]
    dsimp only
    rw [if_neg (by decide)]
    refine ⟨(server.inodes i).toNat + inodeSize, ?_⟩
    by_cases htype : (server.inodeRecord i).type ≠ lfsRegularFile
    · rw [if_pos htype]
      rfl
    · rw [if_neg htype, if_pos ((hrefused.resolve_left hi).resolve_left htype)]
      rfl

theorem resendable_write (h : Logged server) {inum block : Word} (data : Data)
    (hinum : inum.toInt = ((i : ℕ) : ℤ))
    (hblock : WriteRefused server i block.toInt ∨ 0 ≤ block.toInt ∧ WritesTwice server) :
    Resendable server (.write inum data block) := by
  by_cases hrefused : WriteRefused server i block.toInt
  · apply resendable_of_unchanged h False
    intro reply buffer frames offset
    have hrefused' : WriteRefused (server.seek offset) i block.toInt := hrefused
    obtain ⟨offset', hwrite⟩ := hrefused'.run (h.seek offset) data.store frames.node
    rw [← hinum] at hwrite
    refine ⟨_, offset', handler_run _ _ hwrite, iff_of_false ?_ id⟩
    rw [if_pos (by decide)]
    exact not_succeeds rfl
  · obtain ⟨hi, hrest⟩ := not_or.mp hrefused
    obtain ⟨htype, hhigh⟩ := not_or.mp hrest
    have htype' := not_not.mp htype
    obtain ⟨hnonneg, hfull, hroom⟩ := hblock.resolve_left hrefused
    obtain ⟨k, hk⟩ := Int.eq_ofNat_of_zero_le hnonneg
    have hlt : k < ndirect := by
      simp only [ndirect]
      omega
    let j : Fin ndirect := ⟨k, hlt⟩
    have hj : block.toInt = ((j : ℕ) : ℤ) := hk
    intro reply buffer frames frames'
    obtain ⟨once, honce, hfirst⟩ :=
      fsiWrite_wroteBlock h hfull (by omega) hi htype' data.store j frames.node
    have hend := hfirst.end_eq
    obtain ⟨twice, htwice, hsecond⟩ := fsiWrite_wroteBlock hfirst.logged hfirst.full (by omega)
      hfirst.allocated (hfirst.type.trans htype') data.store j frames'.node
    rw [← hinum, ← hj] at honce htwice
    refine ⟨_, once, _, twice, handler_run _ _ honce, handler_run _ _ htwice, ?_,
      hfirst.sameFiles hsecond⟩
    rw [if_neg (by decide), if_neg (by decide)]
    exact iff_of_true (succeeds_of_inum hinum) (succeeds_of_inum hinum)

/-- A harmless request can be sent again. -/
theorem resendable_of_harmless (h : Logged server) {request : Request}
    (hharmless : request.Harmless server) : Resendable server request := by
  cases request with
  | lookup inum name =>
    obtain ⟨i, hi, hsteady⟩ := hharmless
    exact (resendable_lookup_iff h hi).mpr hsteady
  | stat inum =>
    obtain ⟨i, hi⟩ := IsInum.exists_fin hharmless
    exact resendable_stat h hi
  | write inum data block =>
    obtain ⟨i, hi, hblock⟩ := hharmless
    exact resendable_write h data hi hblock
  | read inum block =>
    obtain ⟨i, hi⟩ := hharmless.1.exists_fin
    exact resendable_read h hi (hharmless.2.imp_left fun hnone ↦ hnone i hi)
  | creat inum type name =>
    obtain ⟨i, hi, hrefused⟩ := hharmless
    exact resendable_creat h type hi hrefused
  | unlink inum name =>
    obtain ⟨i, hi, hrefused⟩ := hharmless
    exact resendable_unlink h hi hrefused
  | shutdown => exact absurd hharmless id
  | error =>
    apply resendable_of_unchanged h False
    intro reply buffer frames offset
    exact ⟨serverError reply, offset, rfl, iff_of_false (not_succeeds rfl) id⟩

/-! ## Requests that go through -/

theorem Resendable.accepted {request : Request} (h : Resendable server request) (frames : Frames) :
    request.Accepted server frames := by
  obtain ⟨first, once, _, _, hfirst, -⟩ := h ⟨0, 0, 0, junk⟩ junk frames frames
  exact serve_defined_iff request |>.mp ⟨first, once, hfirst⟩

/-- In a tree a removal that goes through is refused when it is sent again. -/
theorem unlinkRefused_of_resendable {forest : Forest (Fin 4096) CString} {inum : Word}
    (htree : Tree server forest) (hroom : HasRoom server)
    (hinum : inum.toInt = ((i : ℕ) : ℤ)) (hname : name.Fits) (hown : OwnBlock server i name)
    (h : Resendable server (.unlink inum name)) : UnlinkRefused server i name := by
  intro hdir
  rcases htree.lookup_cases hdir hname hown with
    habsent | ⟨child, hchild, hfound⟩ | ⟨slot, child, hnames, hnamed, hfile⟩
  · exact fun frame rc next hlookup ↦ Or.inl (habsent frame rc next hlookup)
  · exact htree.unlinkRefused hchild hfound hdir
  · obtain ⟨once, twice, honce, htwice⟩ := htree.fsiUnlink_twice hroom hnames hnamed hname hfile
      junkFrames.unlink junkFrames.unlink
    obtain ⟨first, once', second, twice', hfirst, hsecond, hsame, -⟩ :=
      h ⟨0, 0, 0, junk⟩ junk junkFrames junkFrames
    obtain ⟨rc, hrc, rfl⟩ := handler_cases hfirst
    rw [hinum] at hrc
    cases honce.symm.trans hrc
    obtain ⟨rc', hrc', rfl⟩ := handler_cases hsecond
    rw [hinum] at hrc'
    cases htwice.symm.trans hrc'
    rw [if_neg (by decide), if_pos (by decide)] at hsame
    exact absurd (hsame.mp (succeeds_of_inum hinum)) (not_succeeds rfl)

/-- A creation that goes through cannot be sent again. -/
theorem not_resendable_creat {inum type : Word} (h : Logged server)
    (hspace : Appendable server 25216) (hinum : inum.toInt = ((i : ℕ) : ℤ))
    (hother : HoldsOther server i)
    (hcreat : ∃ next, fsiCreat ((i : ℕ) : ℤ) type name junkFrames.creat server = some (0, next)) :
    ¬ Resendable server (.creat inum type name) := by
  intro hresend
  obtain ⟨once, honce⟩ := hcreat
  obtain ⟨first, once', second, twice, hfirst, hsecond, hsucceeds, hsame⟩ :=
    hresend ⟨0, 0, 0, junk⟩ junk junkFrames junkFrames
  obtain ⟨rc, hrc, rfl⟩ := handler_cases hfirst
  rw [hinum] at hrc
  cases honce.symm.trans hrc
  obtain ⟨rc', hrc', rfl⟩ := handler_cases hsecond
  rw [hinum] at hrc'
  rcases fsiCreat_twice hspace (fun hi ↦ h.inode hi) hother honce hrc' with
    hfailed | hdiffer
  · rw [hfailed, if_neg (by decide), if_pos (by decide)] at hsucceeds
    exact absurd (hsucceeds.mp (succeeds_of_inum hinum)) (not_succeeds rfl)
  · exact hdiffer hsame

/-- An ordinary request that can be sent again is harmless. -/
theorem harmless_of_resendable (h : Logged server) {request : Request}
    (hordinary : request.Ordinary server) (hresend : Resendable server request) :
    request.Harmless server := by
  have haccepted := hresend.accepted junkFrames
  cases request with
  | lookup inum name =>
    obtain ⟨i, hi⟩ := IsInum.exists_fin haccepted
    exact ⟨i, hi, (resendable_lookup_iff h hi).mp hresend⟩
  | stat inum => exact haccepted
  | read inum block => exact haccepted
  | write inum data block =>
    obtain ⟨i, hi⟩ := haccepted.1.exists_fin
    refine ⟨i, hi, ?_⟩
    by_cases hrefused : WriteRefused server i block.toInt
    · exact Or.inl hrefused
    have hwrites := (hordinary i hi).resolve_left hrefused
    rcases haccepted.2 with hblock | herror | hregular
    · exact Or.inr ⟨hblock, hwrites⟩
    · cases (hwrites.1 0).symm.trans herror
    · obtain ⟨hallocated, hrest⟩ := not_or.mp hrefused
      have htype := not_not.mp (not_or.mp hrest).1
      apply absurd _ hregular
      rw [hi]
      exact ⟨_, _, _, getInode_run junkFrames.node (h.inodeIs hallocated), by decide, htype⟩
  | creat inum type name =>
    obtain ⟨i, hi⟩ := haccepted.1.exists_fin
    refine ⟨i, hi, ?_⟩
    by_cases hallocated : server.inodes i = -1
    · exact Or.inl hallocated
    by_cases hname : name.Fits
    · obtain ⟨⟨forest, htree⟩, hspace, hdir, hown⟩ := hordinary i hi hallocated hname
      rcases htree.creatRefused_or h (hspace.mono (by decide)) hdir hname hown with
        hrefused | hcreat
      · exact hrefused
      · exact absurd hresend
          (not_resendable_creat h hspace hi (htree.holdsOther i) (hcreat type junkFrames.creat))
    · exact Or.inr (Or.inl hname)
  | unlink inum name =>
    obtain ⟨i, hi⟩ := haccepted.1.exists_fin
    refine ⟨i, hi, fun hdir ↦ ?_⟩
    obtain ⟨⟨forest, htree⟩, hroom, hname, hown⟩ := hordinary i hi hdir
    exact unlinkRefused_of_resendable htree hroom hi hname hown hresend hdir
  | shutdown => exact absurd hordinary id
  | error => trivial

theorem start_logged : Logged (freshServer.start junk) := by
  have hroot := start_root freshServer junk
  have hsize : (freshServer.start junk).image.size = 5252 := rfl
  have hinodes {k : Fin 4096} (hk : (freshServer.start junk).inodes k ≠ -1) : k = 0 := by
    by_contra hne
    exact hk (if_neg hne)
  have hend := start_endPos freshServer junk
  refine ⟨by rw [hsize, hend], by rw [hend]; decide, ?_, ?_⟩
  · intro k hk
    rw [hinodes hk]
    exact hroot.node
  · intro k j hk hj
    rw [hinodes hk] at hj ⊢
    by_cases hzero : j = 0
    · rw [hzero]
      exact hroot.block
    · exact absurd (hroot.one_block j hzero) hj

end OS537.MFS
