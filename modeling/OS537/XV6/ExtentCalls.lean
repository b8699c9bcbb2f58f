import OS537.XV6.ExtentRounds
import OS537.XV6.SameBytes

/-!
# Calls on extent files

The calls on an open extent file return exactly as long as every round finds its block or a place
for it. A call that cannot map a block neither fails nor gives the block back: the kernel panics.
-/

namespace OS537.XV6

open Bytes Run

variable {fs fs' : FS} {slot : Slot}

/-! ## Calls -/

/-- The file is open on an extent inode that nobody has locked. -/
structure Session.Ready (session : Session) : Prop where
  kind : session.file.type = .inode
  cached : session.fs.Cached session.file.ip
  idle : (session.fs.icache session.file.ip).busy = false
  extent : (session.fs.icache session.file.ip).type = .extent

/-- The rounds of a call that passes the checks, from the state in which the inode is locked. -/
def Session.roundActs (session : Session) (fs : FS) : FileCall → List Act
  | .lseek _ => []
  | .read n =>
    if session.file.readable = false ∨ (fs.icache session.file.ip).refuses session.file.off n then
      []
    else loads session.file.ip (roundsOf session.file.off
      ((fs.icache session.file.ip).readLength session.file.off n))
  | .write src n =>
    if session.file.writable = false ∨ (fs.icache session.file.ip).refuses session.file.off n then
      []
    else stores session.file.ip src (roundsOf session.file.off n)

/-- Every round of the call meets the condition, in the state that it starts in. -/
def Session.EachRound (ok : FS → Act → Prop) (session : Session) (call : FileCall) : Prop :=
  ∀ result ∈ ilock session.file.ip session.fs,
    Guarded FS.act ok result.2 (session.roundActs result.2 call)

instance (ok : FS → Act → Prop) [∀ fs act, Decidable (ok fs act)] (session : Session)
    (call : FileCall) : Decidable (session.EachRound ok call) :=
  inferInstanceAs (Decidable (∀ result ∈ ilock session.file.ip session.fs,
    Guarded FS.act ok result.2 (session.roundActs result.2 call)))

/-- Free blocks remain for a call, and what others do is possible and about other files. -/
def Session.BlocksRemain (session : Session) : Event → Prop
  | .call call => session.EachRound FS.Remains call
  | .other act => act.Apart session.file.ip ∧ (session.fs.act act).isSome

/-- The blocks of a call have a place in the extents. -/
def Session.BlocksFit (session : Session) : Event → Prop
  | .call call => session.EachRound FS.Fits call
  | .other _ => True

/-- The call returns. A write that is not refused writes all its bytes, and one that is refused
leaves the disk as it was. -/
def Session.Returns (session : Session) : Event → Prop
  | .call (.write src n) => ∃ next, session.call (.write src n) = some next ∧
      (next.answers = session.answers ++ [⟨n, []⟩] ∨
        next.answers = session.answers ++ [⟨-1, []⟩] ∧ next.fs.disk = session.fs.disk)
  | .call call => (session.call call).isSome
  | .other _ => True

instance (session : Session) : (event : Event) → Decidable (session.BlocksRemain event)
  | .call call => inferInstanceAs (Decidable (session.EachRound FS.Remains call))
  | .other act =>
    inferInstanceAs (Decidable (act.Apart session.file.ip ∧ (session.fs.act act).isSome))

instance (session : Session) : (event : Event) → Decidable (session.BlocksFit event)
  | .call call => inferInstanceAs (Decidable (session.EachRound FS.Fits call))
  | .other _ => isTrue trivial

/-- The state in which a call works: the inode is locked. -/
def Session.locked (session : Session) : FS :=
  session.fs.set session.file.ip { session.fs.icache session.file.ip with busy := true }

def FS.unlocked (fs : FS) (slot : Slot) : FS :=
  fs.set slot { fs.icache slot with busy := false }

theorem FS.ExtentLocked.iunlock (h : fs.ExtentLocked slot) :
    XV6.iunlock slot fs = some ((), fs.unlocked slot) := by
  have href : ¬ (fs.icache slot).ref < 1 := by
    have hpos := h.locked.1.1
    omega
  have hbusy : ¬ (fs.icache slot).busy = false := by
    rw [h.locked.2]
    simp
  unfold XV6.iunlock
  rw [if_neg fun hor ↦ hor.elim hbusy href]
  rfl

section Ready

variable {session next : Session}

theorem Session.Ready.ilock (h : session.Ready) :
    XV6.ilock session.file.ip session.fs = some ((), session.locked) := by
  have href : ¬ (session.fs.icache session.file.ip).ref < 1 := by
    have hpos := h.cached.1
    omega
  have hidle : ¬ (session.fs.icache session.file.ip).busy = true := by
    rw [h.idle]
    simp
  unfold XV6.ilock
  dsimp only
  rw [if_neg href, if_neg hidle, if_pos h.cached.2]
  rfl

theorem Session.Ready.extentLocked (h : session.Ready) :
    session.locked.ExtentLocked session.file.ip := by
  refine ⟨⟨FS.cached_set_self.mpr h.cached, ?_⟩, ?_⟩
  · rw [Session.locked, FS.set_icache_self]
  · rw [Session.locked, FS.set_icache_self]
    exact h.extent

theorem Session.Ready.eachRound_iff (h : session.Ready) {ok : FS → Act → Prop} (call : FileCall) :
    session.EachRound ok call ↔
      Guarded FS.act ok session.locked (session.roundActs session.locked call) := by
  unfold Session.EachRound
  rw [h.ilock]
  simp

/-- A call locks the inode, works on it, and unlocks it. -/
theorem Session.Ready.around (h : session.Ready) {α β : Type} {body : FSM α} (result : α → β)
    (hbody : Code.Triple (·.ExtentLocked session.file.ip) body
      fun _ fs ↦ fs.ExtentLocked session.file.ip) :
    (do XV6.ilock session.file.ip
        let r ← body
        XV6.iunlock session.file.ip
        return result r : FSM β) session.fs =
      (body session.locked).map fun (r, fs) ↦ (result r, fs.unlocked session.file.ip) := by
  rw [Code.bind_run h.ilock]
  cases hrun : body session.locked with
  | none => rw [Code.bind_run_none hrun]; rfl
  | some pair =>
    have hlocked := hbody h.extentLocked hrun
    rw [Code.bind_run hrun, Code.bind_run hlocked.iunlock]
    rfl

theorem FS.ExtentLocked.ready (hlocked : fs.ExtentLocked session.file.ip) {file : File}
    (htype : file.type = .inode) (hip : file.ip = session.file.ip) (answers : List Answer) :
    Session.Ready ⟨fs.unlocked session.file.ip, file, answers⟩ := by
  refine ⟨htype, ?_, ?_, ?_⟩
  · rw [hip]
    exact FS.cached_set_self.mpr hlocked.locked.1
  · rw [hip, FS.unlocked, FS.set_icache_self]
  · rw [hip, FS.unlocked, FS.set_icache_self]
    exact hlocked.type

theorem File.advance_type (file : File) (r : Word) : (file.advance r).type = file.type := by
  unfold File.advance
  split
  · rfl
  · rfl

theorem File.advance_ip (file : File) (r : Word) : (file.advance r).ip = file.ip := by
  unfold File.advance
  split
  · rfl
  · rfl

theorem filelseek_inode {file : File} (h : file.type = .inode) (offset : Word) :
    filelseek file offset = (do
      ilock file.ip
      seekSize file.ip offset
      iunlock file.ip
      return (offset, { file with off := offset })) := by
  cases file
  cases h
  rfl

theorem Session.Ready.lseek (h : session.Ready) (offset : Word) :
    ∃ next, session.call (.lseek offset) = some next ∧ next.Ready := by
  have hbody : Code.Triple (·.ExtentLocked session.file.ip) (seekSize session.file.ip offset)
      fun _ fs ↦ fs.ExtentLocked session.file.ip := by
    intro fs hlocked result fs' hrun
    unfold seekSize at hrun
    split at hrun
    · cases hrun
      exact hlocked.set fs.disk rfl rfl rfl rfl
    · cases hrun
      exact hlocked
  have hcall : filelseek session.file offset session.fs =
      (seekSize session.file.ip offset session.locked).map fun (_, fs) ↦
        ((offset, { session.file with off := offset }), fs.unlocked session.file.ip) := by
    rw [filelseek_inode h.kind]
    exact h.around (fun _ ↦ (offset, { session.file with off := offset })) hbody
  obtain ⟨⟨⟨⟩, fs⟩, hseek⟩ : ∃ result, seekSize session.file.ip offset session.locked =
      some result := by
    unfold seekSize
    split
    · exact ⟨_, rfl⟩
    · exact ⟨_, rfl⟩
  have hlocked := hbody h.extentLocked hseek
  have hready : Session.Ready ⟨fs.unlocked session.file.ip, { session.file with off := offset },
      session.answers ++ [⟨offset, []⟩]⟩ :=
    hlocked.ready (by exact h.kind) (by rfl) _
  refine ⟨_, ?_, hready⟩
  rw [Session.call, hcall, hseek]
  rfl

theorem Session.Ready.fileread_eq (h : session.Ready) (hreadable : session.file.readable = true)
    (n : Word) : fileread session.file n session.fs =
      (readi session.file.ip session.file.off n session.locked).map fun (result, fs) ↦
        ((result.1, result.2, session.file.advance result.1), fs.unlocked session.file.ip) := by
  have hbody : Code.Triple (·.ExtentLocked session.file.ip)
      (readi session.file.ip session.file.off n) fun _ fs ↦ fs.ExtentLocked session.file.ip :=
    fun _ hlocked _ _ hrun ↦ hlocked.readi hrun
  unfold fileread
  rw [hreadable, h.kind]
  exact h.around (fun result ↦ (result.1, result.2, session.file.advance result.1)) hbody

theorem Session.Ready.filewrite_eq (h : session.Ready) (hwritable : session.file.writable = true)
    (src : Store) (n : Word) : filewrite session.file src n session.fs =
      (writei session.file.ip src session.file.off n session.locked).map fun (r, fs) ↦
        ((r, session.file.advance r), fs.unlocked session.file.ip) := by
  have hbody : Code.Triple (·.ExtentLocked session.file.ip)
      (writei session.file.ip src session.file.off n)
      fun _ fs ↦ fs.ExtentLocked session.file.ip :=
    fun _ hlocked _ _ hrun ↦ (hlocked.writei hrun).1
  unfold filewrite
  rw [hwritable, h.kind]
  exact h.around (fun r ↦ (r, session.file.advance r)) hbody

/-- A call returns exactly if a block remains for each round and has a place. -/
theorem Session.Ready.call_isSome_iff (h : session.Ready) (call : FileCall) :
    (session.call call).isSome ↔
      session.EachRound FS.Remains call ∧ session.EachRound FS.Fits call := by
  rw [h.eachRound_iff, h.eachRound_iff]
  cases call with
  | lseek offset =>
    obtain ⟨next, hnext, -⟩ := h.lseek offset
    simp [hnext, Session.roundActs, Guarded]
  | read n =>
    unfold Session.roundActs Session.call
    rw [Option.isSome_map]
    cases hreadable : session.file.readable with
    | false => simp [fileread, hreadable, Guarded]
    | true =>
      rw [h.fileread_eq hreadable, Option.isSome_map]
      cases haccepts : (session.locked.icache session.file.ip).refuses session.file.off n with
      | true => simp [readi, haccepts, Guarded]
      | false =>
        rw [h.extentLocked.readi_isSome haccepts]
        simp only [Bool.true_eq_false, haccepts, Bool.false_eq_true, or_self, if_false]
        exact h.extentLocked.run_isSome_iff (loads_maps _)
  | write src n =>
    unfold Session.roundActs Session.call
    rw [Option.isSome_map]
    cases hwritable : session.file.writable with
    | false => simp [filewrite, hwritable, Guarded]
    | true =>
      rw [h.filewrite_eq hwritable, Option.isSome_map]
      cases haccepts : (session.locked.icache session.file.ip).refuses session.file.off n with
      | true => simp [writei, haccepts, Guarded]
      | false =>
        rw [h.extentLocked.writei_isSome haccepts]
        simp only [Bool.true_eq_false, haccepts, Bool.false_eq_true, or_self, if_false]
        exact h.extentLocked.run_isSome_iff (stores_maps src _)

theorem Session.Ready.write (h : session.Ready) {src : Store} {n : Word}
    (hcall : session.call (.write src n) = some next) :
    next.Ready ∧ (next.answers = session.answers ++ [⟨n, []⟩] ∨
      next.answers = session.answers ++ [⟨-1, []⟩] ∧ next.fs.disk = session.fs.disk) := by
  obtain ⟨⟨⟨r, file⟩, fs⟩, hwrite, rfl⟩ := Option.map_eq_some_iff.mp hcall
  cases hwritable : session.file.writable with
  | false =>
    simp only [filewrite, hwritable, if_true, Code.pure_run, Option.some.injEq,
      Prod.mk.injEq] at hwrite
    obtain ⟨⟨rfl, rfl⟩, rfl⟩ := hwrite
    exact ⟨⟨h.kind, h.cached, h.idle, h.extent⟩, .inr ⟨rfl, rfl⟩⟩
  | true =>
    rw [h.filewrite_eq hwritable] at hwrite
    obtain ⟨⟨r, fs⟩, hrun, hresult⟩ := Option.map_eq_some_iff.mp hwrite
    cases hresult
    obtain ⟨hlocked, hanswer⟩ := h.extentLocked.writei hrun
    refine ⟨hlocked.ready ((File.advance_type _ r).trans h.kind) (File.advance_ip _ r) _, ?_⟩
    rcases hanswer with ⟨rfl, rfl⟩ | rfl
    · exact .inr ⟨rfl, rfl⟩
    · exact .inl rfl

theorem Session.Ready.read (h : session.Ready) {n : Word}
    (hcall : session.call (.read n) = some next) : next.Ready := by
  obtain ⟨⟨⟨r, data, file⟩, fs⟩, hread, rfl⟩ := Option.map_eq_some_iff.mp hcall
  cases hreadable : session.file.readable with
  | false =>
    simp only [fileread, hreadable, if_true, Code.pure_run, Option.some.injEq,
      Prod.mk.injEq] at hread
    obtain ⟨⟨rfl, rfl, rfl⟩, rfl⟩ := hread
    exact ⟨h.kind, h.cached, h.idle, h.extent⟩
  | true =>
    rw [h.fileread_eq hreadable] at hread
    obtain ⟨⟨⟨r, data⟩, fs⟩, hrun, hresult⟩ := Option.map_eq_some_iff.mp hread
    cases hresult
    have hlocked := h.extentLocked.readi hrun
    exact hlocked.ready ((File.advance_type _ r).trans h.kind) (File.advance_ip _ r) _

theorem Session.Ready.returns_iff (h : session.Ready) {event : Event}
    (hremain : session.BlocksRemain event) :
    session.Returns event ↔ session.BlocksFit event := by
  cases event with
  | other act => exact Iff.rfl
  | call call =>
    have hiff := h.call_isSome_iff call
    have hfits : (session.call call).isSome ↔ session.EachRound FS.Fits call := by
      rw [hiff]
      exact and_iff_right hremain
    cases call with
    | lseek offset => exact hfits
    | read n => exact hfits
    | write src n =>
      refine ⟨fun ⟨next, hnext, _⟩ ↦ hfits.mp ?_, fun hfit ↦ ?_⟩
      · rw [hnext]
        rfl
      · obtain ⟨next, hnext⟩ := Option.isSome_iff_exists.mp (hfits.mpr hfit)
        exact ⟨next, hnext, (h.write hnext).2⟩

end Ready

/-! ## Runs -/

theorem Session.Ready.step {session next : Session} (h : session.Ready) {event : Event}
    (hremain : session.BlocksRemain event) (hstep : session.step event = some next) :
    next.Ready := by
  cases event with
  | call call =>
    cases call with
    | lseek offset =>
      obtain ⟨other, hother, hready⟩ := h.lseek offset
      cases hother.symm.trans hstep
      exact hready
    | read n => exact h.read hstep
    | write src n => exact (h.write hstep).1
  | other act =>
    obtain ⟨fs, hact, rfl⟩ := Option.map_eq_some_iff.mp hstep
    obtain ⟨ref, href, hicache⟩ := FS.act_apart_icache hremain.1 h.cached.1 hact
    refine ⟨h.kind, ?_, ?_, ?_⟩
    · unfold FS.Cached
      rw [hicache]
      exact ⟨href, h.cached.2⟩
    · change (fs.icache session.file.ip).busy = false
      rw [hicache]
      exact h.idle
    · change (fs.icache session.file.ip).type = .extent
      rw [hicache]
      exact h.extent

/-- A byte is written to block `i` of the file, and then to block `i` of another. -/
def takeTurns (i : ℕ) : List Event :=
  [.call (.lseek (BitVec.ofNat 32 (512 * i))), .call (.write (fun _ ↦ 7) 1),
    .other (.store 1 (BitVec.ofNat 32 (512 * i)) 1 fun _ ↦ 8)]

/-- Two files take turns, so that no two blocks of the first are neighbors on the disk. -/
def fragmenting (turns : ℕ) : List Event :=
  [.other (.ialloc .file), .other (.ilock 1)] ++ (List.range turns).flatMap takeTurns

theorem newFile_ready : (newFile .extent).Ready := ⟨rfl, ⟨Int.one_pos, rfl⟩, rfl, rfl⟩

/-- As long as free blocks remain, the calls on an extent file return exactly if every block that
is new has a place: next to the extent before it, or in an empty slot. -/
theorem extent_calls_return_iff {session : Session} {events : List Event} (hready : session.Ready)
    (hremain : Guarded Session.step Session.BlocksRemain session events) :
    Guarded Session.step Session.Returns session events ↔
      Guarded Session.step Session.BlocksFit session events := by
  constructor
  · intro hreturns
    refine (hremain.and hreturns).mono_of_invariant (fun _ _ _ h hok hstep ↦ h.step hok.1 hstep)
      (fun _ _ h hok ↦ ?_) hready
    exact (h.returns_iff hok.1).mp hok.2
  · intro hfit
    refine (hremain.and hfit).mono_of_invariant (fun _ _ _ h hok hstep ↦ h.step hok.1 hstep)
      (fun _ _ h hok ↦ ?_) hready
    exact (h.returns_iff hok.1).mpr hok.2

/-- Two blocks that are not neighbors are written. -/
theorem two_fragments_return :
    Guarded Session.step Session.Returns (newFile .extent) (fragmenting 2) :=
  (extent_calls_return_iff newFile_ready (by decide +kernel)).mpr (by decide +kernel)

/-- The seventh has no place, with blocks left to allocate. -/
theorem seventh_fragment_panics :
    (newFile .extent).Ready ∧
      Guarded Session.step Session.BlocksRemain (newFile .extent) (fragmenting 7) ∧
      ¬ Guarded Session.step Session.Returns (newFile .extent) (fragmenting 7) := by
  have hturns : fragmenting 7 = (fragmenting 6 ++ [.call (.lseek 3072)]) ++
      [.call (.write (fun _ ↦ 7) 1), .other (.store 1 3072 1 fun _ ↦ 8)] := rfl
  obtain ⟨middle, hmiddle, hpanic⟩ : ∃ middle,
      run Session.step (newFile .extent) (fragmenting 6 ++ [.call (.lseek 3072)]) = some middle ∧
        middle.call (.write (fun _ ↦ 7) 1) = none := by
    have hpanics : ((run Session.step (newFile .extent)
        (fragmenting 6 ++ [.call (.lseek 3072)])).map fun middle ↦
          (middle.call (.write (fun _ ↦ 7) 1)).isNone) = some true := by decide +kernel
    obtain ⟨middle, hmiddle, hnone⟩ := Option.map_eq_some_iff.mp hpanics
    exact ⟨middle, hmiddle, Option.isNone_iff_eq_none.mp hnone⟩
  refine ⟨newFile_ready, by decide +kernel, fun hreturns ↦ ?_⟩
  rw [hturns] at hreturns
  obtain ⟨⟨next, hnext, -⟩, -⟩ := (hreturns.of_append hmiddle).2
  rw [hpanic] at hnext
  cases hnext

end OS537.XV6
