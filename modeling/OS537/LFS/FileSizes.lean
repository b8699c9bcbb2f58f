import OS537.LFS.UsableRuns
import OS537.LFS.Writing

/-!
# The size of a file that is written

`fsi_write` sets the size of a file to the start of the block it writes, and not to its end, and
only if the block is new and begins past the old size. After any sequence of writes to a new file
the size is that of the blocks before the last one.
-/

namespace OS537.LFS

open Bytes Code Posix Run

variable {server next final : Server} {i : Fin 4096} {j : Fin ndirect}

/-! ## Sequences of writes -/

/-- A call of `fsi_write` on a file, with the stack it finds. -/
structure BlockWrite where
  block : Fin ndirect
  buffer : Store
  node : Store

/-- The call returns 0. -/
def writeStep (i : Fin 4096) (server : Server) (write : BlockWrite) : Option Server :=
  (fsiWrite ((i : ℕ) : ℤ) write.buffer ((write.block : ℕ) : ℤ) write.node server).bind
    fun (rc, next) ↦ if rc = 0 then some next else none

theorem writeStep_eq_some {write : BlockWrite} (h : writeStep i server write = some next) :
    fsiWrite ((i : ℕ) : ℤ) write.buffer ((write.block : ℕ) : ℤ) write.node server =
      some (0, next) := by
  obtain ⟨⟨rc, middle⟩, hrun, hnext⟩ := Option.bind_eq_some_iff.mp h
  obtain ⟨hrc, hmiddle⟩ := Option.ite_none_right_eq_some.mp hnext
  cases hmiddle
  rw [hrun, hrc]

/-- The largest block written. -/
def largest (writes : List BlockWrite) : ℕ := writes.foldl (fun top write ↦ max top write.block) 0

/-- A regular file as `fsi_creat` makes it. -/
structure EmptyFile (server : Server) (i : Fin 4096) : Prop where
  live : server.inodes i ≠ -1
  record : server.inodeRecord i = newInode lfsRegularFile

/-- What `fsi_stat` reports as the size of the file, whatever the stack contains. -/
def ReportsSize (server : Server) (i : Fin 4096) (size : ℤ) : Prop :=
  ∀ node, ∃ type word last, fsiStat ((i : ℕ) : ℤ) node server = some (some (type, word), last) ∧
    word.toInt = size

/-! ## One write -/

/-- The size is the start of block `top`, and no block behind it has been written. -/
structure FileView.UpTo (file : FileView) (top : ℕ) : Prop where
  lt : top < ndirect
  size : file.size.toInt = 4096 * top
  unwritten : ∀ j : Fin ndirect, top < j → file.blocks j = none

theorem FileView.UpTo.write {file : FileView} {top : ℕ} (h : file.UpTo top) (j : Fin ndirect)
    (data : Fin lfsBlockSize → Byte) : (file.write j data).UpTo (max top j) := by
  have hj := j.isLt
  simp only [ndirect] at hj
  have hword : (BitVec.ofInt 32 (((j : ℕ) : ℤ) * 4096)).toInt = 4096 * ((j : ℕ) : ℤ) := by
    rw [BitVec.toInt_ofInt, Int.bmod_eq_of_le (by omega) (by omega)]
    ring
  refine ⟨max_lt h.lt j.isLt, ?_, fun k hk ↦ ?_⟩
  · rcases Nat.lt_or_ge top j with hlt | hge
    · have hnew : (file.blocks j).isNone ∧ file.size.toInt < ((j : ℕ) : ℤ) * 4096 := by
        refine ⟨by rw [h.unwritten j hlt]; rfl, ?_⟩
        rw [h.size]
        omega
      unfold FileView.write
      rw [if_pos hnew, hword, max_eq_right hlt.le]
    · have hold : ¬ ((file.blocks j).isNone ∧ file.size.toInt < ((j : ℕ) : ℤ) * 4096) := by
        rw [h.size]
        omega
      unfold FileView.write
      rw [if_neg hold, h.size, max_eq_left hge]
  · have hne : k ≠ j := by
      rintro rfl
      exact absurd hk (not_lt.mpr (le_max_right top k))
    change Function.update file.blocks j (some data) k = none
    rw [Function.update_of_ne hne]
    exact h.unwritten k ((le_max_left top j).trans_lt hk)

/-- What a sequence of writes keeps. -/
structure Growing (server : Server) (i : Fin 4096) (top : ℕ) : Prop where
  placed : Placed server
  whole : WholeWrites server
  live : server.inodes i ≠ -1
  view : ∃ file, server.view i = some file ∧ file.UpTo top

theorem Growing.write {top : ℕ} (h : Growing server i top)
    (hroom : server.cr.endPos.toNat + 4096 < 2 ^ 31) {write : BlockWrite}
    (hstep : writeStep i server write = some next) :
    Growing next i (max top write.block) ∧ next.cr.endPos = server.cr.endPos + 4096 + 64 + 64 := by
  have hnext := h.placed.fsiWrite_zero h.whole h.live (writeStep_eq_some hstep)
  have hwritten := appendedBlock_blockWritten h.placed h.live hroom write.buffer write.block
  rw [← hnext] at hwritten
  obtain ⟨file, hview, hupTo⟩ := h.view
  refine ⟨⟨hwritten.placed, ?_, fun hnone ↦ h.live ((hwritten.live i).mp hnone), ?_⟩, ?_⟩
  · rw [hnext]
    exact fun k ↦ h.whole (k + 4)
  · refine ⟨file.write write.block fun b ↦ write.buffer b, ?_, hupTo.write _ _⟩
    rw [hwritten.view, Function.update_self, hview]
    rfl
  · rw [hnext]
    rfl

theorem Growing.run {top : ℕ} (h : Growing server i top) {writes : List BlockWrite}
    (hroom : server.cr.endPos.toNat + 4224 * writes.length < 2 ^ 31)
    (hrun : Run.run (writeStep i) server writes = some final) :
    Growing final i (writes.foldl (fun top write ↦ max top write.block) top) := by
  induction writes generalizing server top with
  | nil =>
    cases Option.some.inj hrun
    exact h
  | cons write rest ih =>
    obtain ⟨next, hstep, hrest⟩ := Option.bind_eq_some_iff.mp hrun
    rw [List.length_cons, Nat.mul_succ] at hroom
    have hblock : 4096 ≤ 4224 * rest.length + 4224 :=
      (show 4096 ≤ 4224 by decide).trans (Nat.le_add_left _ _)
    have hhere : server.cr.endPos.toNat + 4096 < 2 ^ 31 :=
      (Nat.add_le_add_left hblock _).trans_lt hroom
    obtain ⟨hnext, hend⟩ := h.write hhere hstep
    apply ih hnext _ hrest
    have hplace : next.cr.endPos.toNat = server.cr.endPos.toNat + 4224 := by
      rw [hend]
      bv_omega
    omega

theorem Growing.reportsSize {top : ℕ} (h : Growing server i top) :
    ReportsSize server i (4096 * top) := by
  intro node
  obtain ⟨last, hlast⟩ := fsiStat_run (h.placed.inodeIs h.live) node
  obtain ⟨file, hview, hupTo⟩ := h.view
  rw [view_allocated h.live, Option.some_inj] at hview
  refine ⟨_, _, last, hlast, ?_⟩
  rw [← hupTo.size, ← hview]

theorem EmptyFile.growing (h : EmptyFile server i) (hplaced : Placed server)
    (hwhole : WholeWrites server) : Growing server i 0 := by
  refine ⟨hplaced, hwhole, h.live, _, view_allocated h.live, by decide, ?_, fun j _ ↦ ?_⟩
  · rw [h.record]
    rfl
  · dsimp only
    rw [h.record]
    exact (blockView_eq_none_iff _ _).mpr rfl

theorem ReportsSize.unique {size other : ℤ} (h : ReportsSize server i size)
    (h' : ReportsSize server i other) : size = other := by
  obtain ⟨type, word, last, hstat, hsize⟩ := h fun _ ↦ 0
  obtain ⟨type', word', last', hstat', hsize'⟩ := h' fun _ ↦ 0
  cases hstat.symm.trans hstat'
  exact hsize.symm.trans hsize'

theorem largest_append_le (first rest : List BlockWrite) :
    largest first ≤ largest (first ++ rest) := by
  unfold largest
  rw [List.foldl_append]
  induction rest using List.reverseRecOn with
  | nil => exact le_rfl
  | append_singleton rest write ih =>
    rw [List.foldl_append]
    exact ih.trans (le_max_left _ _)

/-! ## Whole sequences -/

/-- The size never decreases, and after at least one write it is never that of all blocks up to the
largest one written: it is short of it by one block. -/
theorem size_short_of_largest {writes : List BlockWrite} (hempty : EmptyFile server i)
    (hplaced : Placed server) (hwhole : WholeWrites server)
    (hroom : server.cr.endPos.toNat + 4224 * writes.length < 2 ^ 31)
    (hrun : Run.run (writeStep i) server writes = some final) :
    ¬ ReportsSize final i (4096 * (1 + largest writes)) ∧
      ReportsSize final i (4096 * largest writes) ∧
      ∀ first rest middle, writes = first ++ rest →
        Run.run (writeStep i) server first = some middle →
          ∃ size ≤ (4096 * largest writes : ℤ), ReportsSize middle i size := by
  have hstart := hempty.growing hplaced hwhole
  have hsize : ReportsSize final i (4096 * largest writes) := (hstart.run hroom hrun).reportsSize
  refine ⟨fun hlaw ↦ ?_, hsize, fun first rest middle hwrites hmiddle ↦ ?_⟩
  · have hsame := hlaw.unique hsize
    omega
  · subst hwrites
    rw [List.length_append] at hroom
    have hbefore : ReportsSize middle i (4096 * largest first) :=
      (hstart.run (by omega) hmiddle).reportsSize
    have hle := largest_append_le first rest
    exact ⟨4096 * largest first, by omega, hbefore⟩

/-- Blocks 5, 2 and 5 of a new file. -/
def threeWrites : List BlockWrite := [⟨5, junk, junk⟩, ⟨2, junk, junk⟩, ⟨5, junk, junk⟩]

theorem threeWrites_size :
    ∃ final, Run.run (writeStep 0) (oneFile 1092 1156) threeWrites = some final ∧
      ¬ ReportsSize final 0 (4096 * (1 + largest threeWrites)) ∧
      ReportsSize final 0 (4096 * 5) := by
  have hdefined : (Run.run (writeStep 0) (oneFile 1092 1156) threeWrites).isSome = true := by
    decide +kernel
  obtain ⟨final, hrun⟩ := Option.isSome_iff_exists.mp hdefined
  have hsize := size_short_of_largest ⟨by decide, oneFile_inodeRecord le_rfl⟩
    (oneFile_placed le_rfl (by decide)) (AllFull.wholeWrites fun _ ↦ rfl) (by decide) hrun
  exact ⟨final, hrun, hsize.1, hsize.2.1⟩

/-- The first file of a new image has size 0 after its first block was written. -/
theorem first_block_size_zero :
    ∃ start server final, fsiBuild fileNames freshServer = some ((), start) ∧
      Run.run Call.step start (rootCreats 1) = some server ∧
      Run.run (writeStep 1) server [⟨0, junk, junk⟩] = some final ∧
      ¬ ReportsSize final 1 (4096 * (1 + largest [⟨0, junk, junk⟩])) := by
  have hstat : ((Run.run Call.step (freshServer.start fileNames) (rootCreats 1)).bind
      fun server ↦ (Run.run (writeStep 1) server [⟨0, junk, junk⟩]).bind fun final ↦
        (fsiStat (((1 : Fin 4096) : ℕ) : ℤ) junk final).map Prod.fst) = some (some (1, 0)) := by
    decide +kernel
  obtain ⟨server, hserver, hrest⟩ := Option.bind_eq_some_iff.mp hstat
  obtain ⟨final, hfinal, hlast⟩ := Option.bind_eq_some_iff.mp hrest
  obtain ⟨⟨result, last⟩, hresult, hvalue⟩ := Option.map_eq_some_iff.mp hlast
  refine ⟨_, server, final, fsiBuild_run freshServer_full fileNames, hserver, hfinal, fun hlaw ↦ ?_⟩
  obtain ⟨type, word, last', hstat', hsize⟩ := hlaw junk
  cases hresult.symm.trans hstat'
  cases hvalue
  exact absurd hsize (by decide)

end OS537.LFS
