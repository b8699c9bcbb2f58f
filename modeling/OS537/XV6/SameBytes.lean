import OS537.XV6.Sessions

/-!
# Extent files and pointer files

An extent file and a file with pointers, both new, answer the same calls alike, as long as `bmap`
keeps their blocks. Of a block number of more than 24 bits a new extent keeps the rest, so a byte
that was written to that block is not read again.
-/

namespace OS537.XV6

open Bytes Run

/-- A file in the first slot, open for reading and writing. -/
def openFile : File := ⟨.inode, 1, true, true, 0, 0⟩

/-- The extent file of the image with two files, after it has been opened. -/
def newExtent (n : ℕ) : Session :=
  ⟨(mounted n).set 0 { extentOpen n with busy := false }, openFile, []⟩

theorem newExtent_starts {n : ℕ} (hn : 5000 < n) : (newExtent n).Starts .extent where
  reached := by
    have hunlock : FS.act ((mounted n).set 0 (extentOpen n)) (.iunlock 0) =
        some ((mounted n).set 0 { extentOpen n with busy := false }) :=
      congrArg some (FS.set_set (mounted n) 0 _ _)
    refine ⟨mounted n, [.iget 2, .ilock 0, .iunlock 0], mounted_linked hn, twoFiles_freeZero n,
      fun _ ↦ rfl, ⟨trivial, fun _ _ ↦ ⟨trivial, fun _ _ ↦ ⟨trivial, fun _ _ ↦ trivial⟩⟩⟩, ?_⟩
    change run FS.act (mounted n) (openExtent ++ [.iunlock 0]) = _
    rw [run_append, run_openExtent]
    exact run_cons_of_step [] hunlock
  cached := ⟨Int.one_pos, rfl⟩
  type := rfl
  size := rfl
  addrs := rfl
  file := rfl
  answers := rfl

/-- An image without inodes. -/
def blank : FS where
  disk :=
    { size := 64
      ninodes := 16
      size_fits := by decide
      used := fun b ↦ b.toNat < 8
      dinode := fun _ ↦ .zero
      block := fun _ _ ↦ 0 }
  icache := emptyCache

theorem blank_linked : blank.Linked := by
  have hnone (inum : Word) (node : Dinode) : ¬ blank.Version inum node := by
    rintro ⟨hallocated, hdisk | ⟨slot, ⟨href, -⟩, -⟩⟩
    · exact hallocated (congrArg Dinode.type hdisk)
    · exact absurd href (lt_irrefl 0)
  exact ⟨fun inum node h ↦ absurd h (hnone inum node), fun inum node h ↦ absurd h (hnone inum node),
    fun inum _ node _ _ h ↦ absurd h (hnone inum node),
    fun inum node h ↦ absurd h (hnone inum node)⟩

/-- A file is created and opened. -/
def createFile (type : FileType) : List Act := [.ialloc type, .ilock 0, .iunlock 0]

def newFile (type : FileType) : Session :=
  ⟨(run FS.act blank (createFile type)).getD blank, openFile, []⟩

theorem newFile_starts {type : FileType} (htype : type = .extent ∨ type = .file) :
    (newFile type).Starts type := by
  have hguard : Guarded FS.act FS.NoStrays blank (createFile type) :=
    ⟨trivial, fun _ _ ↦ ⟨trivial, fun _ _ ↦ ⟨trivial, fun _ _ ↦ trivial⟩⟩⟩
  rcases htype with rfl | rfl
  · exact ⟨⟨blank, _, blank_linked, fun _ _ _ _ _ ↦ rfl, fun _ ↦ rfl, hguard, rfl⟩,
      ⟨Int.one_pos, rfl⟩, rfl, rfl, rfl, rfl, rfl⟩
  · exact ⟨⟨blank, _, blank_linked, fun _ _ _ _ _ ↦ rfl, fun _ ↦ rfl, hguard, rfl⟩,
      ⟨Int.one_pos, rfl⟩, rfl, rfl, rfl, rfl, rfl⟩

/-- Three bytes are written and read again. -/
def writeThenRead : List Event :=
  [.call (.write (fun i ↦ BitVec.ofNat 8 (i + 7)) 3), .call (.lseek 0), .call (.read 3)]

/-- The runs of calls on a new extent file and on a new file with pointers give the answers that a
plain array of bytes gives. -/
theorem extent_and_pointer_agree {extent extent' pointer pointer' : Session}
    {events events' : List Event} (hextent : extent.Starts .extent)
    (hpointer : pointer.Starts .file) (hcalls : calls events' = calls events)
    (hrange : Guarded Session.step Session.InRange extent events)
    (hrange' : Guarded Session.step Session.InRange pointer events')
    (hkeeps : Guarded Session.step Session.Keeps extent events)
    (hkeeps' : Guarded Session.step Session.Keeps pointer events')
    (hrun : run Session.step extent events = some extent')
    (hrun' : run Session.step pointer events' = some pointer') :
    extent'.answers = ByteFile.empty.answers (calls events) ∧
      pointer'.answers = ByteFile.empty.answers (calls events) := by
  have hfirst := (hextent.shows (by decide)).answers_of_run hrange hkeeps hrun
  have hsecond := (hpointer.shows (by decide)).answers_of_run hrange' hkeeps' hrun'
  rw [hextent.answers] at hfirst
  rw [hpointer.answers, hcalls] at hsecond
  exact ⟨hfirst, hsecond⟩

/-- The three bytes come back from a file of either type. -/
theorem three_bytes_agree : ∃ extent' pointer',
    run Session.step (newFile .extent) writeThenRead = some extent' ∧
    run Session.step (newFile .file) writeThenRead = some pointer' ∧
    extent'.answers = [⟨3, []⟩, ⟨0, []⟩, ⟨3, [7, 8, 9]⟩] ∧
    pointer'.answers = [⟨3, []⟩, ⟨0, []⟩, ⟨3, [7, 8, 9]⟩] := by
  obtain ⟨extent', hrun⟩ : ∃ extent', run Session.step (newFile .extent) writeThenRead =
      some extent' := Option.isSome_iff_exists.mp (by decide +kernel)
  obtain ⟨pointer', hrun'⟩ : ∃ pointer', run Session.step (newFile .file) writeThenRead =
      some pointer' := Option.isSome_iff_exists.mp (by decide +kernel)
  have hanswers : ByteFile.empty.answers (calls writeThenRead) =
      [⟨3, []⟩, ⟨0, []⟩, ⟨3, [7, 8, 9]⟩] := by decide
  obtain ⟨hextent, hpointer⟩ := extent_and_pointer_agree (newFile_starts (.inl rfl))
    (newFile_starts (.inr rfl)) rfl (by decide +kernel) (by decide +kernel)
    (by decide +kernel) (by decide +kernel) hrun hrun'
  rw [hanswers] at hextent hpointer
  exact ⟨extent', pointer', hrun, hrun', hextent, hpointer⟩

/-! ## A block number of more than 24 bits -/

/-- The extent file after the loop of `writei` has written one byte to it. -/
def extentStored (n : ℕ) (src : Store) : FS :=
  let addr := BitVec.ofNat 32 n
  { extentRead n with disk :=
      (extentRead n).disk.setBlock addr (splice ((extentRead n).disk.block addr) 0 1 src) }

def extentWritten (n : ℕ) (src : Store) : FS :=
  let fs := (extentStored n src).set 0 { (extentStored n src).icache 0 with size := 1 }
  { fs with disk := iupdate fs.disk (fs.icache 0) }

def extentUnlocked (n : ℕ) (src : Store) : Session :=
  ⟨(extentWritten n src).set 0 { (extentWritten n src).icache 0 with busy := false },
    { openFile with off := 1 }, [⟨1, []⟩]⟩

theorem write_newExtent {n : ℕ} (hpos : 0 < n) (hn : n < 2 ^ 24 + 8192) (src : Store) :
    (newExtent n).step (.call (.write src 1)) = some (extentUnlocked n src) := by
  have hlock : ilock 0 (newExtent n).fs = some ((), (mounted n).set 0 (extentOpen n)) :=
    congrArg (fun fs ↦ some ((), fs)) (FS.set_set (mounted n) 0 _ _)
  have hstore : storeRound 0 0 1 (fun i ↦ src (0 + i)) ((mounted n).set 0 (extentOpen n)) =
      some ((), extentStored n fun i ↦ src (0 + i)) :=
    (Code.bind_run (mapSlot_openExtent hpos hn)).trans rfl
  simp only [Nat.zero_add] at hstore
  have hwrite : writei 0 src 0 1 ((mounted n).set 0 (extentOpen n)) =
      some (1, extentWritten n src) := by
    have hrounds : writeRounds 0 src [⟨0, 0, 1⟩] ((mounted n).set 0 (extentOpen n)) =
        some ((), extentStored n src) := by
      simp only [writeRounds, Nat.zero_add]
      exact (Code.bind_run hstore).trans rfl
    exact (Code.bind_run hrounds).trans rfl
  have hcall : filewrite openFile src 1 (newExtent n).fs =
      some ((1, { openFile with off := 1 }), (extentUnlocked n src).fs) :=
    (Code.bind_run hlock).trans ((Code.bind_run hwrite).trans rfl)
  exact congrArg (Option.map _) hcall

/-- The byte goes to block `2 ^ 24 + 5000`, and is looked for in block 5000. -/
theorem extent_reads_other_block : ∃ extent extent' pointer pointer' events,
    extent.Starts .extent ∧ pointer.Starts .file ∧
    Guarded Session.step Session.InRange extent events ∧
    Guarded Session.step Session.InRange pointer events ∧
    run Session.step extent events = some extent' ∧
    run Session.step pointer events = some pointer' ∧
    extent'.answers = [⟨1, []⟩, ⟨0, []⟩, ⟨1, [0]⟩] ∧
    pointer'.answers = [⟨1, []⟩, ⟨0, []⟩, ⟨1, [7]⟩] := by
  let src : Store := fun _ ↦ 7
  let rest : List Event := [.call (.lseek 0), .call (.read 1)]
  have hfirst := write_newExtent (n := 2 ^ 24 + 5000) (by decide) (by decide) src
  have hrest : (run Session.step (extentUnlocked (2 ^ 24 + 5000) fun _ ↦ 7)
      [.call (.lseek 0), .call (.read 1)]).map (·.answers) =
        some [⟨1, []⟩, ⟨0, []⟩, ⟨1, [0]⟩] := by decide +kernel
  have hpointer : (run Session.step (newFile .file)
      [.call (.write (fun _ ↦ 7) 1), .call (.lseek 0), .call (.read 1)]).map (·.answers) =
        some [⟨1, []⟩, ⟨0, []⟩, ⟨1, [7]⟩] := by decide +kernel
  obtain ⟨extent', hrun, hanswers⟩ := Option.map_eq_some_iff.mp hrest
  obtain ⟨pointer', hrun', hanswers'⟩ := Option.map_eq_some_iff.mp hpointer
  refine ⟨newExtent (2 ^ 24 + 5000), extent', newFile .file, pointer',
    .call (.write src 1) :: rest, newExtent_starts (by decide), newFile_starts (.inr rfl), ?_,
    by decide +kernel, (run_cons_of_step rest hfirst).trans hrun, hrun', hanswers, hanswers'⟩
  rw [guarded_cons_iff rest hfirst]
  decide +kernel

end OS537.XV6
