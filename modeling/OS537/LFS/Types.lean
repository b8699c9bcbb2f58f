import OS537.LFS.Delivered
import OS537.LFS.Intact

/-!
# Calls on an inode of the wrong type

`fsi_lookup` looks at the type of the parent, and so `fsi_unlink` does; `fsi_write` looks at the
type of the file. `fsi_creat` has no check of its own (the earlier `fsi.c` has one), and takes the
-1 of its `fsi_lookup` for an absent name: it searches the blocks of a regular file for a free slot,
and enters the name into the first one that looks like a directory block with a free slot.
-/

namespace OS537.LFS

open Bytes Code Posix Run

variable {server next : Server} {i : Fin 4096} {record : Inode} {rc : ℤ}

/-- The call returns -1 and leaves the memory and the image as they were. -/
structure Refused (server : Server) (rc : ℤ) (next : Server) : Prop where
  value : rc = -1
  cr : next.cr = server.cr
  inodes : next.inodes = server.inodes
  image : next.image = server.image

/-- The code is defined in this state, and refuses the call. -/
def Refuses (code : Fsi ℤ) (server : Server) : Prop :=
  ∃ rc next, code server = some (rc, next) ∧ Refused server rc next

theorem refuses_of_run {code : Fsi ℤ} {offset : ℕ}
    (h : code server = some (-1, server.seek offset)) :
    Refuses code server :=
  ⟨_, _, h, rfl, rfl, rfl, rfl⟩

theorem refuses_iff {code : Fsi ℤ} (h : code server = some (rc, next)) :
    Refuses code server ↔ Refused server rc next := by
  refine ⟨?_, fun hrefused ↦ ⟨rc, next, h, hrefused⟩⟩
  rintro ⟨rc', next', hrun, hrefused⟩
  cases h.symm.trans hrun
  exact hrefused

theorem Refused.unchanged (h : Refused server rc next) : Unchanged next server :=
  Unchanged.of_image h.cr h.inodes h.image

/-! ## The calls that check -/

theorem fsiWrite_refuses (hnode : InodeIs server i record) (htype : record.type ≠ lfsRegularFile)
    (buffer : Store) (block : ℤ) (node : Store) :
    Refuses (fsiWrite ((i : ℕ) : ℤ) buffer block node) server := by
  have hrun : fsiWrite ((i : ℕ) : ℤ) buffer block node server =
      some (-1, server.seek ((server.inodes i).toNat + inodeSize)) := by
    unfold fsiWrite
    rw [bind_run (getInode_run node hnode)]
    dsimp only
    rw [if_neg (by decide), if_pos htype]
    rfl
  exact refuses_of_run hrun

theorem fsiLookup_refuses (hnode : InodeIs server i record) (htype : record.type ≠ lfsDirectory)
    (name : CString) (frame : LookupFrame) :
    Refuses (fsiLookup ((i : ℕ) : ℤ) name frame) server :=
  refuses_of_run (fsiLookup_not_directory name frame hnode htype)

theorem fsiUnlink_refuses (hnode : InodeIs server i record) (htype : record.type ≠ lfsDirectory)
    (name : CString) (frame : UnlinkFrame) :
    Refuses (fsiUnlink ((i : ℕ) : ℤ) name frame) server :=
  refuses_of_run (fsiUnlink_absent hnode
    (fsiLookup_not_directory name frame.lookup hnode htype) (by decide))

/-! ## The call that does not -/

/-- What the search of `fsi_creat` in a regular file starts with: the offset behind the record of
the file, and its own stack. -/
def fileReader (server : Server) (i : Fin 4096) (frame : CreatFrame) : Reader :=
  ⟨(server.inodes i).toNat + inodeSize, frame.dirBlock⟩

/-- The name is too long, no inode is free, no block looks like one with a free slot, or the first
write fails. -/
def RegularRefuses (server : Server) (i : Fin 4096) (name : CString) (frame : CreatFrame) : Prop :=
  27 < name.chars.length ∨ (∀ k, server.inodes k ≠ -1) ∨
    (∀ k < ndirect, freeSlot (delivered server.image (server.inodeRecord i)
      (fileReader server i frame) k) = none) ∨
    server.fails 0 = true

theorem creatProbe_regular (hnode : InodeIs server i record) (htype : record.type ≠ lfsDirectory)
    {name : CString} (hname : name.Fits) (frame : CreatFrame) :
    creatProbe ((i : ℕ) : ℤ) name frame server =
      some (some (record, -1), server.at (fileReader server i frame)) := by
  refine creatProbe_run hnode hname ?_
  exact fsiLookup_not_directory name frame.lookup (hnode.seek _) htype

theorem fsiCreat_long (hnode : InodeIs server i record) {name : CString}
    (hname : 27 < name.chars.length) (type : Word) (frame : CreatFrame) :
    Refuses (fsiCreat ((i : ℕ) : ℤ) type name frame) server := by
  have hprobe : creatProbe ((i : ℕ) : ℤ) name frame server =
      some (none, server.seek ((server.inodes i).toNat + inodeSize)) := by
    unfold creatProbe
    rw [bind_run (getInode_run frame.pnode hnode)]
    dsimp only
    rw [if_neg (by decide), if_pos hname]
    rfl
  have hrun : fsiCreat ((i : ℕ) : ℤ) type name frame server =
      some (-1, server.seek ((server.inodes i).toNat + inodeSize)) := by
    unfold fsiCreat
    rw [bind_run hprobe]
    rfl
  exact refuses_of_run hrun

theorem fsiCreat_no_place (hnode : InodeIs server i record) (htype : record.type ≠ lfsDirectory)
    {name : CString} (hname : name.Fits) (type : Word) {frame : CreatFrame}
    (hplace : creatPlace record name frame.dirBlock (server.at (fileReader server i frame)) =
      some (none, next)) :
    Refuses (fsiCreat ((i : ℕ) : ℤ) type name frame) server := by
  have hnext : next = server.seek next.offset :=
    readOnly_creatPlace _ _ _ (server.at (fileReader server i frame)) _ _ hplace
  have hrun : fsiCreat ((i : ℕ) : ℤ) type name frame server = some (-1, next) :=
    fsiCreat_eq_refused type (creatProbe_regular hnode htype hname frame) (by decide) hplace
  rw [hnext] at hrun
  exact refuses_of_run hrun

/-- With a place found, the first write decides. -/
theorem fsiCreat_place (hnode : InodeIs server i record) (htype : record.type ≠ lfsDirectory)
    {name : CString} (hname : name.Fits) {type : Word}
    (hroom : server.cr.endPos.toNat + creatGrowth type < 2 ^ 31) {frame : CreatFrame}
    {plan : CreatPlan} {reader : Reader} (hplace : creatPlace record name frame.dirBlock
      (server.at (fileReader server i frame)) = some (some plan, server.at reader)) :
    (server.fails 0 = true → Refuses (fsiCreat ((i : ℕ) : ℤ) type name frame) server) ∧
      (InBounds server → Refuses (fsiCreat ((i : ℕ) : ℤ) type name frame) server →
        server.fails 0 = true) := by
  obtain ⟨rc, next, hcommit⟩ := total_creatCommit i type frame.childDirBlock plan (server.at reader)
  have hrun : fsiCreat ((i : ℕ) : ℤ) type name frame server = some (rc, next) :=
    (fsiCreat_eq_commit type (creatProbe_regular hnode htype hname frame) (by decide)
      hplace).trans hcommit
  have hroom' : (server.at reader).cr.endPos.toNat + creatGrowth type < 2 ^ 31 := hroom
  rw [refuses_iff hrun]
  constructor
  · intro hfails
    have hgave : creatCommit ((i : ℕ) : ℤ) type frame.childDirBlock plan (server.at reader) =
        some (-1, (server.seek server.cr.endPos.toNat).tried lfsBlockSize plan.dirBlock) := by
      unfold creatCommit
      rw [bind_run get_run, bind_run (lseek_run _)]
      exact checked_fails hfails
    cases hgave.symm.trans hcommit
    exact ⟨rfl, tried_cr, tried_inodes, tried_image_of_fails hfails⟩
  · intro hbounds hrefused
    by_contra hok
    have hmoved : Moved next server i :=
      Or.inl (creatCommit_moves_parent hroom' (Bool.eq_false_iff.mpr hok) hcommit)
    exact hbounds.not_unchanged (ne_neg_one_of_toNat_lt hnode.nonneg) hmoved hrefused.unchanged

theorem first_free_or_none (inodes : InodeMap) :
    (∃ number : Fin 4096, Scan.first (inodeFree inodes) 4096 = some (number : ℕ)) ∨
      Scan.first (inodeFree inodes) 4096 = none := by
  cases hfirst : Scan.first (inodeFree inodes) 4096 with
  | none => exact Or.inr rfl
  | some number => exact Or.inl ⟨⟨number, (Scan.first_eq_some_iff.mp hfirst).1⟩, rfl⟩

theorem first_free_eq_none_iff (inodes : InodeMap) :
    Scan.first (inodeFree inodes) 4096 = none ↔ ∀ k, inodes k ≠ -1 := by
  rw [Scan.first_eq_none_iff]
  constructor
  · intro h k hk
    have hnone := h k k.isLt
    simp [inodeFree, hk] at hnone
  · intro h k hk
    rw [inodeFree, dif_pos hk, decide_eq_false (h ⟨k, hk⟩)]

/-- On a regular file, `fsi_creat` refuses the call if `RegularRefuses` holds; and only then, if the
positions of the inode map lie in the log. -/
theorem fsiCreat_refuses (hnode : InodeIs server i record) (htype : record.type ≠ lfsDirectory)
    (name : CString) {type : Word} (hroom : server.cr.endPos.toNat + creatGrowth type < 2 ^ 31)
    (frame : CreatFrame) :
    (RegularRefuses server i name frame →
        Refuses (fsiCreat ((i : ℕ) : ℤ) type name frame) server) ∧
      (InBounds server → Refuses (fsiCreat ((i : ℕ) : ℤ) type name frame) server →
        RegularRefuses server i name frame) := by
  unfold RegularRefuses
  rw [hnode.record]
  by_cases hlong : 27 < name.chars.length
  · exact ⟨fun _ ↦ fsiCreat_long hnode hlong type frame, fun _ _ ↦ Or.inl hlong⟩
  have hname : name.Fits := not_lt.mp hlong
  rcases first_free_or_none server.inodes with ⟨number, hnumber⟩ | hnone
  · have hsome : ¬ ∀ k, server.inodes k ≠ -1 := by
      rw [← first_free_eq_none_iff, hnumber]
      exact Option.some_ne_none _
    rcases Reader.full_or_first (fileReader server i frame) server.image record with
      hfull | ⟨k, slot, hslot, hbefore⟩
    · obtain ⟨next, hplace⟩ := creatPlace_full (fileReader server i frame) name server hfull
      exact ⟨fun _ ↦ fsiCreat_no_place hnode htype hname type hplace,
        fun _ _ ↦ Or.inr (Or.inr (Or.inl hfull))⟩
    · have hdecides := fsiCreat_place hnode htype hname hroom
        (creatPlace_first (fileReader server i frame) server hnumber hbefore hslot)
      have hnotFull : ¬ ∀ m < ndirect, freeSlot (delivered server.image record
          (fileReader server i frame) m) = none := by
        intro hfull
        rw [hfull k k.isLt] at hslot
        cases hslot
      refine ⟨?_, fun hbounds hrefuses ↦ Or.inr (Or.inr (Or.inr (hdecides.2 hbounds hrefuses)))⟩
      rintro (hname' | hall | hfull | hfails)
      · exact absurd hname' hlong
      · exact absurd hall hsome
      · exact absurd hfull hnotFull
      · exact hdecides.1 hfails
  · have hplace : creatPlace record name frame.dirBlock (server.at (fileReader server i frame)) =
        some (none, server.at (fileReader server i frame)) := by
      have hfirst : Scan.first (inodeFree (server.at (fileReader server i frame)).inodes) 4096 =
          none := hnone
      unfold creatPlace
      rw [bind_run get_run, hfirst]
      rfl
    exact ⟨fun _ ↦ fsiCreat_no_place hnode htype hname type hplace,
      fun _ _ ↦ Or.inr (Or.inl ((first_free_eq_none_iff _).mp hnone))⟩

/-! ## Every call on an inode of the wrong type -/

/-- With a regular file as parent, `fsi_lookup` and `fsi_unlink` refuse every name, and `fsi_creat`
does if `RegularRefuses` holds and, where the positions of the inode map lie in the log, only then.
`fsi_write` refuses every directory. -/
theorem wrong_type_refused_iff (hnode : InodeIs server i record) :
    (record.type = lfsRegularFile → ∀ name : CString,
        (∀ frame, Refuses (fsiLookup ((i : ℕ) : ℤ) name frame) server) ∧
        (∀ frame, Refuses (fsiUnlink ((i : ℕ) : ℤ) name frame) server) ∧
        ∀ type frame, server.cr.endPos.toNat + creatGrowth type < 2 ^ 31 →
          (RegularRefuses server i name frame →
            Refuses (fsiCreat ((i : ℕ) : ℤ) type name frame) server) ∧
          (InBounds server → Refuses (fsiCreat ((i : ℕ) : ℤ) type name frame) server →
            RegularRefuses server i name frame)) ∧
      (record.type = lfsDirectory → ∀ buffer block node,
        Refuses (fsiWrite ((i : ℕ) : ℤ) buffer block node) server) := by
  refine ⟨fun hregular name ↦ ?_, fun hdirectory buffer block node ↦ ?_⟩
  · have htype : record.type ≠ lfsDirectory := by
      rw [hregular]
      decide
    exact ⟨fsiLookup_refuses hnode htype name, fsiUnlink_refuses hnode htype name,
      fun type frame hroom ↦ fsiCreat_refuses hnode htype name hroom frame⟩
  · refine fsiWrite_refuses hnode ?_ buffer block node
    rw [hdirectory]
    decide

theorem oneFile_inBounds : InBounds (oneFile 1092 1156) := by
  refine ⟨by decide, fun k hk ↦ ?_⟩
  have hzero : k = 0 := by
    by_contra hne
    exact hk (if_neg hne)
  subst hzero
  decide

/-- An empty file: the search reads the 64 bytes behind its record, and then what the stack has. -/
theorem oneFile_wrong_type :
    InodeIs (oneFile 1092 1156) 0 (newInode lfsRegularFile) ∧
      Refuses (fsiUnlink (((0 : Fin 4096) : ℕ) : ℤ) dot junkFrame.unlink) (oneFile 1092 1156) ∧
      (Refuses (fsiCreat (((0 : Fin 4096) : ℕ) : ℤ) lfsRegularFile dot junkFrame)
        (oneFile 1092 1156) ↔ RegularRefuses (oneFile 1092 1156) 0 dot junkFrame) := by
  have hnode : InodeIs (oneFile 1092 1156) 0 (newInode lfsRegularFile) :=
    .of_inodeAt (by decide) (oneFile_node le_rfl)
  obtain ⟨-, hunlink, hcreat⟩ := (wrong_type_refused_iff hnode).1 rfl dot
  obtain ⟨hrefuses, honly⟩ := hcreat lfsRegularFile junkFrame (by decide)
  exact ⟨hnode, hunlink _, honly oneFile_inBounds, hrefuses⟩

/-- A client has written a block of bytes 255 to a new file. A name is entered into that block. -/
theorem name_in_regular_file :
    ∃ start server, fsiBuild fileNames freshServer = some ((), start) ∧
      run Request.step start [createFile, writeFile] = some server ∧
      (server.inodeRecord 1).type = lfsRegularFile ∧
      ¬ Refuses (fsiCreat 1 lfsRegularFile dot junkFrame) server := by
  have hvalues : ((run Request.step (freshServer.start fileNames) [createFile, writeFile]).bind
      fun server ↦ (fsiCreat 1 lfsRegularFile dot junkFrame server).map fun result ↦
        ((server.inodeRecord 1).type, result.1)) = some (lfsRegularFile, 0) := by
    decide +kernel
  obtain ⟨server, hserver, hvalues⟩ := Option.bind_eq_some_iff.mp hvalues
  obtain ⟨⟨rc, next⟩, hnext, hvalues⟩ := Option.map_eq_some_iff.mp hvalues
  simp only [Prod.mk.injEq] at hvalues
  refine ⟨_, server, fsiBuild_run freshServer_full fileNames, hserver, hvalues.1, ?_⟩
  rw [refuses_iff hnext]
  intro hrefused
  have hrc := hrefused.value
  omega

end OS537.LFS
