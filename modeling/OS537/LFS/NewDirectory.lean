import OS537.LFS.Types

/-!
# The first block of a new directory

`fsi_creat` builds the block of a new directory in a buffer of which it sets two slots only, and
attaches it at the index of the parent's block that got the new entry. `fsi_build` frees the other
126 slots of the root's block, and attaches it at index 0.
-/

namespace OS537.LFS

open Bytes Code Posix Run

variable {server looked next : Server} {parent child : Fin 4096} {record : Inode} {name : CString}
  {frame : CreatFrame}

/-- The first block of the directory is allocated and holds "." and "..", and every other slot of it
is free; so a creation in the directory finds a free slot there. -/
structure OnlyDots (server : Server) (dir parent : Fin 4096) : Prop where
  allocated : (server.inodeRecord dir).direct 0 ≠ -1
  fits : ((server.inodeRecord dir).direct 0).toNat + lfsBlockSize ≤ server.image.size
  entries : ∃ self < dirEntries, ∃ up < dirEntries, self ≠ up ∧
    entryNamed (server.dirBlock dir 0) dot self = true ∧
    entryInum (server.dirBlock dir 0) self = BitVec.ofNat 32 dir ∧
    entryNamed (server.dirBlock dir 0) dotDot up = true ∧
    entryInum (server.dirBlock dir 0) up = BitVec.ofNat 32 parent ∧
    ∀ slot < dirEntries, slot ≠ self → slot ≠ up → entryInum (server.dirBlock dir 0) slot = -1
  free : ∀ reader, (freeSlot (delivered server.image (server.inodeRecord dir) reader 0)).isSome

/-! ## The records of a creation that returns 0 -/

/-- The server after the block of a new directory and its inode. -/
def Server.createdDirectory (server : Server) (parent : Fin 4096) (childDirBlock : Store)
    (plan : CreatPlan) : Server :=
  let pos := server.cr.endPos + 4096 + 64
  (((server.appendedEntry parent plan).wrote lfsBlockSize (childBlock childDirBlock
    (BitVec.ofNat 32 plan.inum) (BitVec.ofInt 32 ((parent : ℕ) : ℤ)))).appendedChild plan.inum
      (newDirectory plan.foundBlock pos) (pos + 4096)).committed plan.inum (pos + 4096 + 64)

theorem creatChild_zero {inum : Fin 4096} {child : Inode} {pos : Word} (hwhole : WholeWrites server)
    (hrun : creatChild inum child pos server = some (0, next)) :
    next = (server.appendedChild inum child pos).committed inum (pos + 64) := by
  have hlisted : WholeWrites (server.putInode inum pos) := hwhole
  unfold creatChild at hrun
  rw [bind_run (update_run _)] at hrun
  have hwritten := checked_write hrun rfl hlisted
  exact commitChunk_zero (hlisted.wrote inodeSize child.toBytes) hwritten

theorem creatCommit_directory_zero (hwhole : WholeWrites server) {childDirBlock : Store}
    {plan : CreatPlan} (hchunk : chunkOf parent = chunkOf plan.inum)
    (hrun : creatCommit ((parent : ℕ) : ℤ) lfsDirectory childDirBlock plan server =
      some (0, next)) :
    next = server.createdDirectory parent childDirBlock plan := by
  let sought := server.seek server.cr.endPos.toNat
  have hsought : WholeWrites sought := hwhole
  have hlisted : WholeWrites ((sought.wrote lfsBlockSize plan.dirBlock).putInode parent
      (server.cr.endPos + 4096)) := hsought.wrote lfsBlockSize plan.dirBlock
  have hentry : WholeWrites (server.appendedEntry parent plan) := hlisted.wrote _ _
  have hblocked := hentry.wrote lfsBlockSize (childBlock childDirBlock (BitVec.ofNat 32 plan.inum)
    (BitVec.ofInt 32 ((parent : ℕ) : ℤ)))
  have hparent : writeParentChunk parent plan.inum (server.cr.endPos + 4096 + 64)
      (server.appendedEntry parent plan) =
        some (server.cr.endPos + 4096 + 64, server.appendedEntry parent plan) := by
    unfold writeParentChunk
    rw [if_neg (not_not.mpr hchunk)]
    rfl
  unfold creatCommit at hrun
  rw [bind_run get_run, bind_run (lseek_run _)] at hrun
  have hblock := checked_write hrun rfl hsought
  rw [bind_run (index_natCast_run parent), bind_run (update_run _)] at hblock
  have hnode := checked_write hblock rfl hlisted
  change (writeParentChunk parent plan.inum (server.cr.endPos + 4096 + 64) >>= _)
    (server.appendedEntry parent plan) = _ at hnode
  rw [bind_run hparent, if_pos rfl] at hnode
  have hchild := checked_write hnode rfl hentry
  exact creatChild_zero hblocked hchild

section Records

variable (hlow : crSize ≤ server.cr.endPos.toNat) (hroom : server.cr.endPos.toNat + 8448 < 2 ^ 31)
  (childDirBlock : Store) (plan : CreatPlan)

include hlow hroom

theorem createdDirectory_record :
    (server.createdDirectory parent childDirBlock plan).inodeRecord plan.inum =
      newDirectory plan.foundBlock (server.cr.endPos + 4096 + 64) := by
  have hpos : (server.cr.endPos + 4096 + 64 + 4096).toNat = server.cr.endPos.toNat + 8256 := by
    bv_omega
  refine appendedChild_record ?_ (by omega) _ _
  rw [hpos]
  change server.cr.endPos.toNat + 4096 + 64 + 4096 = server.cr.endPos.toNat + 8256
  omega

theorem createdDirectory_block :
    BlockAt (server.createdDirectory parent childDirBlock plan).image
      (server.cr.endPos + 4096 + 64).toNat (childBlock childDirBlock (BitVec.ofNat 32 plan.inum)
        (BitVec.ofInt 32 ((parent : ℕ) : ℤ))) := by
  have hpos : (server.cr.endPos + 4096 + 64).toNat = server.cr.endPos.toNat + 4160 := by bv_omega
  rw [hpos]
  apply holds_committed _ (by omega)
  · change server.cr.endPos.toNat + 4160 + 4096 ≤ server.cr.endPos.toNat + 4096 + 64 + 4096 + 64
    omega
  · exact holds_wrote_of_holds (holds_wrote lfsBlockSize _) le_rfl inodeSize _

end Records

/-! ## The block -/

/-- The slots that `fsi_creat` does not set. -/
def SparesFree (childDirBlock : Store) : Prop :=
  ∀ slot, 2 ≤ slot → slot < dirEntries → entryInum childDirBlock slot = -1

theorem dirBlock_of_blockAt {dir : Fin 4096} {content : Store} {pos : Word}
    (hdirect : (server.inodeRecord dir).direct 0 = pos)
    (h : BlockAt server.image pos.toNat content) :
    AgreeOn (server.dirBlock dir 0) content 0 lfsBlockSize := by
  intro i _ hi
  unfold Server.dirBlock
  rw [hdirect]
  exact h.bytes i hi

/-- A block with "." and ".." as `fsi_creat` writes it: the rest of it decides. -/
theorem onlyDots_iff {dir : Fin 4096} {childDirBlock : Store} {pos : Word}
    (hdirect : (server.inodeRecord dir).direct 0 = pos) (hpos : pos.toNat < 2 ^ 31)
    (h : BlockAt server.image pos.toNat
      (childBlock childDirBlock (BitVec.ofNat 32 dir) (BitVec.ofInt 32 ((parent : ℕ) : ℤ)))) :
    OnlyDots server dir parent ↔ SparesFree childDirBlock := by
  have hblock := dirBlock_of_blockAt hdirect h
  have hinum {slot : ℕ} (hslot : slot < dirEntries) :
      entryInum (server.dirBlock dir 0) slot = entryInum (childBlock childDirBlock
        (BitVec.ofNat 32 dir) (BitVec.ofInt 32 ((parent : ℕ) : ℤ))) slot :=
    entryInum_congr (AgreeOn.slot hblock hslot)
  have hself : entryInum (server.dirBlock dir 0) 0 = BitVec.ofNat 32 dir := by
    rw [hinum (by decide), entryInum_childBlock_self]
  have hup : entryInum (server.dirBlock dir 0) 1 = BitVec.ofNat 32 parent := by
    rw [hinum (by decide), entryInum_childBlock_parent, BitVec.ofInt_natCast]
  have hspare {slot : ℕ} (hlow : 2 ≤ slot) (hslot : slot < dirEntries) :
      entryInum (server.dirBlock dir 0) slot = entryInum childDirBlock slot := by
    rw [hinum hslot, entryInum_childBlock_other _ _ _ hlow]
  constructor
  · intro hdots slot hlow hslot
    obtain ⟨self, -, up, -, -, -, -, -, -, hfree⟩ := hdots.entries
    have hzero : 0 = self ∨ 0 = up := by
      by_contra hne
      obtain ⟨hself', hup'⟩ := not_or.mp hne
      exact ofNat_fin_ne_neg_one dir (hself.symm.trans (hfree 0 (by decide) hself' hup'))
    have hone : 1 = self ∨ 1 = up := by
      by_contra hne
      obtain ⟨hself', hup'⟩ := not_or.mp hne
      exact ofNat_fin_ne_neg_one parent (hup.symm.trans (hfree 1 (by decide) hself' hup'))
    rw [← hspare hlow hslot]
    exact hfree slot hslot (by omega) (by omega)
  · intro hfree
    have hnamed {named : CString} (hnamed : named.Fits) {slot : ℕ} (hslot : slot < dirEntries) :
        entryNamed (server.dirBlock dir 0) named slot = entryNamed (childBlock childDirBlock
          (BitVec.ofNat 32 dir) (BitVec.ofInt 32 ((parent : ℕ) : ℤ))) named slot :=
      entryNamed_congr hnamed ((AgreeOn.slot hblock hslot).mono le_rfl (by omega))
    refine ⟨by rw [hdirect]; exact ne_neg_one_of_toNat_lt hpos, by rw [hdirect]; exact h.fits,
      ⟨0, by decide, 1, by decide, Nat.zero_ne_one, ?_, hself, ?_, hup,
        fun slot hslot hne hne' ↦ ?_⟩,
      fun reader ↦ ?_⟩
    · rw [hnamed dot_fits (by decide), entryNamed_childBlock_self _ _ _ dot_fits]
    · rw [hnamed dotDot_fits (by decide), entryNamed_childBlock_parent _ _ _ dotDot_fits]
    · rw [hspare (by omega) hslot]
      exact hfree slot (by omega) hslot
    · subst hdirect
      have hdelivered := freeSlot_congr (delivered_allocated (k := 0) reader hpos h)
      rw [Fin.val_zero] at hdelivered
      rw [hdelivered, freeSlot_isSome_iff]
      refine ⟨2, by decide, ?_⟩
      rw [entryInum_childBlock_other _ _ _ le_rfl]
      exact hfree 2 le_rfl (by decide)

/-! ## The call -/

/-- The block of the parent that `fsi_creat` looks at first has a free slot, and so have all slots
of its buffer for the child that it does not set. -/
def FirstBlockFree (server : Server) (record : Inode) (offset : ℕ) (frame : CreatFrame) : Prop :=
  (freeSlot (delivered server.image record ⟨offset, frame.dirBlock⟩ 0)).isSome ∧
    SparesFree frame.childDirBlock

/-- A new directory holds exactly "." and ".." in its first block if and only if the first block of
its parent, as `get_block` delivers it behind the lookup of the name, has a free slot, and the stack
is -1 where the other slots' numbers are. -/
theorem new_directory_iff (hlow : crSize ≤ server.cr.endPos.toNat)
    (hroom : server.cr.endPos.toNat + 8448 < 2 ^ 31) (hwhole : WholeWrites server)
    (hnode : InodeIs server parent record) (hchunk : chunkOf parent = chunkOf child)
    (hchild : Scan.first (inodeFree server.inodes) 4096 = some (child : ℕ)) {found : ℤ}
    (hlookup : fsiLookup ((parent : ℕ) : ℤ) name frame.lookup server = some (found, looked))
    (habsent : found ≤ 0)
    (hrun : fsiCreat ((parent : ℕ) : ℤ) lfsDirectory name frame server = some (0, next)) :
    OnlyDots next child parent ↔ FirstBlockFree server record looked.offset frame := by
  let reader : Reader := ⟨looked.offset, frame.dirBlock⟩
  have hname : name.Fits := by
    by_contra hlong
    have hrefused := (refuses_iff hrun).mp (fsiCreat_long hnode (not_le.mp hlong) _ _)
    exact absurd hrefused.value (by decide)
  have hprobe : creatProbe ((parent : ℕ) : ℤ) name frame server =
      some (some (record, found), server.at reader) := creatProbe_lookup hnode hname hlookup
  have hpos : (server.cr.endPos + 4096 + 64).toNat = server.cr.endPos.toNat + 4160 := by bv_omega
  rcases reader.full_or_first server.image record with hfull | ⟨k, slot, hslot, hbefore⟩
  · obtain ⟨last, hplace⟩ := creatPlace_full reader name server hfull
    have hgave := fsiCreat_eq_refused lfsDirectory hprobe (not_lt.mpr habsent) hplace
    cases hgave.symm.trans hrun
  · let state := server.at (reader.before server.image record (k + 1))
    let plan : CreatPlan := ⟨record, child,
      setEntry (delivered server.image record reader k) slot name (BitVec.ofNat 32 child), k⟩
    have hplace : creatPlace record name frame.dirBlock (server.at reader) =
        some (some plan, state) := creatPlace_first reader server hchild hbefore hslot
    rw [fsiCreat_eq_commit lfsDirectory hprobe (not_lt.mpr habsent) hplace] at hrun
    have hwhole' : WholeWrites state := hwhole
    have hnext : next = state.createdDirectory parent frame.childDirBlock plan :=
      creatCommit_directory_zero hwhole' hchunk hrun
    have hrecord : next.inodeRecord child = newDirectory k (server.cr.endPos + 4096 + 64) := by
      rw [hnext]
      exact createdDirectory_record hlow hroom frame.childDirBlock plan
    by_cases hzero : k = 0
    · subst hzero
      have hdirect : (next.inodeRecord child).direct 0 = server.cr.endPos + 4096 + 64 := by
        rw [hrecord, newDirectory_direct, Function.update_self]
      have hblock : BlockAt next.image (server.cr.endPos + 4096 + 64).toNat
          (childBlock frame.childDirBlock (BitVec.ofNat 32 child)
            (BitVec.ofInt 32 ((parent : ℕ) : ℤ))) := by
        rw [hnext]
        exact createdDirectory_block hlow hroom frame.childDirBlock plan
      rw [onlyDots_iff hdirect (by omega) hblock]
      exact (and_iff_right (Option.isSome_iff_exists.mpr ⟨slot, hslot⟩)).symm
    · have hpositive : 0 < (k : ℕ) := Nat.pos_of_ne_zero fun hval ↦ hzero (Fin.ext hval)
      refine iff_of_false (fun hdots ↦ hdots.allocated ?_) fun hfirst ↦ ?_
      · rw [hrecord, newDirectory_direct, Function.update_of_ne (Ne.symm hzero)]
      · have hsome := hfirst.1
        rw [hbefore 0 hpositive] at hsome
        cases hsome

/-! ## The first directory of a new image -/

theorem start_inodes (server : Server) (dirBlock : Store) :
    (server.start dirBlock).inodes = fun i ↦ if i = 0 then 0 + 4096 + 1028 else -1 := rfl

/-- A stack of bytes 255 gives free slots. -/
theorem junk_sparesFree : SparesFree junk := by
  intro slot _ _
  simp [entryInum, load32, loadLE, junk]

theorem first_directory_dots :
    ∃ looked next,
      fsiLookup (((0 : Fin 4096) : ℕ) : ℤ) (fileName 2) junkFrame.lookup
        (freshServer.start fileNames) = some (-1, looked) ∧
      fsiCreat (((0 : Fin 4096) : ℕ) : ℤ) lfsDirectory (fileName 2) junkFrame
        (freshServer.start fileNames) = some (0, next) ∧
      OnlyDots next 1 0 := by
  have hvalues :
      ((fsiLookup (((0 : Fin 4096) : ℕ) : ℤ) (fileName 2) junkFrame.lookup
          (freshServer.start fileNames)).map Prod.fst,
        (fsiCreat (((0 : Fin 4096) : ℕ) : ℤ) lfsDirectory (fileName 2) junkFrame
          (freshServer.start fileNames)).map Prod.fst) = (some (-1), some 0) := by
    decide +kernel
  obtain ⟨hlookup, hcreat⟩ := Prod.mk.inj hvalues
  obtain ⟨⟨found, looked⟩, hlookup, rfl⟩ := Option.map_eq_some_iff.mp hlookup
  obtain ⟨⟨rc, next⟩, hcreat, rfl⟩ := Option.map_eq_some_iff.mp hcreat
  have hnode : InodeIs (freshServer.start fileNames) 0 rootInode :=
    .of_inodeAt (by decide) (built_rootInode fileNames _)
  have hblock : BlockAt (freshServer.start fileNames).image (rootInode.direct 0).toNat
      (rootBlock fileNames) := built_rootBlock fileNames _
  have hdelivered := freeSlot_congr
    (delivered_allocated (k := 0) ⟨looked.offset, junkFrame.dirBlock⟩ (by decide) hblock)
  have hfree : (freeSlot (rootBlock fileNames)).isSome :=
    (freeSlot_isSome_iff _).mpr
      ⟨2, by decide, entryInum_rootBlock_free fileNames le_rfl (by decide)⟩
  rw [← hdelivered, Fin.val_zero] at hfree
  have hfirst : Scan.first (inodeFree (freshServer.start fileNames).inodes) 4096 =
      some ((1 : Fin 4096) : ℕ) := by
    rw [start_inodes, ← start_inodes freshServer junk]
    exact start_first_free
  have hchunk : chunkOf (0 : Fin 4096) = chunkOf 1 := by decide
  have hiff : OnlyDots next 1 0 ↔ _ := new_directory_iff (by decide) (by decide)
    (AllFull.wholeWrites fun _ ↦ rfl) hnode hchunk hfirst hlookup (by decide) hcreat
  exact ⟨looked, next, hlookup, hcreat, hiff.mpr ⟨hfree, junk_sparesFree⟩⟩

/-- A stack of zero bytes: no slot of the first directory is free. -/
theorem first_directory_full :
    ∃ start looked next, fsiBuild fileNames freshServer = some ((), start) ∧
      fsiLookup 0 (fileName 2) junkFrame.lookup start = some (-1, looked) ∧
      fsiCreat 0 lfsDirectory (fileName 2) { junkFrame with childDirBlock := fun _ ↦ 0 } start =
        some (0, next) ∧
      ¬ OnlyDots next 1 0 := by
  have hvalues : ((fsiLookup 0 (fileName 2) junkFrame.lookup
      (freshServer.start fileNames)).map Prod.fst,
      (fsiCreat 0 lfsDirectory (fileName 2) { junkFrame with childDirBlock := fun _ ↦ 0 }
        (freshServer.start fileNames)).map fun created ↦
          (created.1, freeSlot (delivered created.2.image (created.2.inodeRecord 1) ⟨0, junk⟩ 0))) =
        (some (-1), some (0, none)) := by
    decide +kernel
  obtain ⟨hlookup, hcreat⟩ := Prod.mk.inj hvalues
  obtain ⟨⟨found, looked⟩, hlookup, rfl⟩ := Option.map_eq_some_iff.mp hlookup
  obtain ⟨⟨rc, next⟩, hcreat, hslots⟩ := Option.map_eq_some_iff.mp hcreat
  obtain ⟨rfl, hfull⟩ := Prod.mk.inj hslots
  have hbuild : fsiBuild fileNames freshServer = some ((), freshServer.start fileNames) :=
    fsiBuild_run freshServer_full fileNames
  refine ⟨_, looked, next, hbuild, hlookup, hcreat, fun hdots ↦ ?_⟩
  have hsome := hdots.free ⟨0, junk⟩
  rw [hfull] at hsome
  cases hsome

end OS537.LFS
