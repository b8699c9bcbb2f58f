import OS537.LFS.Log

/-!
# When the code stays inside its arrays

`get_inode` reads `inodes[inum]` before it checks anything, `get_block` and `fsi_write` check a
block number from above only, and `fsi_unlink` uses the number that it finds in a directory. For
each function the exact condition under which every index it uses is inside its array.
-/

namespace OS537.LFS

open Bytes Code Posix

variable {α β : Type} {server next : Server} {inum block : ℤ} {name : CString}

/-- The code is defined in this state. -/
def Defined (code : Fsi α) (server : Server) : Prop :=
  ∃ value next, code server = some (value, next)

theorem Total.defined {code : Fsi α} (h : Total code) (server : Server) : Defined code server :=
  h server

theorem defined_pure (value : α) : Defined (pure value : Fsi α) server := ⟨value, server, rfl⟩

theorem defined_bind {code : Fsi α} {rest : α → Fsi β} {value : α}
    (h : code server = some (value, next)) :
    Defined (code >>= rest) server ↔ Defined (rest value) next := by
  unfold Defined
  rw [bind_run h]

theorem not_defined_bind {code : Fsi α} {rest : α → Fsi β} (h : code server = none) :
    ¬ Defined (code >>= rest) server := by
  rintro ⟨value, next, hrun⟩
  rw [bind_run_none h] at hrun
  cases hrun

/-- Code whose continuation is always defined. -/
theorem defined_bind_total {code : Fsi α} {rest : α → Fsi β} (hrest : ∀ value, Total (rest value)) :
    Defined (code >>= rest) server ↔ Defined code server := by
  constructor
  · rintro ⟨value, next, hrun⟩
    obtain ⟨result, middle, hmiddle, -⟩ := bind_eq_some hrun
    exact ⟨result, middle, hmiddle⟩
  · rintro ⟨value, next, hrun⟩
    rw [defined_bind hrun]
    exact hrest value next

theorem index_none {n : ℕ} {i : ℤ} (h : ¬ (0 ≤ i ∧ i < n)) : index n i server = none := by
  unfold index
  rw [dif_neg h]

/-- The number of an inode. -/
def IsInum (inum : ℤ) : Prop := 0 ≤ inum ∧ inum < 4096

theorem IsInum.exists_fin (h : IsInum inum) : ∃ i : Fin 4096, inum = ((i : ℕ) : ℤ) :=
  ⟨⟨inum.toNat, by have := h.1; have := h.2; omega⟩, (Int.toNat_of_nonneg h.1).symm⟩

/-! ## Reading -/

theorem getInode_none (h : ¬ IsInum inum) (node : Store) : getInode inum node server = none := by
  unfold getInode
  exact bind_run_none (index_none h)

/-- `get_inode` of an allocated inode never fails, however short the read. -/
theorem getInode_allocated {i : Fin 4096} (h : server.inodes i ≠ -1) (node : Store) :
    ∃ rc found next, getInode ((i : ℕ) : ℤ) node server = some ((rc, found), next) ∧ 0 ≤ rc := by
  obtain ⟨⟨⟩, sought, hsought⟩ := total_lseek (server.inodes i).toInt server
  let count := sought.image.available sought.offset inodeSize
  have hread : read node inodeSize sought =
      some (((count : ℤ), sought.image.pread sought.offset inodeSize node),
        { sought with offset := sought.offset + count }) := rfl
  refine ⟨count, Inode.ofBytes (sought.image.pread sought.offset inodeSize node) 0,
    sought.seek (sought.offset + count), ?_, Int.natCast_nonneg count⟩
  unfold getInode
  rw [bind_run (index_natCast_run i), bind_run get_run, if_neg h, bind_run hsought, bind_run hread]
  rfl

theorem getBlock_defined_iff (inode : Inode) (buffer : Store) :
    Defined (getBlock inode buffer block) server ↔ 0 ≤ block := by
  constructor
  · intro h
    by_contra hnegative
    unfold getBlock at h
    rw [if_neg (by omega)] at h
    exact not_defined_bind (index_none fun hin ↦ hnegative hin.1) h
  · intro h
    obtain ⟨k, rfl⟩ := Int.eq_ofNat_of_zero_le h
    exact total_getBlock inode buffer k server

theorem fsiRead_defined_iff (i : Fin 4096) (buffer node : Store) :
    Defined (fsiRead ((i : ℕ) : ℤ) buffer block node) server ↔
      server.inodes i = -1 ∨ 0 ≤ block := by
  unfold fsiRead
  by_cases hi : server.inodes i = -1
  · rw [defined_bind (getInode_unallocated node hi)]
    exact iff_of_true (defined_pure _) (Or.inl hi)
  · obtain ⟨rc, found, next, hnode, hrc⟩ := getInode_allocated hi node
    rw [defined_bind hnode]
    dsimp only
    rw [if_neg (not_lt.mpr hrc), defined_bind_total, getBlock_defined_iff]
    · exact (or_iff_right hi).symm
    · exact fun _ ↦ Total.ite (Total.pure _) (Total.pure _)

/-! ## Writing -/

theorem total_update (change : Server → Server) : Total (update change) := fun _ ↦ ⟨_, _, rfl⟩

/-- A `write` returns -1 if and only if it fails. -/
theorem write_cases (n : ℕ) (buffer : Store) (server : Server) :
    ∃ rc next, write n buffer server = some (rc, next) ∧ (rc < 0 ↔ server.results 0 = .error) ∧
      (rc < 0 → next.cr = server.cr ∧ next.inodes = server.inodes ∧ next.image = server.image) := by
  unfold write
  dsimp only
  cases server.results 0 with
  | full =>
    refine ⟨_, _, rfl, ?_, fun h ↦ absurd h (by omega)⟩
    simp
  | short count =>
    refine ⟨_, _, rfl, ?_, fun h ↦ absurd h (by omega)⟩
    simp only [reduceCtorEq, iff_false, not_lt]
    omega
  | error => exact ⟨_, _, rfl, by simp, fun _ ↦ ⟨rfl, rfl, rfl⟩⟩

theorem total_write (n : ℕ) (buffer : Store) : Total (write n buffer) := by
  intro server
  obtain ⟨rc, next, hwrite, -⟩ := write_cases n buffer server
  exact ⟨rc, next, hwrite⟩

theorem total_writeChunk (i : Fin 4096) : Total (writeChunk i) :=
  total_get.bind fun _ ↦ total_write _ _

theorem total_commitChunk (i : Fin 4096) (pos : Word) : Total (commitChunk i pos) := by
  refine (total_update _).bind fun _ ↦ (total_writeChunk i).bind fun _ ↦ ?_
  refine Total.ite (Total.pure _) ((total_update _).bind fun _ ↦ ?_)
  have hcheckpoint : Total writeCheckpoint :=
    (total_lseek _).bind fun _ ↦ total_get.bind fun _ ↦ total_write _ _
  exact hcheckpoint.bind fun _ ↦ Total.ite (Total.pure _) (Total.pure _)

/-- `fsi_write` from its first write on: the block number is used after that write. -/
theorem writeCommit_defined_iff (i : Fin 4096) (buffer : Store) {block : ℤ} (hblock : block ≤ 13)
    (node : Inode) : Defined (writeCommit ((i : ℕ) : ℤ) buffer block node) server ↔
      0 ≤ block ∨ server.results 0 = .error := by
  let sought := server.seek server.cr.endPos.toNat
  obtain ⟨rc, next, hwrite, hrc, -⟩ := write_cases lfsBlockSize buffer sought
  have hfails : server.results 0 = .error ↔ rc < 0 := hrc.symm
  unfold writeCommit
  rw [defined_bind get_run, defined_bind (lseek_run _), defined_bind hwrite, hfails]
  by_cases hnegative : rc < 0
  · rw [if_pos hnegative]
    exact iff_of_true (defined_pure _) (Or.inr hnegative)
  · rw [if_neg hnegative]
    by_cases hlow : 0 ≤ block
    · refine iff_of_true ?_ (Or.inl hlow)
      have hhigh : block < ndirect := by
        simp only [ndirect]
        omega
      rw [defined_bind (index_run hlow hhigh), defined_bind (index_natCast_run i),
        defined_bind (update_run _)]
      refine Total.defined ?_ _
      exact (total_write _ _).bind fun _ ↦ Total.ite (Total.pure _) (total_commitChunk i _)
    · refine iff_of_false (not_defined_bind (index_none fun hin ↦ hlow hin.1)) ?_
      rintro (h | h)
      · exact hlow h
      · exact hnegative h

/-- The inode is an allocated regular file, as `get_inode` reads it. -/
def ReadsRegular (server : Server) (inum : ℤ) (node : Store) : Prop :=
  ∃ rc found next, getInode inum node server = some ((rc, found), next) ∧ 0 ≤ rc ∧
    found.type = lfsRegularFile

theorem readsRegular_iff {node : Store} {rc : ℤ} {found : Inode}
    (hnode : getInode inum node server = some ((rc, found), next)) :
    ReadsRegular server inum node ↔ 0 ≤ rc ∧ found.type = lfsRegularFile := by
  constructor
  · rintro ⟨rc', found', next', hnode', hrc, htype⟩
    cases hnode.symm.trans hnode'
    exact ⟨hrc, htype⟩
  · rintro ⟨hrc, htype⟩
    exact ⟨rc, found, next, hnode, hrc, htype⟩

theorem fsiWrite_defined_iff (i : Fin 4096) (buffer : Store) (block : ℤ) (node : Store) :
    Defined (fsiWrite ((i : ℕ) : ℤ) buffer block node) server ↔
      0 ≤ block ∨ server.results 0 = .error ∨ ¬ ReadsRegular server ((i : ℕ) : ℤ) node := by
  obtain ⟨⟨rc, found⟩, next, hnode⟩ := total_getInode i node server
  have hresults : next.results = server.results := by
    rw [readOnly_getInode _ _ _ _ _ hnode]
  unfold fsiWrite
  rw [defined_bind hnode, readsRegular_iff hnode]
  dsimp only
  split
  next hrc => exact iff_of_true (defined_pure _) (Or.inr (Or.inr fun h ↦ not_le.mpr hrc h.1))
  next hrc =>
    split
    next htype => exact iff_of_true (defined_pure _) (Or.inr (Or.inr fun h ↦ htype h.2))
    next htype =>
      have hboth : 0 ≤ rc ∧ found.type = lfsRegularFile := ⟨not_lt.mp hrc, not_not.mp htype⟩
      split
      next hblock => exact iff_of_true (defined_pure _) (Or.inl (by omega))
      next hblock =>
        rw [writeCommit_defined_iff i buffer (not_lt.mp hblock), hresults]
        simp only [hboth, and_self, not_true, or_false]

/-! ## Unlinking -/

theorem total_unlinkBlocks (pnode : Inode) (name : CString) (fuel block : ℕ) (dirBlock : Store) :
    Total (unlinkBlocks pnode name fuel block dirBlock) := by
  induction fuel generalizing block dirBlock with
  | zero => exact Total.pure _
  | succ fuel ih =>
    refine (total_getBlock _ _ _).bind fun result ↦ Total.ite (Total.pure _) ?_
    cases Scan.first (entryNamed result.2 name) dirEntries with
    | none => exact ih _ _
    | some i => exact Total.pure _

theorem unlinkBlocks_range {pnode : Inode} {fuel block found slot : ℕ}
    {dirBlock foundBlock : Store}
    (h : unlinkBlocks pnode name fuel block dirBlock server =
      some (some (foundBlock, some (found, slot)), next)) :
    block ≤ found ∧ found < block + fuel := by
  induction fuel generalizing block dirBlock server with
  | zero => cases h
  | succ fuel ih =>
    obtain ⟨⟨rc, buffer⟩, middle, -, hrest⟩ := bind_eq_some h
    dsimp only at hrest
    split at hrest
    · cases hrest
    · cases hfirst : Scan.first (entryNamed buffer name) dirEntries with
      | some i =>
        rw [hfirst] at hrest
        cases hrest
        omega
      | none =>
        rw [hfirst] at hrest
        have := ih hrest
        omega

/-- `fsi_unlink` looks the name up and gets `cinum`. -/
def UnlinkFinds (server : Server) (pinum : ℤ) (name : CString) (frame : UnlinkFrame) (cinum : ℤ) :
    Prop :=
  ∃ rc pnode middle next, getInode pinum frame.pnode server = some ((rc, pnode), middle) ∧
    0 ≤ rc ∧ fsiLookup pinum name frame.lookup middle = some (cinum, next)

/-- What `fsi_unlink` needs to stay inside its arrays: the number that the directory gives for the
name is an inode number, and the loop finds the name as the lookup did. -/
structure UnlinkInside (server : Server) (pinum : ℤ) (name : CString) (frame : UnlinkFrame) :
    Prop where
  number : ∀ cinum, UnlinkFinds server pinum name frame cinum → cinum < 4096
  again : ∀ plan next, unlinkSearch pinum name frame server = some (.inr plan, next) →
    plan.found = none → server.results 0 = .error

/-- The end of `unlinkSearch`. -/
theorem total_unlinkPlan (pnode : Inode) (i : Fin 4096) (name : CString) (dirBlock : Store) :
    Total (do
      match ← unlinkBlocks pnode name ndirect 0 dirBlock with
      | none => return .inl (-1)
      | some (dirBlock, found) =>
        let i ← index 4096 ((i : ℕ) : ℤ)
        return .inr ⟨pnode, i, dirBlock, found⟩ : Fsi (ℤ ⊕ UnlinkPlan)) := by
  refine (total_unlinkBlocks _ _ _ _ _).bind fun result ↦ ?_
  cases result with
  | none => exact Total.pure _
  | some pair => exact (total_index i).bind fun _ ↦ Total.pure _

theorem unlinkPlan_cases {pnode : Inode} {cinum : ℤ} {dirBlock : Store} {result : ℤ ⊕ UnlinkPlan}
    (h : (do
      match ← unlinkBlocks pnode name ndirect 0 dirBlock with
      | none => return .inl (-1)
      | some (dirBlock, found) =>
        let i ← index 4096 cinum
        return .inr ⟨pnode, i, dirBlock, found⟩ : Fsi (ℤ ⊕ UnlinkPlan)) server =
      some (result, next)) :
    result = .inl (-1) ∨ ∃ plan, result = .inr plan ∧ plan.pnode = pnode ∧
      ((plan.cinum : ℕ) : ℤ) = cinum ∧
      (∀ block slot, plan.found = some (block, slot) → block < ndirect) ∧
      ∃ last, unlinkBlocks pnode name ndirect 0 dirBlock server =
        some (some (plan.dirBlock, plan.found), last) := by
  obtain ⟨blocks, middle, hblocks, hrest⟩ := bind_eq_some h
  cases blocks with
  | none =>
    cases hrest
    exact Or.inl rfl
  | some pair =>
    obtain ⟨i, last, hindex, hlast⟩ := bind_eq_some hrest
    cases hlast
    refine Or.inr ⟨_, rfl, rfl, (index_eq_some hindex).1, fun block slot hfound ↦ ?_, middle,
      hblocks⟩
    obtain ⟨foundBlock, found⟩ := pair
    dsimp only at hfound
    subst hfound
    simpa using (unlinkBlocks_range hblocks).2

/-- What the tests of `fsi_unlink` before its first write have shown about the child. -/
structure UnlinkChecked (server : Server) (pinum : ℤ) (name : CString) (frame : UnlinkFrame)
    (plan : UnlinkPlan) : Prop where
  found_lt : ∀ block slot, plan.found = some (block, slot) → block < ndirect
  child : ∃ rc probed looked rc' cnode last,
    getInode pinum frame.pnode server = some ((rc, plan.pnode), probed) ∧ 0 ≤ rc ∧
    fsiLookup pinum name frame.lookup probed = some (((plan.cinum : ℕ) : ℤ), looked) ∧
    getInode ((plan.cinum : ℕ) : ℤ) frame.cnode looked = some ((rc', cnode), last) ∧
    (cnode.type = lfsDirectory → cnode.size.toInt ≤ 4096 ∧ ∃ rc'' cdirBlocks after,
      getBlock cnode frame.cdirBlocks 0 last = some ((rc'', cdirBlocks), after) ∧
      onlySelfAndParent cdirBlocks ((plan.cinum : ℕ) : ℤ) pinum = true)

/-- The plan with which `fsi_unlink` starts to write: the child is checked, and the block is the one
at which the second search has ended. -/
structure UnlinkPlanned (server : Server) (pinum : ℤ) (name : CString) (frame : UnlinkFrame)
    (plan : UnlinkPlan) : Prop extends UnlinkChecked server pinum name frame plan where
  blocks : ∃ offset last, unlinkBlocks plan.pnode name ndirect 0 frame.dirBlock
    (server.seek offset) = some (some (plan.dirBlock, plan.found), last)

theorem unlinkSearch_cases {pinum : ℤ} {frame : UnlinkFrame} {result : ℤ ⊕ UnlinkPlan}
    (h : unlinkSearch pinum name frame server = some (result, next)) :
    result = .inl (-1) ∨
      ∃ plan, result = .inr plan ∧ UnlinkPlanned server pinum name frame plan := by
  obtain ⟨⟨rc, pnode⟩, probed, hprobed, h⟩ := bind_eq_some h
  dsimp only at h
  split at h
  next =>
    cases h
    exact Or.inl rfl
  next hrc =>
  obtain ⟨cinum, looked, hlooked, h⟩ := bind_eq_some h
  split at h
  next =>
    cases h
    exact Or.inl rfl
  next =>
  obtain ⟨⟨rc', cnode⟩, last, hlast, h⟩ := bind_eq_some h
  have hprobed' := readOnly_getInode _ _ _ _ _ hprobed
  have hlooked' := readOnly_fsiLookup _ _ _ _ _ _ hlooked
  have hlast' := readOnly_getInode _ _ _ _ _ hlast
  rw [hprobed'] at hlooked'
  rw [hlooked'] at hlast'
  dsimp only at h
  split at h
  next hdirectory =>
    split at h
    next =>
      cases h
      exact Or.inl rfl
    next hsize =>
    obtain ⟨⟨rc'', cdirBlocks⟩, after, hafter, h⟩ := bind_eq_some h
    have hafter' := readOnly_getBlock _ _ _ _ _ _ hafter
    rw [hlast'] at hafter'
    dsimp only at h
    split at h
    next =>
      cases h
      exact Or.inl rfl
    next honly =>
    rcases unlinkPlan_cases h with hrefused | ⟨plan, hplan, rfl, rfl, hlt, found, hfound⟩
    · exact Or.inl hrefused
    · rw [hafter'] at hfound
      refine Or.inr ⟨plan, hplan, ⟨hlt, rc, probed, looked, rc', cnode, last, hprobed,
        not_lt.mp hrc, hlooked, hlast,
        fun _ ↦ ⟨not_lt.mp hsize, rc'', cdirBlocks, after, hafter, ?_⟩⟩,
        after.offset, found, hfound⟩
      simpa using honly
  next hfile =>
    rcases unlinkPlan_cases h with hrefused | ⟨plan, hplan, rfl, rfl, hlt, found, hfound⟩
    · exact Or.inl hrefused
    · rw [hlast'] at hfound
      exact Or.inr ⟨plan, hplan, ⟨hlt, rc, probed, looked, rc', cnode, last, hprobed,
        not_lt.mp hrc, hlooked, hlast, fun htype ↦ absurd htype hfile⟩, last.offset, found, hfound⟩

theorem unlinkSearch_lt {pinum : ℤ} {frame : UnlinkFrame} {plan : UnlinkPlan}
    (h : unlinkSearch pinum name frame server = some (.inr plan, next)) {block slot : ℕ}
    (hfound : plan.found = some (block, slot)) : block < ndirect := by
  rcases unlinkSearch_cases h with hrefused | ⟨plan', hplan, hchecked⟩
  · cases hrefused
  · cases hplan
    exact hchecked.found_lt block slot hfound

theorem unlinkSearch_defined_iff (i : Fin 4096) (frame : UnlinkFrame) :
    Defined (unlinkSearch ((i : ℕ) : ℤ) name frame) server ↔
      ∀ cinum, UnlinkFinds server ((i : ℕ) : ℤ) name frame cinum → cinum < 4096 := by
  obtain ⟨⟨rc, pnode⟩, middle, hnode⟩ := total_getInode i frame.pnode server
  obtain ⟨found, next, hlookup⟩ := total_fsiLookup i name frame.lookup middle
  have hnumber : (∀ cinum, UnlinkFinds server ((i : ℕ) : ℤ) name frame cinum → cinum < 4096) ↔
      (0 ≤ rc → found < 4096) := by
    constructor
    · exact fun h hrc ↦ h found ⟨rc, pnode, middle, next, hnode, hrc, hlookup⟩
    · rintro h cinum ⟨rc', pnode', middle', next', hnode', hrc, hlookup'⟩
      cases hnode.symm.trans hnode'
      cases hlookup.symm.trans hlookup'
      exact h hrc
  rw [hnumber]
  unfold unlinkSearch
  rw [defined_bind hnode]
  dsimp only
  split
  next hrc => exact iff_of_true (defined_pure _) fun h ↦ absurd hrc (not_lt.mpr h)
  next hrc =>
    rw [defined_bind hlookup]
    split
    next hfound => exact iff_of_true (defined_pure _) fun _ ↦ by omega
    next hfound =>
      by_cases hrange : found < 4096
      · refine iff_of_true ?_ fun _ ↦ hrange
        obtain ⟨k, rfl⟩ := IsInum.exists_fin ⟨not_lt.mp hfound, hrange⟩
        refine Total.defined ?_ next
        refine (total_getInode k _).bind fun child ↦
          Total.ite ?_ (total_unlinkPlan pnode k name frame.dirBlock)
        refine Total.ite (Total.pure _) ((total_getBlock _ _ 0).bind fun _ ↦ ?_)
        exact Total.ite (Total.pure _) (total_unlinkPlan pnode k name frame.dirBlock)
      · refine iff_of_false (not_defined_bind (getInode_none (fun h ↦ hrange h.2) _)) ?_
        exact fun h ↦ hrange (h (not_lt.mp hrc))

theorem total_writeParentChunk (parent child : Fin 4096) (pos : Word) :
    Total (writeParentChunk parent child pos) := by
  refine Total.ite ?_ (Total.pure _)
  refine (total_update _).bind fun _ ↦ (total_writeChunk parent).bind fun _ ↦ ?_
  exact Total.ite (Total.pure _) (Total.pure _)

theorem unlinkCommit_defined_iff (i : Fin 4096) {plan : UnlinkPlan}
    (hplan : ∀ block slot, plan.found = some (block, slot) → block < ndirect) :
    Defined (unlinkCommit ((i : ℕ) : ℤ) plan) server ↔
      (plan.found = none → server.results 0 = .error) := by
  obtain ⟨⟨⟩, sought, hsought⟩ := total_lseek server.cr.endPos.toInt server
  have hresults : sought.results = server.results := by
    rw [readOnly_lseek _ _ _ _ hsought]
  obtain ⟨rc, next, hwrite, hrc, -⟩ := write_cases lfsBlockSize plan.dirBlock sought
  rw [hresults] at hrc
  unfold unlinkCommit
  rw [defined_bind get_run]
  dsimp only
  rw [defined_bind hsought, defined_bind hwrite, ← hrc]
  by_cases hnegative : rc < 0
  · rw [if_pos hnegative]
    exact iff_of_true (defined_pure _) fun _ ↦ hnegative
  · rw [if_neg hnegative]
    cases hfound : plan.found with
    | none =>
      refine iff_of_false ?_ fun h ↦ hnegative (h rfl)
      rintro ⟨value, final, hrun⟩
      cases hrun
    | some pair =>
      obtain ⟨block, slot⟩ := pair
      refine iff_of_true (Total.defined ?_ next) fun h ↦ nomatch h
      refine (total_index ⟨block, hplan block slot hfound⟩).bind fun j ↦ ?_
      refine (total_write _ _).bind fun _ ↦ Total.ite (Total.pure _) ?_
      refine (total_index i).bind fun _ ↦ (total_update _).bind fun _ ↦ ?_
      refine (total_update _).bind fun _ ↦ (total_writeParentChunk _ _ _).bind fun _ ↦ ?_
      exact total_commitChunk _ _

theorem fsiUnlink_defined_iff (i : Fin 4096) (frame : UnlinkFrame) :
    Defined (fsiUnlink ((i : ℕ) : ℤ) name frame) server ↔
      UnlinkInside server ((i : ℕ) : ℤ) name frame := by
  have hsearch : Defined (unlinkSearch ((i : ℕ) : ℤ) name frame) server ↔ _ :=
    unlinkSearch_defined_iff i frame
  constructor
  · rintro ⟨rc, final, hrun⟩
    obtain ⟨result, next, hnext, hrest⟩ := bind_eq_some hrun
    refine ⟨hsearch.mp ⟨result, next, hnext⟩, fun plan next' hplan hfound ↦ ?_⟩
    cases hnext.symm.trans hplan
    have hresults : next.results = server.results := by
      rw [readOnly_unlinkSearch _ _ _ _ _ _ hnext]
    rw [← hresults]
    exact (unlinkCommit_defined_iff i fun _ _ ↦ unlinkSearch_lt hnext).mp ⟨rc, final, hrest⟩ hfound
  · intro h
    obtain ⟨result, next, hnext⟩ := hsearch.mpr h.number
    unfold fsiUnlink
    rw [defined_bind hnext]
    cases result with
    | inl rc => exact defined_pure _
    | inr plan =>
      have hresults : next.results = server.results := by
        rw [readOnly_unlinkSearch _ _ _ _ _ _ hnext]
      refine (unlinkCommit_defined_iff i fun _ _ ↦ unlinkSearch_lt hnext).mpr fun hfound ↦ ?_
      rw [hresults]
      exact h.again plan next hnext hfound

/-! ## Creating -/

theorem total_creatChild (i : Fin 4096) (child : Inode) (pos : Word) :
    Total (creatChild i child pos) := by
  refine (total_update _).bind fun _ ↦ (total_write _ _).bind fun _ ↦ ?_
  exact Total.ite (Total.pure _) (total_commitChunk i _)

theorem total_creatCommit (i : Fin 4096) (type : Word) (childDirBlock : Store) (plan : CreatPlan) :
    Total (creatCommit ((i : ℕ) : ℤ) type childDirBlock plan) := by
  refine total_get.bind fun _ ↦ (total_lseek _).bind fun _ ↦ (total_write _ _).bind fun _ ↦ ?_
  refine Total.ite (Total.pure _) ((total_index i).bind fun _ ↦ (total_update _).bind fun _ ↦ ?_)
  refine (total_write _ _).bind fun _ ↦ Total.ite (Total.pure _) ?_
  refine (total_writeParentChunk _ _ _).bind fun _ ↦ Total.ite ?_ (total_creatChild _ _ _)
  exact (total_write _ _).bind fun _ ↦ Total.ite (Total.pure _) (total_creatChild _ _ _)

/-- What `fsi_creat` needs to stay inside its arrays: if it finds the name, that `fsi_unlink`
does. -/
def CreatInside (server : Server) (pinum : ℤ) (name : CString) (frame : CreatFrame) : Prop :=
  ∀ pnode found next, creatProbe pinum name frame server = some (some (pnode, found), next) →
    found > 0 → UnlinkInside next pinum name frame.unlink

theorem fsiCreat_defined_iff (i : Fin 4096) (type : Word) (frame : CreatFrame) :
    Defined (fsiCreat ((i : ℕ) : ℤ) type name frame) server ↔
      CreatInside server ((i : ℕ) : ℤ) name frame := by
  obtain ⟨probe, probed, hprobe⟩ := total_creatProbe i name frame server
  unfold fsiCreat
  rw [defined_bind hprobe]
  cases probe with
  | none =>
    refine iff_of_true (defined_pure _) fun pnode found next hother ↦ ?_
    cases hprobe.symm.trans hother
  | some pair =>
    obtain ⟨pnode, found⟩ := pair
    have hinside : CreatInside server ((i : ℕ) : ℤ) name frame ↔
        (found > 0 → UnlinkInside probed ((i : ℕ) : ℤ) name frame.unlink) := by
      constructor
      · exact fun h ↦ h pnode found probed hprobe
      · intro h pnode' found' next hother
        cases hprobe.symm.trans hother
        exact h
    have hplace (pnode : Inode) {rest : Option CreatPlan → Fsi ℤ} (hnone : rest none = pure (-1))
        (hsome : ∀ plan, rest (some plan) =
          creatCommit ((i : ℕ) : ℤ) type frame.childDirBlock plan) :
        Total (creatPlace pnode name frame.dirBlock >>= rest) := by
      intro start
      obtain ⟨place, next, hplace, -⟩ := creatPlace_run start pnode name frame.dirBlock
      rw [bind_run hplace]
      cases place with
      | none =>
        rw [hnone]
        exact ⟨_, _, rfl⟩
      | some plan =>
        rw [hsome]
        exact total_creatCommit i type frame.childDirBlock plan next
    rw [hinside, ← fsiUnlink_defined_iff]
    refine (defined_bind_total fun _ ↦ hplace pnode rfl fun _ ↦ rfl).trans ?_
    unfold creatReplace
    split
    next hfound =>
      rw [defined_bind_total fun _ ↦ Total.pure _]
      exact ⟨fun h _ ↦ h, fun h ↦ h hfound⟩
    next hfound => exact iff_of_true (defined_pure _) fun h ↦ absurd h hfound

end OS537.LFS
