import OS537.LFS.Entries
import OS537.LFS.NewDirectory

/-!
# Directories that grow

`fsi_creat` takes the first free slot of the first block that has one. A block that was never
written has no slots to look at, but `get_block` delivers one all the same: the buffer with
whatever the image holds at the file offset over it. What is live there goes into the new block.
-/

namespace OS537.LFS

open Bytes Code Posix

variable {server looked next : Server} {dir child : Fin 4096} {name other : CString}
  {inum : Word} {frame : CreatFrame} {rc : ℤ}

/-- The block is allocated, and all its slots hold live entries. -/
def FullBlock (server : Server) (dir : Fin 4096) (k : Fin ndirect) : Prop :=
  (server.inodeRecord dir).direct k ≠ -1 ∧
    ∀ slot < dirEntries, entryInum (server.dirBlock dir k) slot ≠ -1

/-- A new entry needs the block: it is not allocated, and those before it are full. -/
def NeedsBlock (server : Server) (dir : Fin 4096) (k : Fin ndirect) : Prop :=
  (server.inodeRecord dir).direct k = -1 ∧ ∀ j < k, FullBlock server dir j

/-- The block is allocated and holds the entry and 127 free slots. -/
def StartedWith (server : Server) (dir : Fin 4096) (k : Fin ndirect) (name : CString)
    (child : Fin 4096) : Prop :=
  (server.inodeRecord dir).direct k ≠ -1 ∧ ∃ slot < dirEntries,
    entryNamed (server.dirBlock dir k) name slot = true ∧
    entryInum (server.dirBlock dir k) slot = BitVec.ofNat 32 child ∧
    ∀ spare < dirEntries, spare ≠ slot → entryInum (server.dirBlock dir k) spare = -1

/-- How a creation of the name leaves the directory. -/
structure Grows (server next : Server) (dir : Fin 4096) (name : CString) (child : Fin 4096)
    (rc : ℤ) : Prop where
  /-- It fails in a directory without a free slot only. -/
  fails : rc = -1 → ∀ k, FullBlock server dir k
  starts : ∀ k, NeedsBlock server dir k → rc = 0 ∧ StartedWith next dir k name child
  /-- The names that a lookup finds in the allocated blocks stay. -/
  resolves : ∀ other : CString, other.Fits → other ≠ name → server.Answers dir other →
    ∀ frame frame' inum last, inum ≠ -1 →
      fsiLookup ((dir : ℕ) : ℤ) other frame server = some (inum, last) →
        ∃ last', fsiLookup ((dir : ℕ) : ℤ) other frame' next = some (inum, last')

/-! ## Where a lookup ends -/

theorem exists_foundAt {content : ℕ → Store} {fuel block : ℕ}
    (h : searchBlocks content name fuel block ≠ -1) :
    ∃ k slot, block ≤ k ∧ k < block + fuel ∧ FoundAt content name block k slot := by
  induction fuel generalizing block with
  | zero => exact absurd rfl h
  | succ fuel ih =>
    rw [searchBlocks] at h
    cases hfirst : Scan.first (entryNamed (content block) name) dirEntries with
    | some slot =>
      exact ⟨block, slot, le_rfl, by omega, fun m hm hlt ↦ absurd hlt (not_lt.mpr hm), hfirst⟩
    | none =>
      rw [hfirst] at h
      obtain ⟨k, slot, hlow, hhigh, hfound⟩ := ih h
      exact ⟨k, slot, by omega, by omega, hfound.reaches.step hfirst, hfound.first⟩

/-- The search does not get behind the block where it ends. -/
theorem FoundAt.le_of_reaches {content : ℕ → Store} {block k slot j : ℕ}
    (h : FoundAt content name block k slot) (hlow : block ≤ k)
    (hreach : Reaches content name block j) : j ≤ k := by
  by_contra hlt
  cases h.first.symm.trans (hreach k hlow (not_le.mp hlt))

/-! ## A block with a new entry -/

theorem first_entered_none {content : Store} (hname : name.Fits) (hother : other.Fits)
    (hne : other ≠ name) (inum : Word) (free : ℕ)
    (h : Scan.first (entryNamed content other) dirEntries = none) :
    Scan.first (entryNamed (setEntry content free name inum) other) dirEntries = none := by
  rw [Scan.first_eq_none_iff] at h ⊢
  intro slot hslot
  have hmiss := h slot hslot
  rw [Bool.eq_false_iff] at hmiss ⊢
  exact fun hhit ↦ hmiss ((entryNamed_entered content hname hother hne inum free slot).mp hhit).1

/-! ## Lookups behind a creation -/

/-- The content of a block of the directory. -/
theorem blockContent_dirBlock (server : Server) (dir : Fin 4096) (j : Fin ndirect) :
    blockContent server.image (server.inodeRecord dir) j = server.dirBlock dir j :=
  blockContent_fin _ _ _

/-- A lookup that ends in an allocated block returns the number there. -/
theorem FoundAt.fsiLookup_eq {n slot : ℕ} {k : Fin ndirect} (hspace : Appendable server n)
    (hlogged : InodeLogged server dir) (htype : (server.inodeRecord dir).type = lfsDirectory)
    (hname : name.Fits)
    (h : FoundAt (blockContent server.image (server.inodeRecord dir)) name 0 k slot)
    (hallocated : ∀ j ≤ k, (server.inodeRecord dir).direct j ≠ -1) (frame : LookupFrame) :
    ∃ last, fsiLookup ((dir : ℕ) : ℤ) name frame server =
      some ((entryInum (server.dirBlock dir k) slot).toInt, last) := by
  have hblocks (j : Fin ndirect)
      (hreach : Reaches (blockContent server.image (server.inodeRecord dir)) name 0 j) :=
    hlogged.direct_fits hspace (hallocated j (h.le_of_reaches (Nat.zero_le _) hreach))
  obtain ⟨last, hlast⟩ := fsiLookup_allocated hname (hlogged.inodeIs hspace)
    (fun _ j hreach ↦ (hblocks j hreach).imp_right blockAt_blockContent) frame
  rw [if_pos htype, h.searchBlocks_eq (Nat.zero_le _) (by have := k.isLt; omega),
    blockContent_dirBlock] at hlast
  exact ⟨last, hlast⟩

/-- Conversely, a lookup through allocated blocks that finds a live entry ends in one of them. -/
theorem Server.Answers.foundAt {n : ℕ} (hspace : Appendable server n)
    (hlogged : InodeLogged server dir) (hdir : IsDirectory server dir) (hname : name.Fits)
    (hanswers : server.Answers dir name) {frame : LookupFrame} {found : ℤ} (hfound : found ≠ -1)
    (h : fsiLookup ((dir : ℕ) : ℤ) name frame server = some (found, next)) :
    ∃ (k : Fin ndirect) (slot : ℕ),
      FoundAt (blockContent server.image (server.inodeRecord dir)) name 0 k slot ∧
      (∀ j ≤ k, (server.inodeRecord dir).direct j ≠ -1) ∧
      (entryInum (server.dirBlock dir k) slot).toInt = found := by
  obtain ⟨last, hlast⟩ := fsiLookup_allocated hname (hlogged.inodeIs hspace) (fun _ j hreach ↦
    (hlogged.direct_fits hspace (hanswers hdir j hreach)).imp_right blockAt_blockContent) frame
  rw [if_pos hdir.2] at hlast
  have hvalue : found = searchBlocks (blockContent server.image (server.inodeRecord dir)) name
      ndirect 0 := congrArg Prod.fst (Option.some.inj (h.symm.trans hlast))
  obtain ⟨k, slot, -, hk, hat⟩ := exists_foundAt (hvalue ▸ hfound)
  have hk' : k < ndirect := Nat.zero_add ndirect ▸ hk
  refine ⟨⟨k, hk'⟩, slot, hat, fun j hj ↦ ?_, ?_⟩
  · have hle : (j : ℕ) ≤ k := hj
    exact hanswers hdir j fun m hm hlt ↦ hat.reaches m hm (by omega)
  · rw [hvalue, hat.searchBlocks_eq (Nat.zero_le _) hk, ← blockContent_dirBlock]

theorem EntryCommitted.of_seek {plan : CreatPlan} {offset : ℕ}
    (h : EntryCommitted next (server.seek offset) dir plan) : EntryCommitted next server dir plan :=
  ⟨⟨h.extend.agree, h.extend.end_le⟩, h.full, h.end_low, h.end_high, h.end_le, h.position, h.block,
    h.node⟩

theorem EntryCommitted.appendable {plan : CreatPlan} (h : EntryCommitted next server dir plan)
    (hspace : Appendable server 8384) : Appendable next 0 := by
  have hlow := hspace.low
  have hroom := hspace.room
  have hend := h.end_low
  have hhigh := h.end_high
  exact ⟨h.full, by omega, h.end_le, by omega⟩

/-- The entry that a creation has put into a free slot of the parent. -/
structure Placement (server : Server) (dir : Fin 4096) (name : CString) (plan : CreatPlan)
    (content : Store) (slot : ℕ) : Prop where
  pnode : plan.pnode = server.inodeRecord dir
  dirBlock : plan.dirBlock = setEntry content slot name (BitVec.ofNat 32 plan.inum)
  lt : slot < dirEntries
  free : entryInum content slot = -1
  /-- A block of the log was read as it stands there. -/
  read : (server.inodeRecord dir).direct plan.foundBlock ≠ -1 →
    AgreeOn content (server.dirBlock dir plan.foundBlock) 0 lfsBlockSize

section Placed

variable {plan : CreatPlan} {content : Store} {slot : ℕ}
  (hplan : Placement server dir name plan content slot)
  (h : EntryCommitted next server dir plan) (hspace : Appendable server 8384)
  (hlogged : InodeLogged server dir)

include hplan h hspace hlogged

theorem Placement.inodeLogged : InodeLogged next dir := by
  have hroom := hspace.room
  refine h.inodeLogged (by omega) hspace.low fun j hj ↦ ?_
  rw [hplan.pnode] at hj ⊢
  exact hlogged.block j hj

/-- An allocated block of the parent after the creation. -/
theorem Placement.dirBlock_cases {j : Fin ndirect}
    (hj : (server.inodeRecord dir).direct j ≠ -1) :
    AgreeOn (next.dirBlock dir j) (server.dirBlock dir j) 0 lfsBlockSize ∨
      AgreeOn (next.dirBlock dir j) (setEntry content slot name (BitVec.ofNat 32 plan.inum)) 0
        lfsBlockSize ∧ AgreeOn content (server.dirBlock dir j) 0 lfsBlockSize := by
  have hroom := hspace.room
  by_cases hfound : j = plan.foundBlock
  · rw [hfound] at hj ⊢
    rw [← hplan.dirBlock]
    exact Or.inr ⟨h.dirBlock_found (by omega), hplan.read hj⟩
  · have hother := h.dirBlock_other (by omega) hfound (hplan.pnode ▸ hlogged.block j hj)
    rw [hplan.pnode] at hother
    exact Or.inl hother

theorem Placement.first_none (hname : name.Fits) (hother : other.Fits) (hne : other ≠ name)
    {j : Fin ndirect} (hj : (server.inodeRecord dir).direct j ≠ -1)
    (hnone : Scan.first (entryNamed (server.dirBlock dir j) other) dirEntries = none) :
    Scan.first (entryNamed (next.dirBlock dir j) other) dirEntries = none := by
  rcases hplan.dirBlock_cases h hspace hlogged hj with hsame | ⟨hnew, hold⟩
  · rw [first_entryNamed_congr hsame hother, hnone]
  · rw [first_entryNamed_congr hnew hother]
    apply first_entered_none hname hother hne
    rw [first_entryNamed_congr hold hother, hnone]

/-- A live entry keeps its slot: the one that is taken was free. -/
theorem Placement.first_some (hname : name.Fits) (hother : other.Fits) (hne : other ≠ name)
    {j : Fin ndirect} (hj : (server.inodeRecord dir).direct j ≠ -1) {found : ℕ}
    (hsome : Scan.first (entryNamed (server.dirBlock dir j) other) dirEntries = some found)
    (hlive : entryInum (server.dirBlock dir j) found ≠ -1) :
    Scan.first (entryNamed (next.dirBlock dir j) other) dirEntries = some found ∧
      entryInum (next.dirBlock dir j) found = entryInum (server.dirBlock dir j) found := by
  have hlt : found < dirEntries := (Scan.first_eq_some_iff.mp hsome).1
  rcases hplan.dirBlock_cases h hspace hlogged hj with hsame | ⟨hnew, hold⟩
  · exact ⟨(first_entryNamed_congr hsame hother).trans hsome,
      entryInum_congr (AgreeOn.slot hsame hlt)⟩
  · have hentry := entryInum_congr (AgreeOn.slot hold hlt)
    have hslot : found ≠ slot := by
      rintro rfl
      exact hlive (hentry.symm.trans hplan.free)
    rw [← first_entryNamed_congr hold hother] at hsome
    rw [first_entryNamed_congr hnew hother, entryInum_congr (AgreeOn.slot hnew hlt),
      entryInum_setEntry_other content hname _ hslot]
    exact ⟨first_setEntry_other hname hother hne hslot _ hsome, hentry⟩

/-- The other names of the parent are found as before. -/
theorem Placement.fsiLookup_eq (hdir : IsDirectory server dir) (hname : name.Fits)
    (hother : other.Fits) (hne : other ≠ name) (hanswers : server.Answers dir other)
    {frame : LookupFrame} {found : ℤ} (hfound : found ≠ -1)
    (hlookup : fsiLookup ((dir : ℕ) : ℤ) other frame server = some (found, looked))
    (frame' : LookupFrame) :
    ∃ last, fsiLookup ((dir : ℕ) : ℤ) other frame' next = some (found, last) := by
  obtain ⟨k, place, hat, hallocated, rfl⟩ :=
    hanswers.foundAt hspace hlogged hdir hother hfound hlookup
  have hroom : server.cr.endPos.toNat + 4096 < 2 ^ 31 := by
    have := hspace.room
    omega
  have hlive : entryInum (server.dirBlock dir k) place ≠ -1 := by
    intro heq
    rw [heq] at hfound
    exact hfound rfl
  have hfirst := hat.first
  rw [blockContent_dirBlock] at hfirst
  obtain ⟨hfirst', hentry⟩ :=
    hplan.first_some h hspace hlogged hname hother hne (hallocated k le_rfl) hfirst hlive
  have hat' : FoundAt (blockContent next.image (next.inodeRecord dir)) other 0 k place := by
    refine ⟨fun m _ hm ↦ ?_, by rwa [blockContent_dirBlock]⟩
    have hnone := hat.reaches m (Nat.zero_le _) hm
    have hm' : m < ndirect := hm.trans k.isLt
    rw [blockContent_dirBlock _ _ ⟨m, hm'⟩] at hnone ⊢
    exact hplan.first_none h hspace hlogged hname hother hne (hallocated ⟨m, hm'⟩ hm.le) hnone
  have hallocated' (j : Fin ndirect) (hj : j ≤ k) : (next.inodeRecord dir).direct j ≠ -1 := by
    rw [h.direct_eq hroom, hplan.pnode, Function.update_apply]
    split
    · exact ne_neg_one_of_toNat_lt (by omega)
    · exact hallocated j hj
  have htype : (next.inodeRecord dir).type = lfsDirectory := by
    rw [h.inodeRecord_eq hroom, createdParent_type, hplan.pnode]
    exact hdir.2
  rw [← hentry]
  exact hat'.fsiLookup_eq (h.appendable hspace) (hplan.inodeLogged h hspace hlogged) htype hother
    hallocated' frame'

end Placed

/-! ## The call -/

theorem freeSlot_eq_none_iff (block : Store) :
    freeSlot block = none ↔ ∀ slot < dirEntries, entryInum block slot ≠ -1 := by
  rw [← Option.not_isSome_iff_eq_none, freeSlot_isSome_iff]
  simp

/-- Every block that a new entry needs is delivered with free slots only. -/
def DeliversFree (server : Server) (dir : Fin 4096) (reader : Reader) : Prop :=
  ∀ k : Fin ndirect, NeedsBlock server dir k → ∀ slot < dirEntries,
    entryInum (delivered server.image (server.inodeRecord dir) reader k) slot = -1

section Call

variable {n : ℕ} (reader : Reader) (hspace : Appendable server n)
  (hlogged : InodeLogged server dir) {k : Fin ndirect}

include hspace hlogged

theorem delivered_logged (hk : (server.inodeRecord dir).direct k ≠ -1) :
    AgreeOn (delivered server.image (server.inodeRecord dir) reader k) (server.dirBlock dir k) 0
      lfsBlockSize := by
  obtain ⟨hnonneg, hfits⟩ := hlogged.direct_fits hspace hk
  exact delivered_allocated reader hnonneg ⟨hfits, fun _ _ ↦ rfl⟩

/-- An allocated block is full if and only if the search finds no free slot in it. -/
theorem fullBlock_iff (hk : (server.inodeRecord dir).direct k ≠ -1) :
    FullBlock server dir k ↔
      freeSlot (delivered server.image (server.inodeRecord dir) reader k) = none := by
  rw [freeSlot_congr (delivered_logged reader hspace hlogged hk), freeSlot_eq_none_iff]
  exact and_iff_right hk

/-- Where needed blocks are delivered free, a search without a result has seen full blocks only. -/
theorem DeliversFree.all_full {reader : Reader} (h : DeliversFree server dir reader)
    (hfull : ∀ m < ndirect,
      freeSlot (delivered server.image (server.inodeRecord dir) reader m) = none)
    (k : Fin ndirect) : FullBlock server dir k := by
  induction k using WellFoundedLT.induction with
  | ind k ih =>
    have hnone := hfull k k.isLt
    by_cases hk : (server.inodeRecord dir).direct k = -1
    · have hfree := h k ⟨hk, ih⟩ 0 (by decide)
      exact absurd hfree ((freeSlot_eq_none_iff _).mp hnone 0 (by decide))
    · exact (fullBlock_iff reader hspace hlogged hk).mpr hnone

/-- The search ends in a needed block that is delivered free. -/
theorem DeliversFree.needs_eq {reader : Reader} (h : DeliversFree server dir reader)
    {first : Fin ndirect} {slot : ℕ}
    (hslot : freeSlot (delivered server.image (server.inodeRecord dir) reader first) = some slot)
    (hbefore : ∀ m < (first : ℕ),
      freeSlot (delivered server.image (server.inodeRecord dir) reader m) = none)
    (hneeds : NeedsBlock server dir k) : k = first := by
  apply le_antisymm
  · by_contra hlt
    have hfull := hneeds.2 first (not_le.mp hlt)
    have hnone := (fullBlock_iff reader hspace hlogged hfull.1).mp hfull
    cases hslot.symm.trans hnone
  · by_contra hlt
    have hnone := (freeSlot_eq_none_iff _).mp (hbefore k (not_le.mp hlt))
    exact hnone 0 (by decide) (h k hneeds 0 (by decide))

end Call

/-- A block that a creation has filled starts with the entry and free slots if and only if it was
delivered with free slots only. -/
theorem startedWith_iff {plan : CreatPlan} {content : Store} {slot : ℕ}
    (hspace : Appendable server 8384) (hname : name.Fits)
    (hplan : Placement server dir name plan content slot)
    (h : EntryCommitted next server dir plan) :
    StartedWith next dir plan.foundBlock name plan.inum ↔
      ∀ spare < dirEntries, entryInum content spare = -1 := by
  have hroom := hspace.room
  have hblock := h.dirBlock_found (by omega)
  rw [hplan.dirBlock] at hblock
  have hnew : entryInum (next.dirBlock dir plan.foundBlock) slot = BitVec.ofNat 32 plan.inum := by
    rw [entryInum_congr (AgreeOn.slot hblock hplan.lt), entryInum_setEntry_same]
  have hold {spare : ℕ} (hlt : spare < dirEntries) (hne : spare ≠ slot) :
      entryInum (next.dirBlock dir plan.foundBlock) spare = entryInum content spare := by
    rw [entryInum_congr (AgreeOn.slot hblock hlt), entryInum_setEntry_other content hname _ hne]
  constructor
  · rintro ⟨-, place, -, -, -, hfree⟩ spare hlt
    have hplace : slot = place := by
      by_contra hne
      exact ofNat_fin_ne_neg_one plan.inum (hnew.symm.trans (hfree slot hplan.lt hne))
    by_cases hne : spare = slot
    · rw [hne, hplan.free]
    · rw [← hold hlt hne]
      exact hfree spare hlt (hplace ▸ hne)
  · intro hfree
    refine ⟨?_, slot, hplan.lt, ?_, hnew, fun spare hlt hne ↦ ?_⟩
    · rw [h.direct_eq (by omega), Function.update_self]
      exact ne_neg_one_of_toNat_lt (by omega)
    · rw [entryNamed_congr hname ((AgreeOn.slot hblock hplan.lt).mono le_rfl (by omega)),
        entryNamed_setEntry_same content slot hname]
    · rw [hold hlt hne, hfree spare hlt]

/-- A creation of a new name behaves as a directory that grows if and only if every block that it
needs, and that was never written, is delivered with free slots only. -/
theorem directory_grows_iff (type : Word) (hspace : Appendable server 8384)
    (hlogged : InodeLogged server dir) (hdir : IsDirectory server dir) (hname : name.Fits)
    (hchild : Scan.first (inodeFree server.inodes) 4096 = some (child : ℕ)) {found : ℤ}
    (hlookup : fsiLookup ((dir : ℕ) : ℤ) name frame.lookup server = some (found, looked))
    (habsent : found ≤ 0) :
    ∃ rc next, fsiCreat ((dir : ℕ) : ℤ) type name frame server = some (rc, next) ∧
      (Grows server next dir name child rc ↔
        DeliversFree server dir ⟨looked.offset, frame.dirBlock⟩) := by
  let reader : Reader := ⟨looked.offset, frame.dirBlock⟩
  have hnode := hlogged.inodeIs hspace
  have hprobe := creatProbe_lookup hnode hname hlookup
  rcases reader.full_or_first server.image (server.inodeRecord dir) with
    hfull | ⟨k, slot, hslot, hbefore⟩
  · obtain ⟨next, hplace⟩ := creatPlace_full reader name server hfull
    have hnext : next = (server.at reader).seek next.offset :=
      readOnly_creatPlace _ _ _ _ _ _ hplace
    have hsame : next = server.seek next.offset := hnext
    refine ⟨-1, next, fsiCreat_eq_refused type hprobe (not_lt.mpr habsent) hplace, ?_⟩
    constructor
    · intro hgrows k hneeds
      exact absurd hneeds.1 (hgrows.fails rfl k).1
    · intro hfree
      have hall := hfree.all_full hspace hlogged hfull
      refine ⟨fun _ ↦ hall, fun k hneeds ↦ absurd hneeds.1 (hall k).1, ?_⟩
      intro other hother _ hanswers frame frame' inum last hinum hlast
      obtain ⟨k, place, hat, hallocated, rfl⟩ :=
        hanswers.foundAt hspace hlogged hdir hother hinum hlast
      rw [hsame, fsiLookup_seek hnode]
      exact hat.fsiLookup_eq hspace hlogged hdir.2 hother hallocated frame'
  · let content := delivered server.image (server.inodeRecord dir) reader k
    let plan : CreatPlan := ⟨server.inodeRecord dir, child,
      setEntry content slot name (BitVec.ofNat 32 child), k⟩
    have hplace : creatPlace (server.inodeRecord dir) name frame.dirBlock (server.at reader) =
        some (some plan, _) := creatPlace_first reader server hchild hbefore hslot
    have hne : plan.inum ≠ dir := by
      intro heq
      have hfree := inodeFree_first hchild
      exact hdir.1 (heq ▸ hfree)
    obtain ⟨next, hcommit, hcommitted⟩ :=
      creatCommit_committed (hspace.seek (reader.before server.image _ (k + 1)).offset) hne type
        frame.childDirBlock
    obtain ⟨hlt, hfree, -⟩ := Scan.first_eq_some_iff.mp hslot
    have hplan : Placement server dir name plan content slot :=
      ⟨rfl, rfl, hlt, of_decide_eq_true hfree, delivered_logged reader hspace hlogged⟩
    have hentered := hcommitted.of_seek
    refine ⟨0, next, (fsiCreat_eq_commit type hprobe (not_lt.mpr habsent) hplace).trans hcommit, ?_⟩
    constructor
    · intro hgrows j hneeds
      obtain ⟨-, hstarted⟩ := hgrows.starts j hneeds
      have hj : j = k := by
        by_contra hne
        apply hstarted.1
        have hroom := hspace.room
        rw [hentered.direct_eq (by omega), Function.update_of_ne hne]
        exact hneeds.1
      subst hj
      exact (startedWith_iff hspace hname hplan hentered).mp hstarted
    · intro hfree
      refine ⟨fun hrc ↦ absurd hrc (by decide), fun j hneeds ↦ ⟨rfl, ?_⟩, ?_⟩
      · have hj := hfree.needs_eq hspace hlogged hslot hbefore hneeds
        rw [hj] at hneeds ⊢
        exact (startedWith_iff hspace hname hplan hentered).mpr (hfree k hneeds)
      · intro other hother hne hanswers frame frame' inum last hinum hlast
        exact hplan.fsiLookup_eq hentered hspace hlogged hdir hname hother hne hanswers hinum hlast
          frame'

/-- The first file of a new image. -/
theorem first_file_grows :
    ∃ looked rc next,
      fsiLookup (((0 : Fin 4096) : ℕ) : ℤ) (fileName 2) junkFrame.lookup
        (freshServer.start fileNames) = some (-1, looked) ∧
      fsiCreat (((0 : Fin 4096) : ℕ) : ℤ) lfsRegularFile (fileName 2) junkFrame
        (freshServer.start fileNames) = some (rc, next) ∧
      Grows (freshServer.start fileNames) next 0 (fileName 2) 1 rc := by
  let start := freshServer.start fileNames
  have hvalue : (fsiLookup (((0 : Fin 4096) : ℕ) : ℤ) (fileName 2) junkFrame.lookup start).map
      Prod.fst = some (-1) := by
    decide +kernel
  obtain ⟨⟨found, looked⟩, hlookup, rfl⟩ := Option.map_eq_some_iff.mp hvalue
  have hrecord : start.inodeRecord 0 = rootInode := (built_rootInode fileNames _).ofBytes_eq
  have hspace : Appendable start 8384 := ⟨fun _ ↦ rfl, by decide, by decide, by decide⟩
  have hlogged : InodeLogged start 0 := by
    refine ⟨⟨by decide, by decide⟩, ?_⟩
    rw [hrecord]
    unfold InLog
    decide
  have hdir : IsDirectory start 0 := ⟨by decide, by rw [hrecord]; rfl⟩
  have hfirst : Scan.first (inodeFree start.inodes) 4096 = some ((1 : Fin 4096) : ℕ) := by
    rw [start_inodes, ← start_inodes freshServer junk]
    exact start_first_free
  obtain ⟨rc, next, hcreat, hiff⟩ := directory_grows_iff lfsRegularFile hspace hlogged hdir
    (fileName_fits 2) hfirst hlookup (by decide)
  refine ⟨looked, rc, next, hlookup, hcreat, hiff.mpr fun k hneeds ↦ ?_⟩
  -- The root's own block has free slots, so no block behind it is needed.
  have hblock : AgreeOn (start.dirBlock 0 0) (rootBlock fileNames) 0 lfsBlockSize := by
    apply dirBlock_of_blockAt rfl
    rw [hrecord]
    exact built_rootBlock fileNames _
  have hfree : entryInum (start.dirBlock 0 0) 2 = -1 := by
    rw [entryInum_congr (AgreeOn.slot hblock (by decide)),
      entryInum_rootBlock_free fileNames le_rfl (by decide)]
  have hpositive : 0 < k := by
    apply Fin.pos_of_ne_zero
    rintro rfl
    have hunwritten := hneeds.1
    rw [hrecord] at hunwritten
    exact absurd hunwritten (by decide)
  exact absurd hfree ((hneeds.2 0 hpositive).2 2 (by decide))

/-- A directory whose first block is full from the start, as the stack was not -1 there. -/
def createFilled : Request :=
  .creat 0 lfsDirectory (fileName 2) { junkFrame with childDirBlock := fun _ ↦ 1 }

/-- The second block of that directory starts with the slots of the first one. -/
theorem filled_directory_copies :
    ∃ start server looked next, fsiBuild fileNames freshServer = some ((), start) ∧
      Run.run Request.step start [createFilled] = some server ∧ NeedsBlock server 1 1 ∧
      fsiLookup 1 (fileName 3) junkFrame.lookup server = some (-1, looked) ∧
      fsiCreat 1 lfsRegularFile (fileName 3) junkFrame server = some (0, next) ∧
      ¬ Grows server next 1 (fileName 3) 2 0 := by
  have hvalues : ((Run.run Request.step (freshServer.start fileNames) [createFilled]).bind
      fun server ↦ (fsiLookup 1 (fileName 3) junkFrame.lookup server).bind fun looked ↦
        (fsiCreat 1 lfsRegularFile (fileName 3) junkFrame server).map fun created ↦
          decide (looked.1 = -1 ∧ created.1 = 0 ∧ (server.inodeRecord 1).direct 0 ≠ -1 ∧
            (server.inodeRecord 1).direct 1 = -1 ∧
            (∀ slot < dirEntries, entryInum (server.dirBlock 1 0) slot ≠ -1) ∧
            entryInum (created.2.dirBlock 1 1) 4 ≠ -1 ∧
            entryInum (created.2.dirBlock 1 1) 5 ≠ -1)) =
        some true := by
    decide +kernel
  obtain ⟨server, hserver, hvalues⟩ := Option.bind_eq_some_iff.mp hvalues
  obtain ⟨⟨found, looked⟩, hlookup, hvalues⟩ := Option.bind_eq_some_iff.mp hvalues
  obtain ⟨⟨rc, next⟩, hcreat, hvalues⟩ := Option.map_eq_some_iff.mp hvalues
  obtain ⟨rfl, rfl, hfirst, hsecond, hlive, hfour, hfive⟩ := of_decide_eq_true hvalues
  have hneeds : NeedsBlock server 1 1 := by
    refine ⟨hsecond, fun j hj ↦ ?_⟩
    obtain rfl : j = 0 := Fin.ext (Nat.lt_one_iff.mp hj)
    exact ⟨hfirst, hlive⟩
  refine ⟨_, server, looked, next, fsiBuild_run freshServer_full fileNames, hserver, hneeds,
    hlookup, hcreat, fun hgrows ↦ ?_⟩
  obtain ⟨-, -, slot, -, -, -, hfree⟩ := hgrows.starts 1 hneeds
  have hslot : 4 = slot := by
    by_contra hne
    exact hfour (hfree 4 (by decide) hne)
  exact hfive (hfree 5 (by decide) (by omega))

end OS537.LFS
