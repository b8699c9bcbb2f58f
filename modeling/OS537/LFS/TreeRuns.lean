import OS537.LFS.TreeCalls

/-!
# Runs that keep the directory tree

`fsi_build` makes a tree with the root as its only object, so every run of calls that keep the tree
ends in a server that satisfies the tree invariant. The last sections show that a creation of a name
that exists always breaks it, and that two creations of one name are enough.
-/

namespace OS537.LFS

open Bytes Code Posix Run

variable {server next : Server} {forest : Forest (Fin 4096) CString} {parent child : Fin 4096}
  {slot : ℕ} {name : CString}

/-! ## The tree of a new image -/

/-- The server that `fsi_build` leaves. -/
abbrev Server.start (server : Server) (dirBlock : Store) : Server :=
  (server.built dirBlock).committed 0 (0 + 4096 + 64 + 1028)

/-- The root alone, with both special entries naming it. -/
def rootForest (dirBlock : Store) : Forest (Fin 4096) CString where
  allocated := fun i ↦ i = 0
  directory := fun i ↦ i = 0
  target := fun _ slot ↦ if slot < 2 then some 0 else none
  named := fun _ ↦ slotNames (rootBlock dirBlock)

theorem rootForest_names (dirBlock : Store) (dir i : Fin 4096) (slot : ℕ) :
    ¬ (rootForest dirBlock).Names dirEntries dir slot i := by
  intro hnames
  have htarget : (if slot < 2 then some (0 : Fin 4096) else none) = some i := hnames.target
  rw [if_neg (not_lt.mpr hnames.low)] at htarget
  cases htarget

theorem rootForest_valid (dirBlock : Store) : ValidForest (rootForest dirBlock) where
  root_directory := rfl
  directory_allocated := fun _ hdir ↦ hdir
  name_unique := fun _ slot first second _ ↦ slotNames_unique _ slot first second
  self_entry := by
    rintro dir rfl
    refine ⟨⟨dot_fits, ?_⟩, rfl⟩
    rw [entryNamed_rootBlock dirBlock dot_fits, entryNamed_childBlock_self dirBlock 0 0 dot_fits]
  parent_entry := by
    rintro dir rfl
    refine ⟨⟨dotDot_fits, ?_⟩, 0, rfl, rfl⟩
    rw [entryNamed_rootBlock dirBlock dotDot_fits,
      entryNamed_childBlock_parent dirBlock 0 0 dotDot_fits]
  entry := fun dir slot i hnames ↦ absurd hnames (rootForest_names dirBlock dir i slot)
  first := fun dir slot i _ hnames ↦ absurd hnames (rootForest_names dirBlock dir i slot)
  named_by := fun _ hi hroot ↦ absurd hi hroot
  named_once := fun dir slot _ _ i hnames ↦ absurd hnames (rootForest_names dirBlock dir i slot)

theorem start_endPos (server : Server) (dirBlock : Store) :
    (server.start dirBlock).cr.endPos.toNat = 5252 := rfl

theorem start_root (server : Server) (dirBlock : Store) :
    DirectoryIs (server.start dirBlock) 0 (rootBlock dirBlock) := by
  apply DirectoryIs.of_records rootInode
  · exact built_rootInode dirBlock _
  · have hnode : ((server.start dirBlock).inodes 0).toNat = 5124 := rfl
    exact ⟨by rw [hnode]; decide, by rw [hnode, start_endPos]; decide⟩
  · rw [start_endPos]
    decide
  · rfl
  · intro j hj
    exact if_neg hj
  · exact built_rootBlock dirBlock _
  · exact ⟨by decide, by rw [start_endPos]; decide⟩

theorem start_tree (hfull : AllFull server) (dirBlock : Store) :
    Tree (server.start dirBlock) (rootForest dirBlock) := by
  have hroot := start_root server dirBlock
  obtain ⟨start, hbuild, hrunning⟩ := fsiBuild_running hfull dirBlock
  rw [fsiBuild_run hfull] at hbuild
  cases hbuild
  have hinodes (i : Fin 4096) : (server.start dirBlock).inodes i ≠ -1 ↔ i = 0 := by
    change (if i = 0 then (0 + 4096 + 1028 : Word) else -1) ≠ -1 ↔ i = 0
    by_cases hi : i = 0
    · rw [if_pos hi]
      exact iff_of_true (by decide) hi
    · rw [if_neg hi]
      exact iff_of_false (fun hne ↦ hne rfl) hi
  have hdirectory (i : Fin 4096) : IsDirectory (server.start dirBlock) i ↔ i = 0 := by
    constructor
    · intro hdir
      exact (hinodes i).mp hdir.1
    · rintro rfl
      exact hroot.directory
  refine ⟨⟨hrunning, by rw [start_endPos]; decide, ?_, ?_, ?_, ?_⟩, ⟨?_, ?_, ?_, ?_⟩,
    rootForest_valid dirBlock⟩
  · intro i hi
    rw [(hinodes i).mp hi]
    decide
  · intro i hi
    rw [(hinodes i).mp hi]
    exact hroot.node
  · intro dir hdir
    rw [(hdirectory dir).mp hdir]
    exact hroot.block
  · intro dir hdir
    rw [(hdirectory dir).mp hdir]
    exact hroot.one_block
  · intro i
    exact (hinodes i).symm
  · intro dir
    exact (hdirectory dir).symm
  · intro dir hdir slot hslot
    rw [(hdirectory dir).mp hdir, hroot.entryInum_eq hslot]
    change _ = encodeTarget (if slot < 2 then some 0 else none)
    by_cases hlow : slot < 2
    · rw [if_pos hlow, entryInum_rootBlock_dots dirBlock hlow]
      rfl
    · rw [if_neg hlow, entryInum_rootBlock_free dirBlock (not_lt.mp hlow) hslot]
      rfl
  · intro dir hdir slot hslot name
    rw [(hdirectory dir).mp hdir]
    apply and_congr_right
    intro hfits
    rw [hroot.entryNamed_eq hslot hfits]

/-! ## Whole runs -/

/-- A creation or removal that keeps the tree, with room left in the file. -/
def Call.KeepsTree (server : Server) : Call → Prop
  | .creat pinum type name frame => HasRoom server ∧ CreatKeepsTree server pinum type name frame
  | .unlink pinum name frame => HasRoom server ∧ UnlinkKeepsTree server pinum name frame
  | .write .. => False

/-- Some forest is what the server shows. -/
def HasTree (server : Server) : Prop :=
  ∃ forest, Tree server forest

theorem HasTree.step (h : HasTree server) {call : Call} (hkeeps : call.KeepsTree server) :
    ∃ next, call.step server = some next ∧ HasTree next := by
  obtain ⟨forest, htree⟩ := h
  have hdone : (∃ rc next forest', call.exec server = some (rc, next) ∧ Tree next forest') →
      ∃ next, call.step server = some next ∧ HasTree next := by
    rintro ⟨rc, next, forest', hexec, hnext⟩
    exact ⟨next, by rw [Call.step, hexec, Option.map_some], forest', hnext⟩
  apply hdone
  cases call with
  | creat pinum type name frame => exact fsiCreat_tree htree hkeeps.1 type hkeeps.2
  | write inum buffer block node => exact absurd hkeeps id
  | unlink pinum name frame => exact fsiUnlink_tree htree hkeeps.1 hkeeps.2

/-- After any run of calls that keep the tree on a new image, the tree invariant holds. -/
theorem treeInvariant_of_run (hfull : AllFull server) (dirBlock : Store) :
    ∃ start, fsiBuild dirBlock server = some ((), start) ∧
      ∀ calls, Guarded Call.step (fun state call ↦ call.KeepsTree state) start calls →
        ∃ final, run Call.step start calls = some final ∧ TreeInvariant final := by
  refine ⟨server.start dirBlock, fsiBuild_run hfull dirBlock, fun calls hcalls ↦ ?_⟩
  have hstart : HasTree (server.start dirBlock) := ⟨_, start_tree hfull dirBlock⟩
  obtain ⟨final, hfinal, forest, htree⟩ := hcalls.run_invariant
    (fun state call hstate hcall ↦ hstate.step hcall) hstart
  exact ⟨final, hfinal, htree.treeInvariant⟩

/-! ## A name that stands nowhere -/

/-- The byte does not occur. -/
def Lacks (store : Store) (char : Byte) : Prop :=
  ∀ i, store i ≠ char

variable {store source : Store} {char : Byte}

theorem Lacks.splice {n : ℕ} (h : Lacks store char) (hsource : ∀ i < n, source i ≠ char)
    (addr : ℕ) : Lacks (splice store addr n source) char := by
  intro i
  unfold Bytes.splice
  split
  next hin => exact hsource (i - addr) (by omega)
  next => exact h i

theorem Lacks.pwrite {file : File} {n : ℕ} (h : Lacks file.bytes char) (hzero : 0 ≠ char)
    (hsource : ∀ i < n, source i ≠ char) (offset : ℕ) :
    Lacks (file.pwrite offset n source).bytes char := by
  apply Lacks.splice _ hsource
  intro i
  dsimp only
  split
  · exact h i
  · exact hzero

theorem Lacks.setEntryInum {word : Word} (h : Lacks store char)
    (hword : ∀ i < 4, encodeLE word.toNat i ≠ char) (slot : ℕ) :
    Lacks (setEntryInum store slot word) char :=
  h.splice hword _

/-- No slot has a name with the byte in it. -/
theorem Lacks.entryNamed (h : Lacks store char) (hchar : char ∈ name.chars) (slot : ℕ) :
    entryNamed store name slot = false := by
  rw [Bool.eq_false_iff]
  intro hnamed
  obtain ⟨i, hi, hget⟩ := List.mem_iff_getElem.mp hchar
  have hbyte := (strcmpEq_iff _ _ _).mp hnamed i hi.le
  rw [List.getD_eq_getElem _ _ hi, hget] at hbyte
  exact h _ hbyte

theorem getBlock_lacks {node : Inode} {block rc : ℤ} (himage : Lacks server.image.bytes char)
    (hstore : Lacks store char)
    (hrun : getBlock node store block server = some ((rc, source), next)) :
    Lacks source char ∧ Lacks next.image.bytes char := by
  constructor
  · unfold getBlock at hrun
    split at hrun
    · cases hrun
      exact hstore
    · obtain ⟨j, indexed, hindex, hrest⟩ := bind_eq_some hrun
      obtain ⟨done, sought, hlseek, hread⟩ := bind_eq_some hrest
      have hsought := readOnly_lseek _ _ done _ hlseek
      cases (index_eq_some hindex).2
      cases hread
      apply hstore.splice
      intro i _
      rw [hsought]
      exact himage _
  · rw [readOnly_getBlock _ _ _ _ _ _ hrun]
    exact himage

/-- A name with a byte that the image and the buffer lack is not found, also where the search reads
what is no block of the directory. -/
theorem lookupBlocks_lacks {node : Inode} {fuel block : ℕ} {rc : ℤ}
    (himage : Lacks server.image.bytes char) (hstore : Lacks store char)
    (hchar : char ∈ name.chars)
    (hrun : lookupBlocks node name fuel block store server = some (rc, next)) : rc = -1 := by
  induction fuel generalizing block store server with
  | zero =>
    cases hrun
    rfl
  | succ fuel ih =>
    obtain ⟨⟨count, found⟩, middle, hblock, hrest⟩ := bind_eq_some hrun
    obtain ⟨hfound, hmiddle⟩ := getBlock_lacks himage hstore hblock
    have hfirst : Scan.first (entryNamed found name) dirEntries = none := by
      rw [Scan.first_eq_none_iff]
      intro slot _
      exact hfound.entryNamed hchar slot
    dsimp only at hrest
    rw [hfirst] at hrest
    split at hrest
    · cases hrest
      rfl
    · exact ih hmiddle hfound hrest

theorem fsiLookup_lacks {pinum rc : ℤ} {frame : LookupFrame}
    (himage : Lacks server.image.bytes char) (hframe : Lacks frame.dirBlock char)
    (hchar : char ∈ name.chars)
    (hrun : fsiLookup pinum name frame server = some (rc, next)) : rc = -1 := by
  obtain ⟨⟨count, node⟩, middle, hnode, hrest⟩ := bind_eq_some hrun
  dsimp only at hrest
  split at hrest
  · cases hrest
    rfl
  split at hrest
  · cases hrest
    rfl
  · apply lookupBlocks_lacks _ hframe hchar hrest
    rw [readOnly_getInode _ _ _ _ _ hnode]
    exact himage

theorem junk_lacks : Lacks junk 97 := by
  intro i
  change (255 : Byte) ≠ 97
  decide

theorem rootBlock_lacks : Lacks (rootBlock junk) 97 := by
  have hstring (addr : ℕ) (string : CString) {block : Store} (hblock : Lacks block 97)
      (hchars : ∀ i < string.chars.length + 1, string.chars.getD i 0 ≠ 97) :
      Lacks (strcpy block addr string) 97 := hblock.splice hchars addr
  have hdots : Lacks (childBlock junk 0 0) 97 := by
    unfold childBlock setEntry
    apply Lacks.setEntryInum _ (by decide)
    apply hstring _ _ _ (by decide)
    apply Lacks.setEntryInum _ (by decide)
    exact hstring _ _ junk_lacks (by decide)
  have hfree (slots : List ℕ) {block : Store} (hblock : Lacks block 97) :
      Lacks (slots.foldl (fun block i ↦ setEntryInum block i (-1)) block) 97 := by
    induction slots generalizing block with
    | nil => exact hblock
    | cons slot rest ih => exact ih (hblock.setEntryInum (by decide) slot)
  exact hfree _ hdots

theorem start_lacks : Lacks (freshServer.start junk).image.bytes 97 := by
  have hempty : Lacks freshServer.image.bytes 97 := by
    intro i
    change (0 : Byte) ≠ 97
    decide
  apply Lacks.pwrite _ (by decide) (by decide +kernel)
  apply Lacks.pwrite _ (by decide) (by decide +kernel)
  apply Lacks.pwrite _ (by decide) (by decide +kernel)
  exact hempty.pwrite (by decide) (fun i _ ↦ rootBlock_lacks i) _

/-- The name "a". -/
def nameA : CString := ⟨[97], by decide⟩

/-- A regular file "a" in the root. -/
def creatA : Call := .creat 0 lfsRegularFile nameA junkFrame

theorem start_first_free :
    Scan.first (inodeFree (freshServer.start junk).inodes) 4096 = some ((1 : Fin 4096) : ℕ) := by
  rw [Scan.first_eq_some_iff]
  refine ⟨by decide, by decide, fun j hj ↦ ?_⟩
  rw [Nat.lt_one_iff.mp hj]
  decide

theorem creatA_keepsTree : creatA.KeepsTree (freshServer.start junk) := by
  have hroot := start_root freshServer junk
  refine ⟨by unfold HasRoom; rw [start_endPos]; decide, hroot.directory, by decide, ?_, ?_, ?_, ?_,
    ?_⟩
  · intro h
    exact absurd (congrArg CString.chars h) (by decide)
  · intro h
    exact absurd (congrArg CString.chars h) (by decide)
  · intro rc next hlookup
    rw [fsiLookup_lacks start_lacks junk_lacks (List.mem_singleton.mpr rfl) hlookup]
    decide
  · intro inum hinum
    rw [start_first_free] at hinum
    cases hinum
    decide
  · intro hdirectory
    exact absurd hdirectory (by decide)

/-- The first file of a new image keeps the tree. -/
theorem creatA_treeInvariant :
    ∃ start final, fsiBuild junk freshServer = some ((), start) ∧
      run Call.step start [creatA] = some final ∧ TreeInvariant final := by
  obtain ⟨start, hbuild, hruns⟩ := treeInvariant_of_run freshServer_full junk
  have hstart := (fsiBuild_run freshServer_full junk).symm.trans hbuild
  cases hstart
  obtain ⟨final, hfinal, htree⟩ := hruns [creatA] ⟨creatA_keepsTree, fun _ _ ↦ trivial⟩
  exact ⟨_, final, hbuild, hfinal, htree⟩

/-! ## A name created again -/

/-- The old block of the parent is still in the log when a later state extends it. -/
theorem Laid.old_block (h : Laid server) (hdir : IsDirectory server parent)
    (hext : Extends next server) (hnext : Laid next) :
    BlockAt next.image ((server.inodeRecord parent).direct 0).toNat (server.dirBlock parent 0) := by
  have hlow := (h.block parent hdir).1
  have hhigh := (h.block parent hdir).2
  refine ⟨(hhigh.trans hext.end_le).trans hnext.running.synced.end_le, fun i hi ↦ ?_⟩
  exact hext.agree _ (by omega) (by omega)

/-- A directory with two live slots of one name. -/
theorem not_treeInvariant_of_twice {content : Store} (hdir : DirectoryIs next parent content)
    (hend : next.cr.endPos.toNat < 2 ^ 31) (hname : name.Fits) {first second : ℕ}
    (hfirst : first < dirEntries) (hsecond : second < dirEntries) (hne : first ≠ second)
    (hfirstLive : entryInum content first ≠ -1) (hsecondLive : entryInum content second ≠ -1)
    (hfirstName : entryNamed content name first = true)
    (hsecondName : entryNamed content name second = true) : ¬ TreeInvariant next := by
  intro hinvariant
  have hhigh := hdir.block.2
  have hblock : (next.inodeRecord parent).direct 0 ≠ -1 := ne_neg_one_of_toNat_lt (by omega)
  have hlive (index : ℕ) (hindex : index < dirEntries) (hinum : entryInum content index ≠ -1) :
      Slot.Live next ⟨parent, 0, ⟨index, hindex⟩⟩ :=
    ⟨hdir.directory, hblock, (hdir.entryInum_eq hindex).trans_ne hinum⟩
  have hnamed (index : ℕ) (hindex : index < dirEntries)
      (hentry : entryNamed content name index = true) :
      Slot.Named next ⟨parent, 0, ⟨index, hindex⟩⟩ name :=
    (hdir.entryNamed_eq hindex hname).trans hentry
  have hslot := hinvariant.unique_name _ _ (hlive first hfirst hfirstLive)
    (hlive second hsecond hsecondLive) rfl name (hnamed first hfirst hfirstName)
    (hnamed second hsecond hsecondName)
  exact hne (congrArg (fun slot : Slot ↦ (slot.index : ℕ)) hslot)

/-- `fsi_creat` of the name of a regular file: the entry is removed from the parent and the new
one goes into the parent as it was before, so that both are there. -/
theorem Tree.fsiCreat_existing (h : Tree server forest)
    (hroom : server.cr.endPos.toNat + 16768 < 2 ^ 31)
    (hnames : forest.Names dirEntries parent slot child) (hnamed : forest.named parent slot name)
    (hname : name.Fits) (hfile : ¬ IsDirectory server child) (type : Word) (frame : CreatFrame) :
    ∃ next, fsiCreat ((parent : ℕ) : ℤ) type name frame server = some (0, next) ∧
      ¬ TreeInvariant next := by
  have hdir := (h.shows.directory parent).mp hnames.directory
  have hchild := h.laid.below child ((h.shows.allocated child).mp (h.valid.entry _ _ _ hnames).2.1)
  have hpositive : ((child : ℕ) : ℤ) > 0 := by
    have hroot : (child : ℕ) ≠ 0 := fun hzero ↦ (h.valid.entry _ _ _ hnames).1 (Fin.ext hzero)
    omega
  -- The name is looked up and unlinked.
  let looked := server.seek (((server.inodeRecord parent).direct 0).toNat + lfsBlockSize)
  have hprobe : creatProbe ((parent : ℕ) : ℤ) name frame server =
      some (some (server.inodeRecord parent, ((child : ℕ) : ℤ)), looked) :=
    creatProbe_run (h.laid.inodeIs hdir.1) hname (h.fsiLookup_entry hnames hnamed hname _ _)
  have hlookedRoom : HasRoom looked := by
    change server.cr.endPos.toNat + 12544 < 2 ^ 31
    omega
  have hlooked : Tree looked forest := h.seek _
  obtain ⟨freed, offset, hunlink, hremoved⟩ :=
    hlooked.fsiUnlink_file hlookedRoom hnames hnamed hname hfile frame.unlink
  have hreplace : creatReplace ((parent : ℕ) : ℤ) name frame.unlink ((child : ℕ) : ℤ) looked =
      some ((), freed) := by
    unfold creatReplace
    rw [if_pos hpositive, bind_run hunlink]
    rfl
  have hfreed := (hlooked.seek offset).remove hremoved hnames hfile
  have hfreedDir : IsDirectory freed parent := by
    obtain ⟨found, -, hparent⟩ := hremoved.parent_entry
    exact hparent.directory
  -- The number of the old file, or one before it, is free again.
  have hinum : ∃ inum, Scan.first (inodeFree freed.inodes) 4096 = some inum ∧
      inum ≤ (child : ℕ) := by
    apply Scan.exists_first_of_hit child.isLt
    rw [inodeFree, dif_pos child.isLt, decide_eq_true_iff]
    exact hremoved.child
  obtain ⟨inum, hfirst, hle⟩ := hinum
  obtain ⟨fresh, rfl⟩ : ∃ fresh : Fin 4096, (fresh : ℕ) = inum :=
    ⟨⟨inum, hle.trans_lt child.isLt⟩, rfl⟩
  have hfresh := inodeFree_first hfirst
  have hne : parent ≠ fresh := fun heq ↦ hfreedDir.1 (heq ▸ hfresh)
  have hchunk := chunkOf_eq_of_lt (h.laid.below parent hdir.1) (hle.trans_lt hchild)
  -- The block it searches for a free slot is that of the parent before the unlink.
  have hold : BlockAt freed.image ((server.inodeRecord parent).direct 0).toNat
      (server.dirBlock parent 0) :=
    (hlooked.seek offset).laid.old_block hdir hremoved.extend hfreed.laid
  obtain ⟨found, hblock, hfound⟩ := getBlock_run frame.dirBlock (h.laid.direct_lt hdir) hold
  obtain ⟨free, hfree⟩ := h.first_free hdir
  have hplan := creatPlace_found name hfirst hblock (by decide)
    ((first_free_congr hfound).trans hfree)
  have hroomFreed : freed.cr.endPos.toNat + 8384 < 2 ^ 31 := by
    have hend : freed.cr.endPos.toNat ≤ server.cr.endPos.toNat + 4224 := hremoved.end_le
    omega
  obtain ⟨next, hcommit, hcreated⟩ := creatCommit_created (hfreed.seek _).laid hroomFreed hdir.2
    (h.laid.one_block parent hdir) hne hchunk free name type found frame.childDirBlock
  refine ⟨next, ?_, ?_⟩
  · exact (fsiCreat_eq type hprobe hreplace hplan).trans hcommit
  · obtain ⟨hfreeLt, hfreeInum, -⟩ := Scan.first_eq_some_iff.mp hfree
    have hentry : entryInum (server.dirBlock parent 0) slot = BitVec.ofNat 32 child := by
      rw [h.shows.target parent hdir slot hnames.high, hnames.target]
      rfl
    have hslots : slot ≠ free := by
      rintro rfl
      rw [decide_eq_true_iff, hentry] at hfreeInum
      exact ofNat_fin_ne_neg_one child hfreeInum
    have hslotFound := AgreeOn.slot hfound hnames.high
    apply not_treeInvariant_of_twice hcreated.parent_entry hcreated.end_lt hname hnames.high hfreeLt
      hslots
    · rw [entryInum_setEntry_other _ hname _ hslots, entryInum_congr hslotFound, hentry]
      exact ofNat_fin_ne_neg_one child
    · rw [entryInum_setEntry_same]
      exact ofNat_fin_ne_neg_one fresh
    · rw [entryNamed_setEntry_other _ hname hname _ hslots,
        entryNamed_congr hname (hslotFound.mono le_rfl (by omega))]
      exact ((h.shows.named parent hdir slot hnames.high name).mp hnamed).2
    · rw [entryNamed_setEntry_same _ _ hname]

/-- A file created twice on a new image. -/
theorem creatA_twice_not_treeInvariant :
    ∃ start final, fsiBuild junk freshServer = some ((), start) ∧
      run Call.step start [creatA, creatA] = some final ∧ ¬ TreeInvariant final := by
  have htree := start_tree freshServer_full junk
  have hkeeps := creatA_keepsTree
  obtain ⟨middle, slot, hfirst, hplace, hmiddle, hend⟩ :=
    htree.fsiCreat_new hkeeps.1 lfsRegularFile hkeeps.2 start_first_free
  rw [start_endPos] at hend
  have hne : (0 : Fin 4096) ≠ 1 := by decide
  have hfile : ¬ IsDirectory middle 1 := by
    rw [← hmiddle.shows.directory, Forest.create_directory_new]
    decide
  obtain ⟨final, hsecond, hbroken⟩ := hmiddle.fsiCreat_existing (by omega)
    ((Forest.create_names_iff htree.valid hplace).mpr (Or.inl ⟨rfl, rfl, rfl⟩))
    ((Forest.create_named_here hne nameA).mpr rfl) hkeeps.2.fits hfile lfsRegularFile junkFrame
  have hfirstStep : creatA.step (freshServer.start junk) = some middle := by
    rw [Call.step, creatA, Call.exec, hfirst, Option.map_some]
  have hsecondStep : creatA.step middle = some final := by
    rw [Call.step, creatA, Call.exec, hsecond, Option.map_some]
  refine ⟨_, final, fsiBuild_run freshServer_full junk, ?_, hbroken⟩
  rw [run_cons_of_step _ hfirstStep, run_cons_of_step _ hsecondStep, run_nil]

end OS537.LFS
