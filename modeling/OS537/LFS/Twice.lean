import OS537.LFS.Entries

/-!
# Creations and removals that change nothing

`fsi_unlink` and `fsi_creat` that return -1 before their first write move the file offset only, so
that they can be made any number of times. In a directory tree every other removal fails when it is
made again, and every other creation takes another slot.
-/

namespace OS537.LFS

open Bytes Code Posix

variable {server next : Server} {dir child : Fin 4096} {name : CString} {slot : ℕ}
  {forest : Forest (Fin 4096) CString}

/-! ## Lookups and the stack -/

theorem pread_agreeOn (file : File) (offset n : ℕ) {first second : Store}
    (h : AgreeOn second first 0 lfsBlockSize) :
    AgreeOn (file.pread offset n second) (file.pread offset n first) 0 lfsBlockSize := by
  intro i _ hi
  unfold File.pread
  by_cases hin : i < file.available offset n
  · rw [splice_zero_apply_inside _ _ hin, splice_zero_apply_inside _ _ hin]
  · have hout : i < 0 ∨ 0 + file.available offset n ≤ i := by omega
    rw [splice_apply_outside _ _ hout, splice_apply_outside _ _ hout]
    exact h i (Nat.zero_le i) hi

/-- Behind a first block that was written the reader no longer depends on what it started with. -/
theorem Reader.before_agree {image : File} {node : Inode} (first second : Reader)
    (hpos : (node.direct 0).toNat < 2 ^ 31)
    (hfits : (node.direct 0).toNat + lfsBlockSize ≤ image.size) {k : ℕ} (hk : k < ndirect) :
    (second.before image node (k + 1)).offset = (first.before image node (k + 1)).offset ∧
      AgreeOn (second.before image node (k + 1)).buffer (first.before image node (k + 1)).buffer 0
        lfsBlockSize := by
  induction k with
  | zero =>
    have hread (reader : Reader) : reader.before image node (0 + 1) = reader.read image node 0 :=
      reader.before_succ image node 0
    have hblock : BlockAt image (node.direct 0).toNat fun i ↦ image.bytes (_ + i) :=
      ⟨hfits, fun _ _ ↦ rfl⟩
    rw [hread, hread, Reader.read, Reader.read, origin_of_lt hpos, origin_of_lt hpos]
    exact ⟨rfl, (hblock.pread _).trans (hblock.pread _).symm⟩
  | succ k ih =>
    obtain ⟨hoffset, hbuffer⟩ := ih (by omega)
    have hread (reader : Reader) : reader.before image node (k + 1 + 1) =
        (reader.before image node (k + 1)).read image node ⟨k + 1, hk⟩ :=
      reader.before_succ image node ⟨k + 1, hk⟩
    rw [hread, hread, Reader.read, Reader.read, hoffset]
    exact ⟨rfl, pread_agreeOn _ _ _ hbuffer⟩

/-- A lookup depends neither on the stack nor on the file offset if a directory has its first
block. -/
theorem fsiLookup_frame (h : Logged server)
    (hfirst : IsDirectory server dir → (server.inodeRecord dir).direct 0 ≠ -1) (hname : name.Fits)
    (frame frame' : LookupFrame) (offset offset' : ℕ) :
    ∃ rc next next', fsiLookup ((dir : ℕ) : ℤ) name frame (server.seek offset) = some (rc, next) ∧
      fsiLookup ((dir : ℕ) : ℤ) name frame' (server.seek offset') = some (rc, next') := by
  by_cases hdir : server.inodes dir = -1
  · have hdir' (offset : ℕ) : (server.seek offset).inodes dir = -1 := hdir
    exact ⟨_, _, _, fsiLookup_unallocated (hdir' offset) frame,
      fsiLookup_unallocated (hdir' offset') frame'⟩
  have hnode := h.inodeIs hdir
  obtain ⟨next, hnext⟩ := fsiLookup_delivers (hnode.seek offset) name frame
  obtain ⟨next', hnext'⟩ := fsiLookup_delivers (hnode.seek offset') name frame'
  refine ⟨_, next, next', hnext, ?_⟩
  rw [hnext']
  by_cases htype : (server.inodeRecord dir).type = lfsDirectory
  · obtain ⟨hpos, hfits⟩ := h.direct_fits hdir (hfirst ⟨hdir, htype⟩)
    rw [if_pos htype, if_pos htype, searchBlocks_congr hname]
    exact fun k _ hk _ ↦ (Reader.before_agree _ _ hpos hfits (by omega)).2
  · rw [if_neg htype, if_neg htype]

/-- Whether the name is found does not depend on the stack. -/
def Steady (server : Server) (dir : Fin 4096) (name : CString) : Prop :=
  ∃ found : Prop, ∀ frame rc next,
    fsiLookup ((dir : ℕ) : ℤ) name frame server = some (rc, next) →
      (0 ≤ (BitVec.ofInt 32 rc).toInt ↔ found)

theorem steady_of_first_block (h : Logged server)
    (hfirst : IsDirectory server dir → (server.inodeRecord dir).direct 0 ≠ -1)
    (hname : name.Fits) : Steady server dir name := by
  obtain ⟨rc, _, _, hrc, -⟩ := fsiLookup_frame h hfirst hname junkFrame.lookup junkFrame.lookup
    server.offset server.offset
  refine ⟨0 ≤ (BitVec.ofInt 32 rc).toInt, fun frame rc' next hlookup ↦ ?_⟩
  obtain ⟨_, _, _, hfound, hfound'⟩ := fsiLookup_frame h hfirst hname junkFrame.lookup frame
    server.offset server.offset
  cases hrc.symm.trans hfound
  cases hlookup.symm.trans hfound'
  rfl

/-! ## Refused removals -/

/-- `fsi_unlink` does not find the name, or finds a directory that it does not take for empty. -/
def UnlinkRefused (server : Server) (dir : Fin 4096) (name : CString) : Prop :=
  IsDirectory server dir → ∀ frame rc next,
    fsiLookup ((dir : ℕ) : ℤ) name frame server = some (rc, next) →
      rc < 0 ∨ ∃ child : Fin 4096, rc = ((child : ℕ) : ℤ) ∧ IsDirectory server child ∧
        (4096 < (server.inodeRecord child).size.toInt ∨
          (server.inodeRecord child).direct 0 ≠ -1 ∧
            onlySelfAndParent (server.dirBlock child 0) ((child : ℕ) : ℤ) ((dir : ℕ) : ℤ) = false)

theorem onlySelfAndParent_congr {first second : Store} (h : AgreeOn first second 0 lfsBlockSize)
    (cinum pinum : ℤ) :
    onlySelfAndParent first cinum pinum = onlySelfAndParent second cinum pinum := by
  unfold onlySelfAndParent
  congr 1
  apply Scan.first_congr
  intro i hi
  rw [entryInum_congr (AgreeOn.slot h hi)]

theorem fsiUnlink_of_refused {frame : UnlinkFrame} {rc : ℤ} {pinum : ℤ}
    (h : unlinkSearch pinum name frame server = some (.inl rc, next)) :
    fsiUnlink pinum name frame server = some (rc, next) := by
  unfold fsiUnlink
  rw [bind_run h]
  rfl

/-- A refused removal moves the file offset only. -/
theorem UnlinkRefused.run (hrefused : UnlinkRefused server dir name) (h : Logged server)
    (frame : UnlinkFrame) (offset : ℕ) :
    ∃ offset', fsiUnlink ((dir : ℕ) : ℤ) name frame (server.seek offset) =
      some (-1, server.seek offset') := by
  by_cases hdir : server.inodes dir = -1
  · refine ⟨offset, fsiUnlink_of_refused ?_⟩
    have hdir' : (server.seek offset).inodes dir = -1 := hdir
    unfold unlinkSearch
    rw [bind_run (getInode_unallocated frame.pnode hdir')]
    rfl
  have hnode := h.inodeIs hdir
  let probed := server.seek ((server.inodes dir).toNat + inodeSize)
  have hprobed : getInode ((dir : ℕ) : ℤ) frame.pnode (server.seek offset) =
      some (((inodeSize : ℤ), server.inodeRecord dir), probed) :=
    getInode_run frame.pnode (hnode.seek offset)
  obtain ⟨rc, looked, hlooked⟩ := total_fsiLookup dir name frame.lookup server
  have hlooked' : fsiLookup ((dir : ℕ) : ℤ) name frame.lookup probed = some (rc, looked) := by
    rw [fsiLookup_seek hnode, hlooked]
  have hlast : looked = server.seek looked.offset := readOnly_fsiLookup _ _ _ _ _ _ hlooked
  have hcases : rc < 0 ∨ ∃ child : Fin 4096, rc = ((child : ℕ) : ℤ) ∧ IsDirectory server child ∧
      (4096 < (server.inodeRecord child).size.toInt ∨
        (server.inodeRecord child).direct 0 ≠ -1 ∧
          onlySelfAndParent (server.dirBlock child 0) ((child : ℕ) : ℤ) ((dir : ℕ) : ℤ) =
            false) := by
    by_cases htype : (server.inodeRecord dir).type = lfsDirectory
    · exact hrefused ⟨hdir, htype⟩ frame.lookup rc looked hlooked
    · left
      cases hlooked.symm.trans (fsiLookup_not_directory name frame.lookup hnode htype)
      decide
  rcases hcases with hrc | ⟨child, rfl, hchild, hfull⟩
  · refine ⟨looked.offset, fsiUnlink_of_refused ?_⟩
    unfold unlinkSearch
    rw [bind_run hprobed]
    dsimp only
    rw [if_neg (by decide), bind_run hlooked', if_pos hrc, ← hlast]
    rfl
  · have hread : getInode ((child : ℕ) : ℤ) frame.cnode looked =
        some (((inodeSize : ℤ), server.inodeRecord child),
          server.seek ((server.inodes child).toNat + inodeSize)) := by
      rw [hlast]
      exact getInode_run frame.cnode ((h.inodeIs hchild.1).seek looked.offset)
    obtain ⟨offset', hoffset⟩ := unlinkSearch_refused (by decide) hprobed hlooked'
      (Int.natCast_nonneg _) hread hchild.2 fun hsize ↦ by
        obtain ⟨hfirst, hlive⟩ := hfull.resolve_left (not_lt.mpr hsize)
        obtain ⟨hpos, hfits⟩ := h.direct_fits hchild.1 hfirst
        have hholds : BlockAt (server.seek ((server.inodes child).toNat + inodeSize)).image
            ((server.inodeRecord child).direct 0).toNat (server.dirBlock child 0) :=
          ⟨hfits, fun _ _ ↦ rfl⟩
        obtain ⟨content, hblock, hcontent⟩ := getBlock_run frame.cdirBlocks hpos hholds
        exact ⟨_, _, hblock, (onlySelfAndParent_congr hcontent _ _).trans hlive⟩
    exact ⟨offset', fsiUnlink_of_refused hoffset⟩

/-! ## Refused creations -/

/-- All inode numbers are taken, or all slots of all blocks of the parent. -/
def NoPlace (server : Server) (dir : Fin 4096) : Prop :=
  (∀ i, server.inodes i ≠ -1) ∨ ∀ j, (server.inodeRecord dir).direct j ≠ -1 ∧
    ∀ slot < dirEntries, entryInum (server.dirBlock dir j) slot ≠ -1

/-- `fsi_creat` has no parent, no fitting name, or no place and nothing to unlink. -/
def CreatRefused (server : Server) (dir : Fin 4096) (name : CString) : Prop :=
  server.inodes dir = -1 ∨ ¬ name.Fits ∨ NoPlace server dir ∧
    ((∀ frame rc next, fsiLookup ((dir : ℕ) : ℤ) name frame server = some (rc, next) → rc ≤ 0) ∨
      UnlinkRefused server dir name)

theorem NoPlace.run (hplace : NoPlace server dir) (h : Logged server)
    (hdir : server.inodes dir ≠ -1) (dirBlock : Store) (offset : ℕ) :
    ∃ offset', creatPlace (server.inodeRecord dir) name dirBlock (server.seek offset) =
      some (none, server.seek offset') := by
  obtain ⟨place, final, hrun, hfirst⟩ :=
    creatPlace_run (server.seek offset) (server.inodeRecord dir) name dirBlock
  have hfinal : final = (server.seek offset).seek final.offset :=
    readOnly_creatPlace _ _ _ _ _ _ hrun
  cases place with
  | none => exact ⟨final.offset, hrun.trans (congrArg (fun last ↦ some (none, last)) hfinal)⟩
  | some plan =>
    obtain ⟨-, hfree, slot, content, hslot, -⟩ := creatPlace_cases hrun
    rcases hplace with hinodes | hslots
    · exact absurd hfree (hinodes plan.inum)
    · obtain ⟨hwritten, htaken⟩ := hslots plan.foundBlock
      obtain ⟨hnonneg, hfits⟩ := h.direct_fits hdir hwritten
      have hcontent : AgreeOn content (server.dirBlock dir plan.foundBlock) 0 lfsBlockSize :=
        hslot.free_in_log hnonneg hfits
      apply absurd hslot.free
      rw [entryInum_congr (AgreeOn.slot hcontent hslot.lt)]
      exact htaken slot hslot.lt

/-- What `fsi_creat` does with the name it has found, if it does not unlink it. -/
theorem creatReplace_unchanged {found : ℤ} (frame : UnlinkFrame) (h : Logged server)
    (hfound : found ≤ 0 ∨ UnlinkRefused server dir name) (offset : ℕ) :
    ∃ offset', creatReplace ((dir : ℕ) : ℤ) name frame found (server.seek offset) =
      some ((), server.seek offset') := by
  by_cases hpositive : found > 0
  · obtain ⟨offset', hunlink⟩ := (hfound.resolve_left (by omega)).run h frame offset
    refine ⟨offset', ?_⟩
    unfold creatReplace
    rw [if_pos hpositive, bind_run hunlink]
    rfl
  · exact ⟨offset, creatReplace_absent hpositive⟩

/-- The start of `fsi_creat`, from any file offset. -/
theorem Logged.creatProbe_run (h : Logged server) (hdir : server.inodes dir ≠ -1)
    (hname : name.Fits) (frame : CreatFrame) (offset : ℕ) :
    ∃ rc next offset', fsiLookup ((dir : ℕ) : ℤ) name frame.lookup server = some (rc, next) ∧
      creatProbe ((dir : ℕ) : ℤ) name frame (server.seek offset) =
        some (some (server.inodeRecord dir, rc), server.seek offset') := by
  have hnode := h.inodeIs hdir
  obtain ⟨rc, looked, hlooked⟩ := total_fsiLookup dir name frame.lookup server
  have hlast : looked = server.seek looked.offset := readOnly_fsiLookup _ _ _ _ _ _ hlooked
  have hlooked' : fsiLookup ((dir : ℕ) : ℤ) name frame.lookup
      ((server.seek offset).seek (((server.seek offset).inodes dir).toNat + inodeSize)) =
        some (rc, looked) :=
    (fsiLookup_seek hnode name frame.lookup _).trans hlooked
  refine ⟨rc, looked, looked.offset, hlooked, ?_⟩
  rw [LFS.creatProbe_run (hnode.seek offset) hname hlooked', ← hlast]

/-- A refused creation moves the file offset only. -/
theorem CreatRefused.run (hrefused : CreatRefused server dir name) (h : Logged server)
    (type : Word) (frame : CreatFrame) (offset : ℕ) :
    ∃ offset', fsiCreat ((dir : ℕ) : ℤ) type name frame (server.seek offset) =
      some (-1, server.seek offset') := by
  have hearly {offset' : ℕ} (hprobe : creatProbe ((dir : ℕ) : ℤ) name frame (server.seek offset) =
      some (none, server.seek offset')) : fsiCreat ((dir : ℕ) : ℤ) type name frame
        (server.seek offset) = some (-1, server.seek offset') := by
    unfold fsiCreat
    rw [bind_run hprobe]
    rfl
  by_cases hdir : server.inodes dir = -1
  · refine ⟨offset, hearly ?_⟩
    have hdir' : (server.seek offset).inodes dir = -1 := hdir
    unfold creatProbe
    rw [bind_run (getInode_unallocated frame.pnode hdir')]
    rfl
  by_cases hname : name.Fits
  · obtain ⟨hplace, hfound⟩ := (hrefused.resolve_left hdir).resolve_left (not_not.mpr hname)
    obtain ⟨rc, looked, probed, hlooked, hprobe⟩ := h.creatProbe_run hdir hname frame offset
    have hrc : rc ≤ 0 ∨ UnlinkRefused server dir name :=
      hfound.imp_left fun hall ↦ hall frame.lookup rc looked hlooked
    obtain ⟨replaced, hreplace⟩ := creatReplace_unchanged frame.unlink h hrc probed
    obtain ⟨placed, hplaced⟩ := hplace.run h hdir frame.dirBlock replaced
    exact ⟨placed, fsiCreat_eq type hprobe hreplace hplaced⟩
  · refine ⟨(server.inodes dir).toNat + inodeSize, hearly ?_⟩
    have hlong : name.chars.length > 27 := not_le.mp hname
    unfold creatProbe
    rw [bind_run (getInode_run frame.pnode ((h.inodeIs hdir).seek offset))]
    dsimp only
    rw [if_neg (by decide), if_pos hlong]
    rfl

/-! ## Removals made twice in a tree -/

/-- What `fsi_lookup` finds under the name stands in the directory's own block. -/
def OwnBlock (server : Server) (dir : Fin 4096) (name : CString) : Prop :=
  ∀ frame rc next, fsiLookup ((dir : ℕ) : ℤ) name frame server = some (rc, next) → 0 ≤ rc →
    ∃ slot < dirEntries, entryNamed (server.dirBlock dir 0) name slot = true

/-- In a tree a name stands for nothing, for a directory, or for an entry that is no directory. -/
theorem Tree.lookup_cases (h : Tree server forest) (hdir : IsDirectory server dir)
    (hname : name.Fits) (hown : OwnBlock server dir name) :
    (∀ frame rc next, fsiLookup ((dir : ℕ) : ℤ) name frame server = some (rc, next) → rc < 0) ∨
    (∃ child, IsDirectory server child ∧ ∀ frame rc next,
      fsiLookup ((dir : ℕ) : ℤ) name frame server = some (rc, next) → rc = ((child : ℕ) : ℤ)) ∨
    ∃ slot child, forest.Names dirEntries dir slot child ∧ forest.named dir slot name ∧
      ¬ IsDirectory server child := by
  by_cases hentry : ∃ slot < dirEntries, entryNamed (server.dirBlock dir 0) name slot = true
  · obtain ⟨hit, hhit, hnamed⟩ := hentry
    obtain ⟨slot, hslot, -⟩ := Scan.exists_first_of_hit hhit hnamed
    obtain ⟨hlt, hfirst, -⟩ := Scan.first_eq_some_iff.mp hslot
    have hfound := h.fsiLookup_present hdir hname hslot
    have hdirectory := (h.shows.directory dir).mpr hdir
    cases htarget : forest.target dir slot with
    | none =>
      left
      intro frame rc next hlookup
      cases hlookup.symm.trans (hfound frame)
      rw [htarget]
      decide
    | some child =>
      right
      by_cases hchild : IsDirectory server child
      · left
        refine ⟨child, hchild, fun frame rc next hlookup ↦ ?_⟩
        cases hlookup.symm.trans (hfound frame)
        rw [htarget, encodeTarget, toInt_ofNat_fin]
      · right
        refine ⟨slot, child, ⟨hdirectory, ?_, hlt, htarget⟩,
          (h.shows.named dir hdir slot hlt name).mpr ⟨hname, hfirst⟩, hchild⟩
        -- The first two slots are for directories.
        by_contra hlow
        apply hchild
        rw [← h.shows.directory]
        rcases Nat.lt_or_ge slot 1 with hzero | hone
        · rw [Nat.lt_one_iff.mp hzero, (h.valid.self_entry dir hdirectory).2] at htarget
          cases htarget
          exact hdirectory
        · obtain ⟨-, above, habove, haboveDir⟩ := h.valid.parent_entry dir hdirectory
          have hslotOne : slot = 1 := by omega
          rw [hslotOne, habove] at htarget
          cases htarget
          exact haboveDir
  · left
    intro frame rc next hlookup
    by_contra hrc
    exact hentry (hown frame rc next hlookup (not_lt.mp hrc))

/-- A directory of the tree is never taken for empty. -/
theorem Tree.unlinkRefused (h : Tree server forest) (hchild : IsDirectory server child)
    (hfound : ∀ frame rc next, fsiLookup ((dir : ℕ) : ℤ) name frame server = some (rc, next) →
      rc = ((child : ℕ) : ℤ)) : UnlinkRefused server dir name := by
  intro _ frame rc next hlookup
  right
  refine ⟨child, hfound frame rc next hlookup, hchild, Or.inr ⟨?_, ?_⟩⟩
  · exact ne_neg_one_of_toNat_lt (h.laid.direct_lt hchild)
  · exact h.onlySelfAndParent_eq_false hchild (fun _ _ _ ↦ rfl) _

/-- The second removal of a file finds its name with no inode. -/
theorem Tree.fsiUnlink_twice (h : Tree server forest) (hroom : HasRoom server)
    (hnames : forest.Names dirEntries dir slot child) (hnamed : forest.named dir slot name)
    (hname : name.Fits) (hfile : ¬ IsDirectory server child) (frame frame' : UnlinkFrame) :
    ∃ once twice, fsiUnlink ((dir : ℕ) : ℤ) name frame server = some (0, once) ∧
      fsiUnlink ((dir : ℕ) : ℤ) name frame' once = some (-1, twice) := by
  obtain ⟨once, offset, honce, hremoved⟩ := h.fsiUnlink_file hroom hnames hnamed hname hfile frame
  have hdir := (h.shows.directory dir).mp hnames.directory
  have hafter := (h.seek offset).remove hremoved hnames hfile
  obtain ⟨found, hfound, hparent⟩ := hremoved.parent_entry
  have hslot : Scan.first (entryNamed (once.dirBlock dir 0) name) dirEntries = some slot := by
    rw [← h.first_named hnames hnamed]
    apply Scan.first_congr
    intro k hk
    rw [hparent.entryNamed_eq hk hname, entryNamed_setEntryInum _ hname,
      entryNamed_congr hname ((AgreeOn.slot hfound hk).mono le_rfl (by omega))]
    rfl
  have hlookup := hafter.fsiLookup_present hparent.directory hname hslot frame'.lookup
  have htarget : (forest.remove dir slot child).target dir slot = none := if_pos ⟨rfl, rfl⟩
  rw [htarget] at hlookup
  exact ⟨once, _, honce, fsiUnlink_absent (hafter.laid.inodeIs hparent.directory.1) hlookup
    (by decide)⟩

/-! ## Creations made twice in a tree -/

theorem Tree.holdsOther (h : Tree server forest) (dir : Fin 4096) : HoldsOther server dir := by
  intro hdir
  obtain ⟨slot, hslot⟩ := h.first_free hdir
  obtain ⟨hlt, hfree, -⟩ := Scan.first_eq_some_iff.mp hslot
  refine ⟨ne_neg_one_of_toNat_lt (h.laid.direct_lt hdir), slot, hlt, ?_⟩
  rw [of_decide_eq_true hfree]
  exact (ofNat_fin_ne_neg_one dir).symm

/-- A creation that unlinks nothing and for which there is an inode goes through. -/
theorem Tree.fsiCreat_placed (h : Tree server forest) (hspace : Appendable server 12608)
    (hdir : IsDirectory server dir) {frame : CreatFrame} {rc : ℤ} {probed replaced : ℕ}
    (hprobe : creatProbe ((dir : ℕ) : ℤ) name frame server =
      some (some (server.inodeRecord dir, rc), server.seek probed))
    (hreplace : creatReplace ((dir : ℕ) : ℤ) name frame.unlink rc (server.seek probed) =
      some ((), server.seek replaced)) {i : Fin 4096} (hfree : server.inodes i = -1)
    (type : Word) : ∃ next, fsiCreat ((dir : ℕ) : ℤ) type name frame server = some (0, next) := by
  obtain ⟨inum, hinum, hle⟩ : ∃ inum, Scan.first (inodeFree server.inodes) 4096 = some inum ∧
      inum ≤ (i : ℕ) := by
    apply Scan.exists_first_of_hit i.isLt
    rw [inodeFree, dif_pos i.isLt, decide_eq_true_iff]
    exact hfree
  obtain ⟨fresh, rfl⟩ : ∃ fresh : Fin 4096, (fresh : ℕ) = inum :=
    ⟨⟨inum, hle.trans_lt i.isLt⟩, rfl⟩
  have hne : fresh ≠ dir := fun heq ↦ hdir.1 (heq ▸ inodeFree_first hinum)
  obtain ⟨slot, hslot⟩ := h.first_free hdir
  obtain ⟨found, hblock, hfound⟩ := h.laid.getBlock_first hdir frame.dirBlock replaced
  have hinum' : Scan.first (inodeFree (server.seek replaced).inodes) 4096 = some (fresh : ℕ) :=
    hinum
  have hplan := creatPlace_found name hinum' hblock (by decide)
    ((first_free_congr hfound).trans hslot)
  have hspace' : Appendable (server.seek (((server.inodeRecord dir).direct 0).toNat + lfsBlockSize))
      8384 := (hspace.mono (by decide)).seek _
  let plan : CreatPlan :=
    ⟨server.inodeRecord dir, fresh, setEntry found slot name (BitVec.ofNat 32 fresh), 0⟩
  have hne' : plan.inum ≠ dir := hne
  obtain ⟨final, hfinal, -⟩ := creatCommit_committed hspace' hne' type frame.childDirBlock
  exact ⟨final, (fsiCreat_eq type hprobe hreplace hplan).trans hfinal⟩

/-- In a directory of the tree a creation is refused, or it goes through. -/
theorem Tree.creatRefused_or (h : Tree server forest) (hlogged : Logged server)
    (hspace : Appendable server 16768) (hdir : IsDirectory server dir) (hname : name.Fits)
    (hown : OwnBlock server dir name) :
    CreatRefused server dir name ∨ ∀ type frame, ∃ next,
      fsiCreat ((dir : ℕ) : ℤ) type name frame server = some (0, next) := by
  have hkept (hunlink : (∀ frame rc next,
      fsiLookup ((dir : ℕ) : ℤ) name frame server = some (rc, next) → rc ≤ 0) ∨
        UnlinkRefused server dir name) :
      CreatRefused server dir name ∨ ∀ type frame, ∃ next,
        fsiCreat ((dir : ℕ) : ℤ) type name frame server = some (0, next) := by
    by_cases hinodes : ∀ i, server.inodes i ≠ -1
    · exact Or.inl (Or.inr (Or.inr ⟨Or.inl hinodes, hunlink⟩))
    · right
      intro type frame
      obtain ⟨i, hi⟩ := not_forall.mp hinodes
      obtain ⟨rc, looked, probed, hlooked, hprobe⟩ :=
        hlogged.creatProbe_run hdir.1 hname frame server.offset
      have hrc := hunlink.imp_left fun hall ↦ hall frame.lookup rc looked hlooked
      obtain ⟨replaced, hreplace⟩ :=
        creatReplace_unchanged frame.unlink hlogged hrc probed
      exact h.fsiCreat_placed (hspace.mono (by decide)) hdir hprobe hreplace (not_not.mp hi) type
  rcases h.lookup_cases hdir hname hown with
    habsent | ⟨child, hchild, hfound⟩ | ⟨slot, child, hnames, hnamed, hfile⟩
  · exact hkept (Or.inl fun frame rc next hlookup ↦ (habsent frame rc next hlookup).le)
  · exact hkept (Or.inr (h.unlinkRefused hchild hfound))
  · right
    intro type frame
    obtain ⟨next, hnext, -⟩ :=
      h.fsiCreat_existing hspace.room hnames hnamed hname hfile type frame
    exact ⟨next, hnext⟩

/-- A creation that goes through does not show the same files, or the same answer, when it is made
twice. -/
theorem fsiCreat_twice {type : Word} {frame frame' : CreatFrame} {once twice : Server} {rc : ℤ}
    (hspace : Appendable server 25216)
    (hlogged : server.inodes dir ≠ -1 → InodeLogged server dir) (hother : HoldsOther server dir)
    (hfirst : fsiCreat ((dir : ℕ) : ℤ) type name frame server = some (0, once))
    (hsecond : fsiCreat ((dir : ℕ) : ℤ) type name frame' once = some (rc, twice)) :
    rc = -1 ∨ ¬ SameFiles once twice := by
  have honce : Entered once server dir := by
    rcases fsiCreat_cases (hspace.mono (by decide)) hlogged hother hfirst with hrc | ⟨-, hentered⟩
    · cases hrc
    · exact hentered
  have hroom := hspace.room
  have hend := honce.end_high
  have hspace' : Appendable once 12608 := ⟨honce.full, honce.low, honce.end_le, by omega⟩
  rcases fsiCreat_cases hspace' (fun _ ↦ honce.logged) honce.other hsecond with hrc | ⟨-, htwice⟩
  · exact Or.inl hrc
  · have hend' := htwice.end_high
    have hlast : Appendable twice 0 := ⟨htwice.full, htwice.low, htwice.end_le, by omega⟩
    exact Or.inr (htwice.not_sameFiles hspace' hlast fun _ ↦ honce.logged)

end OS537.LFS
