import OS537.LFS.Tree

/-!
# Calls that keep the directory tree

One creation and one removal, first as changes of the log: the records of the parent and of the
child are new, everything else the checkpoint reaches stays. On the forest a server shows these
are `Forest.create` and `Forest.remove`. The searches of the code are related to the forest by the
fact that the name of an entry does not stand before it in its directory.
-/

namespace OS537.LFS

open Bytes Code Posix Run

variable {server next : Server} {forest : Forest (Fin 4096) CString}

/-! ## Records that stay -/

/-- The log of `next` continues that of `server`. -/
structure Extends (next server : Server) : Prop where
  agree : AgreeOn next.image.bytes server.image.bytes crSize server.cr.endPos.toNat
  end_le : server.cr.endPos.toNat ≤ next.cr.endPos.toNat

theorem InLog.extend {pos : Word} {n : ℕ} (h : InLog server pos n) (hext : Extends next server) :
    InLog next pos n :=
  ⟨h.1, h.2.trans hext.end_le⟩

theorem Extends.inodeRecord_eq (hext : Extends next server) {i : Fin 4096}
    (hinodes : next.inodes i = server.inodes i) (hlog : InLog server (server.inodes i) inodeSize) :
    next.inodeRecord i = server.inodeRecord i := by
  unfold Server.inodeRecord
  rw [hinodes]
  apply Inode.ofBytes_congr
  intro j hj
  have hlow := hlog.1
  have hhigh := hlog.2
  exact hext.agree _ (by omega) (by omega)

theorem Extends.isDirectory_iff (hext : Extends next server) (hlaid : Laid server) {i : Fin 4096}
    (hinodes : next.inodes i = server.inodes i) :
    IsDirectory next i ↔ IsDirectory server i := by
  unfold IsDirectory
  rw [hinodes]
  constructor
  · rintro ⟨hne, htype⟩
    rw [hext.inodeRecord_eq hinodes (hlaid.node i hne)] at htype
    exact ⟨hne, htype⟩
  · rintro ⟨hne, htype⟩
    rw [hext.inodeRecord_eq hinodes (hlaid.node i hne)]
    exact ⟨hne, htype⟩

/-- The inode is a directory of one block, whose contents are given. -/
structure DirectoryIs (server : Server) (dir : Fin 4096) (content : Store) : Prop where
  directory : IsDirectory server dir
  node : InLog server (server.inodes dir) inodeSize
  block : InLog server ((server.inodeRecord dir).direct 0) lfsBlockSize
  one_block : ∀ j, j ≠ 0 → (server.inodeRecord dir).direct j = -1
  content : AgreeOn (server.dirBlock dir 0) content 0 lfsBlockSize

theorem Laid.directoryIs (h : Laid server) {dir : Fin 4096} (hdir : IsDirectory server dir) :
    DirectoryIs server dir (server.dirBlock dir 0) where
  directory := hdir
  node := h.node dir hdir.1
  block := h.block dir hdir
  one_block := h.one_block dir hdir
  content := fun _ _ _ ↦ rfl

theorem DirectoryIs.extend {dir : Fin 4096} {content : Store} (h : DirectoryIs server dir content)
    (hext : Extends next server) (hinodes : next.inodes dir = server.inodes dir) :
    DirectoryIs next dir content := by
  have hrecord := hext.inodeRecord_eq hinodes h.node
  have hlow := h.block.1
  have hhigh := h.block.2
  constructor
  case directory =>
    unfold IsDirectory
    rw [hinodes, hrecord]
    exact h.directory
  case node =>
    rw [hinodes]
    exact h.node.extend hext
  case block =>
    rw [hrecord]
    exact h.block.extend hext
  case one_block =>
    rw [hrecord]
    exact h.one_block
  case content =>
    intro i hi hlt
    rw [← h.content i hi hlt]
    unfold Server.dirBlock
    rw [hrecord]
    exact hext.agree _ (by omega) (by omega)

/-- A directory whose inode and block have just been written. -/
theorem DirectoryIs.of_records {dir : Fin 4096} (node : Inode) {content : Store}
    (hnode : InodeAt server.image (server.inodes dir).toNat node)
    (hlog : InLog server (server.inodes dir) inodeSize) (hend : server.cr.endPos.toNat < 2 ^ 31)
    (htype : node.type = lfsDirectory) (hone : ∀ j, j ≠ 0 → node.direct j = -1)
    (hblock : BlockAt server.image (node.direct 0).toNat content)
    (hblockLog : InLog server (node.direct 0) lfsBlockSize) : DirectoryIs server dir content := by
  have hrecord : server.inodeRecord dir = node := hnode.ofBytes_eq
  have hhigh := hlog.2
  constructor
  case directory =>
    refine ⟨ne_neg_one_of_toNat_lt (by omega), ?_⟩
    rw [hrecord, htype]
  case node => exact hlog
  case block => rwa [hrecord]
  case one_block => rwa [hrecord]
  case content =>
    intro i _ hi
    unfold Server.dirBlock
    rw [hrecord]
    exact hblock.bytes i hi

theorem DirectoryIs.entryInum_eq {dir : Fin 4096} {content : Store}
    (h : DirectoryIs server dir content) {slot : ℕ} (hslot : slot < dirEntries) :
    entryInum (server.dirBlock dir 0) slot = entryInum content slot :=
  entryInum_congr (AgreeOn.slot h.content hslot)

theorem DirectoryIs.entryNamed_eq {dir : Fin 4096} {content : Store}
    (h : DirectoryIs server dir content) {slot : ℕ} (hslot : slot < dirEntries) {name : CString}
    (hname : name.Fits) :
    entryNamed (server.dirBlock dir 0) name slot = entryNamed content name slot :=
  entryNamed_congr hname ((AgreeOn.slot h.content hslot).mono le_rfl (by omega))

/-! ## A creation on the forest -/

/-- The names that the slots of a block carry. -/
def slotNames (dirBlock : Store) : ℕ → CString → Prop :=
  fun slot name ↦ name.Fits ∧ entryNamed dirBlock name slot = true

theorem slotNames_unique (dirBlock : Store) (slot : ℕ) (first second : CString)
    (hfirst : slotNames dirBlock slot first) (hsecond : slotNames dirBlock slot second) :
    first = second :=
  strcmpEq_unique hfirst.2 hsecond.2

/-- What `fsi_creat` does to the records: the parent has the block `found` with the new entry, and
the child is there. -/
structure Created (next server : Server) (parent child : Fin 4096) (slot : ℕ) (name : CString)
    (type : Word) (found junkBlock : Store) : Prop where
  running : Running next
  end_lt : next.cr.endPos.toNat < 2 ^ 31
  end_le : next.cr.endPos.toNat ≤ server.cr.endPos.toNat + 8384
  extend : Extends next server
  other : ∀ i, i ≠ parent → i ≠ child → next.inodes i = server.inodes i
  parent_entry : DirectoryIs next parent (setEntry found slot name (BitVec.ofNat 32 child))
  child_node : InLog next (next.inodes child) inodeSize
  child_type : (next.inodeRecord child).type = type
  child_directory : type = lfsDirectory → DirectoryIs next child
    (childBlock junkBlock (BitVec.ofNat 32 child) (BitVec.ofNat 32 parent))

variable {parent child : Fin 4096} {slot : ℕ} {name : CString} {type : Word}
  {found junkBlock : Store}

/-- The forest after a creation. -/
abbrev createdForest (forest : Forest (Fin 4096) CString) (parent child : Fin 4096) (slot : ℕ)
    (name : CString) (type : Word) (junkBlock : Store) : Forest (Fin 4096) CString :=
  forest.create dot dotDot parent slot name child (decide (type = lfsDirectory))
    (slotNames junkBlock)

theorem Created.isDirectory_child
    (h : Created next server parent child slot name type found junkBlock) :
    IsDirectory next child ↔ type = lfsDirectory := by
  have hhigh := h.child_node.2
  have hend := h.end_lt
  unfold IsDirectory
  rw [h.child_type]
  exact and_iff_right (ne_neg_one_of_toNat_lt (by omega))

theorem Created.isDirectory_iff
    (h : Created next server parent child slot name type found junkBlock)
    (hlaid : Laid server) (hparent : IsDirectory server parent) {dir : Fin 4096}
    (hdir : dir ≠ child) : IsDirectory next dir ↔ IsDirectory server dir := by
  by_cases heq : dir = parent
  · rw [heq]
    exact iff_of_true h.parent_entry.directory hparent
  · exact h.extend.isDirectory_iff hlaid (h.other dir heq hdir)

theorem Created.laid (h : Created next server parent child slot name type found junkBlock)
    (hlaid : Laid server) (hparent : IsDirectory server parent)
    (hchild : (child : ℕ) < imapChunkSize) : Laid next := by
  have hdirs (dir : Fin 4096) (hdir : IsDirectory next dir) :
      ∃ content, DirectoryIs next dir content := by
    by_cases hnew : dir = child
    · rw [hnew] at hdir ⊢
      exact ⟨_, h.child_directory (h.isDirectory_child.mp hdir)⟩
    · by_cases heq : dir = parent
      · rw [heq]
        exact ⟨_, h.parent_entry⟩
      · have hold := (h.isDirectory_iff hlaid hparent hnew).mp hdir
        exact ⟨_, (hlaid.directoryIs hold).extend h.extend (h.other dir heq hnew)⟩
  constructor
  case running => exact h.running
  case end_lt => exact h.end_lt
  case below =>
    intro i hi
    by_cases hnew : i = child
    · rwa [hnew]
    · by_cases heq : i = parent
      · rw [heq]
        exact hlaid.below parent hparent.1
      · rw [h.other i heq hnew] at hi
        exact hlaid.below i hi
  case node =>
    intro i hi
    by_cases hnew : i = child
    · rw [hnew]
      exact h.child_node
    · by_cases heq : i = parent
      · rw [heq]
        exact h.parent_entry.node
      · rw [h.other i heq hnew] at hi ⊢
        exact (hlaid.node i hi).extend h.extend
  case block =>
    intro dir hdir
    obtain ⟨content, hcontent⟩ := hdirs dir hdir
    exact hcontent.block
  case one_block =>
    intro dir hdir
    obtain ⟨content, hcontent⟩ := hdirs dir hdir
    exact hcontent.one_block

/-- The entries of the parent after the creation. -/
theorem Created.parent_entries (h : Created next server parent child slot name type found junkBlock)
    (hfound : AgreeOn found (server.dirBlock parent 0) 0 lfsBlockSize)
    (hname : name.Fits) (hne : parent ≠ child) (hparent : IsDirectory server parent)
    (hshows : Shows server forest) {t : ℕ} (ht : t < dirEntries) :
    entryInum (next.dirBlock parent 0) t =
        encodeTarget
          ((createdForest forest parent child slot name type junkBlock).target parent t) ∧
      ∀ other, (createdForest forest parent child slot name type junkBlock).named parent t other ↔
        other.Fits ∧ entryNamed (next.dirBlock parent 0) other t = true := by
  have hdirectory := h.parent_entry
  have hslot := AgreeOn.slot hfound ht
  rw [hdirectory.entryInum_eq ht]
  by_cases heq : t = slot
  · subst heq
    rw [Forest.create_target_here hne, entryInum_setEntry_same]
    refine ⟨rfl, fun other ↦ ?_⟩
    rw [Forest.create_named_here hne]
    constructor
    · rintro rfl
      rw [hdirectory.entryNamed_eq ht hname, entryNamed_setEntry_same _ _ hname]
      exact ⟨hname, rfl⟩
    · rintro ⟨hfits, hnamed⟩
      rwa [hdirectory.entryNamed_eq ht hfits, entryNamed_setEntry_same _ _ hfits] at hnamed
  · have hplace : ¬ (parent = parent ∧ t = slot) := fun hboth ↦ heq hboth.2
    rw [Forest.create_target_other hne hplace, entryInum_setEntry_other _ hname _ heq,
      entryInum_congr hslot]
    refine ⟨hshows.target parent hparent t ht, fun other ↦ ?_⟩
    rw [Forest.create_named_other hne hplace, hshows.named parent hparent t ht]
    apply and_congr_right
    intro hfits
    rw [hdirectory.entryNamed_eq ht hfits, entryNamed_setEntry_other _ hname hfits _ heq,
      entryNamed_congr hfits (hslot.mono le_rfl (by omega))]

/-- The entries of a new directory. -/
theorem Created.child_entries (h : Created next server parent child slot name type found junkBlock)
    (htype : type = lfsDirectory)
    (hjunk : ∀ t, 2 ≤ t → t < dirEntries → entryInum junkBlock t = -1) {t : ℕ}
    (ht : t < dirEntries) :
    entryInum (next.dirBlock child 0) t =
        encodeTarget ((createdForest forest parent child slot name type junkBlock).target child t) ∧
      ∀ other, (createdForest forest parent child slot name type junkBlock).named child t other ↔
        other.Fits ∧ entryNamed (next.dirBlock child 0) other t = true := by
  have hdirectory := h.child_directory htype
  rw [hdirectory.entryInum_eq ht]
  match t, ht with
  | 0, ht =>
    rw [Forest.create_target_self, entryInum_childBlock_self]
    refine ⟨rfl, fun other ↦ ?_⟩
    rw [Forest.create_named_self]
    constructor
    · rintro rfl
      rw [hdirectory.entryNamed_eq ht dot_fits, entryNamed_childBlock_self _ _ _ dot_fits]
      exact ⟨dot_fits, rfl⟩
    · rintro ⟨hfits, hnamed⟩
      rwa [hdirectory.entryNamed_eq ht hfits, entryNamed_childBlock_self _ _ _ hfits] at hnamed
  | 1, ht =>
    rw [Forest.create_target_parent, entryInum_childBlock_parent]
    refine ⟨rfl, fun other ↦ ?_⟩
    rw [Forest.create_named_parent]
    constructor
    · rintro rfl
      rw [hdirectory.entryNamed_eq ht dotDot_fits, entryNamed_childBlock_parent _ _ _ dotDot_fits]
      exact ⟨dotDot_fits, rfl⟩
    · rintro ⟨hfits, hnamed⟩
      rwa [hdirectory.entryNamed_eq ht hfits, entryNamed_childBlock_parent _ _ _ hfits] at hnamed
  | t + 2, ht =>
    have hlow : 2 ≤ t + 2 := Nat.le_add_left 2 t
    rw [Forest.create_target_new hlow, entryInum_childBlock_other _ _ _ hlow, hjunk _ hlow ht]
    refine ⟨rfl, fun other ↦ ?_⟩
    rw [Forest.create_named_new hlow]
    apply and_congr_right
    intro hfits
    rw [hdirectory.entryNamed_eq ht hfits, entryNamed_childBlock_other _ _ _ hfits hlow]

/-- A creation in a free place keeps the tree. -/
theorem Tree.create (htree : Tree server forest)
    (h : Created next server parent child slot name type found junkBlock)
    (hfound : AgreeOn found (server.dirBlock parent 0) 0 lfsBlockSize)
    (hplace : forest.Place dot dotDot dirEntries parent slot name child) (hname : name.Fits)
    (hchild : (child : ℕ) < imapChunkSize)
    (hjunk : type = lfsDirectory → ∀ t, 2 ≤ t → t < dirEntries → entryInum junkBlock t = -1) :
    Tree next (createdForest forest parent child slot name type junkBlock) := by
  have hlaid := htree.laid
  have hshows := htree.shows
  have hparent : IsDirectory server parent := (hshows.directory parent).mp hplace.directory
  have hne : parent ≠ child := by
    rintro rfl
    exact hplace.fresh ((hshows.allocated parent).mpr hparent.1)
  have hentries (dir : Fin 4096) (hdir : IsDirectory next dir) (t : ℕ) (ht : t < dirEntries) :
      entryInum (next.dirBlock dir 0) t =
          encodeTarget ((createdForest forest parent child slot name type junkBlock).target dir t) ∧
        ∀ other, (createdForest forest parent child slot name type junkBlock).named dir t other ↔
          other.Fits ∧ entryNamed (next.dirBlock dir 0) other t = true := by
    by_cases hnew : dir = child
    · rw [hnew] at hdir ⊢
      have htype := h.isDirectory_child.mp hdir
      exact h.child_entries htype (hjunk htype) ht
    · by_cases heq : dir = parent
      · rw [heq]
        exact h.parent_entries hfound hname hne hparent hshows ht
      · have hold := (h.isDirectory_iff hlaid hparent hnew).mp hdir
        have hplace' : ¬ (dir = parent ∧ t = slot) := fun hboth ↦ heq hboth.1
        have hcontent :=
          (hlaid.directoryIs hold).extend h.extend (h.other dir heq hnew)
        rw [hcontent.entryInum_eq ht, Forest.create_target_other hnew hplace']
        refine ⟨hshows.target dir hold t ht, fun other ↦ ?_⟩
        rw [Forest.create_named_other hnew hplace', hshows.named dir hold t ht]
        apply and_congr_right
        intro hfits
        rw [hcontent.entryNamed_eq ht hfits]
  refine ⟨h.laid hlaid hparent hchild, ⟨?_, ?_, ?_, ?_⟩,
    htree.valid.create hplace (slotNames_unique junkBlock)⟩
  · intro i
    have hhigh := h.child_node.2
    have hend := h.end_lt
    change i = child ∨ forest.allocated i ↔ _
    by_cases hnew : i = child
    · rw [hnew]
      exact iff_of_true (Or.inl rfl) (ne_neg_one_of_toNat_lt (by omega))
    · rw [or_iff_right hnew, hshows.allocated]
      by_cases heq : i = parent
      · rw [heq]
        exact iff_of_true hparent.1 h.parent_entry.directory.1
      · rw [h.other i heq hnew]
  · intro dir
    by_cases hnew : dir = child
    · rw [hnew, h.isDirectory_child]
      simp [Forest.create]
    · rw [Forest.create_directory_of_ne hnew, hshows.directory,
        h.isDirectory_iff hlaid hparent hnew]
  · exact fun dir hdir t ht ↦ (hentries dir hdir t ht).1
  · exact fun dir hdir t ht ↦ (hentries dir hdir t ht).2

/-! ## A removal on the forest -/

/-- What `fsi_unlink` does to the records: the slot of the parent is free, and the child gone. -/
structure Removed (next server : Server) (parent child : Fin 4096) (slot : ℕ) : Prop where
  running : Running next
  end_lt : next.cr.endPos.toNat < 2 ^ 31
  end_le : next.cr.endPos.toNat ≤ server.cr.endPos.toNat + 4224
  extend : Extends next server
  other : ∀ i, i ≠ parent → i ≠ child → next.inodes i = server.inodes i
  parent_entry : ∃ found, AgreeOn found (server.dirBlock parent 0) 0 lfsBlockSize ∧
    DirectoryIs next parent (setEntryInum found slot (-1))
  child : next.inodes child = -1

theorem Removed.parent_entries (h : Removed next server parent child slot)
    (hparent : IsDirectory server parent) (hshows : Shows server forest) {t : ℕ}
    (ht : t < dirEntries) :
    entryInum (next.dirBlock parent 0) t =
        encodeTarget ((forest.remove parent slot child).target parent t) ∧
      ∀ other, (forest.remove parent slot child).named parent t other ↔
        other.Fits ∧ entryNamed (next.dirBlock parent 0) other t = true := by
  obtain ⟨found, hfound, hdirectory⟩ := h.parent_entry
  have hslot := AgreeOn.slot hfound ht
  rw [hdirectory.entryInum_eq ht]
  constructor
  · by_cases heq : t = slot
    · rw [heq, entryInum_setEntryInum_same]
      exact (encodeTarget_eq_neg_one.mpr (if_pos ⟨rfl, rfl⟩)).symm
    · rw [Forest.remove_target_other (fun hboth ↦ heq hboth.2),
        entryInum_setEntryInum_other _ _ heq, entryInum_congr hslot]
      exact hshows.target parent hparent t ht
  · intro other
    change forest.named parent t other ↔ _
    rw [hshows.named parent hparent t ht]
    apply and_congr_right
    intro hfits
    rw [hdirectory.entryNamed_eq ht hfits, entryNamed_setEntryInum _ hfits,
      entryNamed_congr hfits (hslot.mono le_rfl (by omega))]

theorem Removed.isDirectory_iff (h : Removed next server parent child slot)
    (hlaid : Laid server) (hparent : IsDirectory server parent)
    (hfile : ¬ IsDirectory server child) {dir : Fin 4096} :
    IsDirectory next dir ↔ IsDirectory server dir := by
  by_cases hgone : dir = child
  · rw [hgone]
    exact iff_of_false (fun hdir ↦ hdir.1 h.child) hfile
  · by_cases heq : dir = parent
    · obtain ⟨found, -, hdirectory⟩ := h.parent_entry
      rw [heq]
      exact iff_of_true hdirectory.directory hparent
    · exact h.extend.isDirectory_iff hlaid (h.other dir heq hgone)

theorem Removed.laid (h : Removed next server parent child slot) (hlaid : Laid server)
    (hparent : IsDirectory server parent) (hfile : ¬ IsDirectory server child) : Laid next := by
  have hdirs (dir : Fin 4096) (hdir : IsDirectory next dir) :
      ∃ content, DirectoryIs next dir content := by
    have hold := (h.isDirectory_iff hlaid hparent hfile).mp hdir
    by_cases heq : dir = parent
    · obtain ⟨found, -, hdirectory⟩ := h.parent_entry
      rw [heq]
      exact ⟨_, hdirectory⟩
    · have hne : dir ≠ child := fun hgone ↦ hfile (hgone ▸ hold)
      exact ⟨_, (hlaid.directoryIs hold).extend h.extend (h.other dir heq hne)⟩
  have hkept {i : Fin 4096} (hi : next.inodes i ≠ -1) : i ≠ child := by
    rintro rfl
    exact hi h.child
  constructor
  case running => exact h.running
  case end_lt => exact h.end_lt
  case below =>
    intro i hi
    by_cases heq : i = parent
    · rw [heq]
      exact hlaid.below parent hparent.1
    · rw [h.other i heq (hkept hi)] at hi
      exact hlaid.below i hi
  case node =>
    intro i hi
    by_cases heq : i = parent
    · obtain ⟨found, -, hdirectory⟩ := h.parent_entry
      rw [heq]
      exact hdirectory.node
    · have hne := hkept hi
      rw [h.other i heq hne] at hi ⊢
      exact (hlaid.node i hi).extend h.extend
  case block =>
    intro dir hdir
    obtain ⟨content, hcontent⟩ := hdirs dir hdir
    exact hcontent.block
  case one_block =>
    intro dir hdir
    obtain ⟨content, hcontent⟩ := hdirs dir hdir
    exact hcontent.one_block

/-- The removal of an object that is not a directory keeps the tree. -/
theorem Tree.remove (htree : Tree server forest) (h : Removed next server parent child slot)
    (hnames : forest.Names dirEntries parent slot child) (hfile : ¬ IsDirectory server child) :
    Tree next (forest.remove parent slot child) := by
  have hlaid := htree.laid
  have hshows := htree.shows
  have hparent : IsDirectory server parent := (hshows.directory parent).mp hnames.directory
  have hentries (dir : Fin 4096) (hdir : IsDirectory next dir) (t : ℕ) (ht : t < dirEntries) :
      entryInum (next.dirBlock dir 0) t =
          encodeTarget ((forest.remove parent slot child).target dir t) ∧
        ∀ other, (forest.remove parent slot child).named dir t other ↔
          other.Fits ∧ entryNamed (next.dirBlock dir 0) other t = true := by
    by_cases heq : dir = parent
    · rw [heq]
      exact h.parent_entries hparent hshows ht
    · have hold := (h.isDirectory_iff hlaid hparent hfile).mp hdir
      have hne : dir ≠ child := fun hgone ↦ hfile (hgone ▸ hold)
      have hcontent := (hlaid.directoryIs hold).extend h.extend (h.other dir heq hne)
      rw [hcontent.entryInum_eq ht, Forest.remove_target_other (fun hboth ↦ heq hboth.1)]
      refine ⟨hshows.target dir hold t ht, fun other ↦ ?_⟩
      change forest.named dir t other ↔ _
      rw [hshows.named dir hold t ht]
      apply and_congr_right
      intro hfits
      rw [hcontent.entryNamed_eq ht hfits]
  refine ⟨h.laid hlaid hparent hfile, ⟨?_, ?_, ?_, ?_⟩,
    htree.valid.remove hnames (mt (hshows.directory child).mp hfile)⟩
  · intro i
    change i ≠ child ∧ forest.allocated i ↔ _
    by_cases hgone : i = child
    · rw [hgone]
      exact iff_of_false (fun hboth ↦ hboth.1 rfl) (not_not.mpr h.child)
    · rw [and_iff_right hgone, hshows.allocated]
      by_cases heq : i = parent
      · obtain ⟨found, -, hdirectory⟩ := h.parent_entry
        rw [heq]
        exact iff_of_true hparent.1 hdirectory.directory.1
      · rw [h.other i heq hgone]
  · intro dir
    change forest.directory dir ↔ _
    rw [hshows.directory, h.isDirectory_iff hlaid hparent hfile]
  · exact fun dir hdir t ht ↦ (hentries dir hdir t ht).1
  · exact fun dir hdir t ht ↦ (hentries dir hdir t ht).2

end OS537.LFS
