import OS537.Base.Forest
import OS537.LFS.Runs

/-!
# The directory tree

The entries of the directories of a server, and the invariant of the tree they form: a name
denotes one entry of its directory, an entry denotes an allocated inode, and an inode is denoted
by one entry. It is kept by calls that create a name which is not in use and that remove a name
which stands in the parent's own block.

The code does not keep it for every call. `fsi_creat` of a name that exists unlinks the old entry
and then puts the new one into the parent as it was before; a new directory starts with whatever
the stack contains; and the search of a block that is not allocated reads, after a failed `lseek`,
what happens to follow the last block in the log.
-/

namespace OS537.LFS

open Bytes Code Posix Run

variable {server : Server}

/-! ## Entries -/

/-- An allocated inode with the type of a directory. -/
def IsDirectory (server : Server) (i : Fin 4096) : Prop :=
  server.inodes i ≠ -1 ∧ (server.inodeRecord i).type = lfsDirectory

/-- A block of a directory as it stands in the log. -/
def Server.dirBlock (server : Server) (dir : Fin 4096) (block : Fin ndirect) : Store :=
  fun i ↦ server.image.bytes (((server.inodeRecord dir).direct block).toNat + i)

/-- A place for an entry. -/
structure Slot where
  dir : Fin 4096
  block : Fin ndirect
  index : Fin dirEntries

/-- The inode number in the slot. -/
def Slot.inum (server : Server) (slot : Slot) : Word :=
  entryInum (server.dirBlock slot.dir slot.block) slot.index

def Slot.Named (server : Server) (slot : Slot) (name : CString) : Prop :=
  entryNamed (server.dirBlock slot.dir slot.block) name slot.index = true

/-- The slot is in an allocated block of a directory and has an inode number other than -1. -/
structure Slot.Live (server : Server) (slot : Slot) : Prop where
  directory : IsDirectory server slot.dir
  block : (server.inodeRecord slot.dir).direct slot.block ≠ -1
  inum : slot.inum server ≠ -1

/-- The slot is an entry for the inode, other than "." and "..". -/
structure Slot.Denotes (server : Server) (slot : Slot) (i : Fin 4096) : Prop where
  live : slot.Live server
  inum : slot.inum server = BitVec.ofNat 32 i
  not_dot : ¬ slot.Named server dot
  not_dotDot : ¬ slot.Named server dotDot

/-- The invariant of the directory tree. -/
structure TreeInvariant (server : Server) : Prop where
  unique_name : ∀ first second : Slot, first.Live server → second.Live server →
    first.dir = second.dir → ∀ name, first.Named server name → second.Named server name →
      first = second
  allocated : ∀ slot : Slot, slot.Live server →
    ∃ i : Fin 4096, slot.inum server = BitVec.ofNat 32 i ∧ server.inodes i ≠ -1
  one_entry : ∀ i : Fin 4096, i ≠ 0 → server.inodes i ≠ -1 → ∃! slot : Slot, slot.Denotes server i

/-! ## The forest of a server -/

/-- The inode number that stands for an entry: -1 in a free slot. -/
def encodeTarget : Option (Fin 4096) → Word
  | none => -1
  | some i => BitVec.ofNat 32 i

theorem ofNat_fin_injective {i j : Fin 4096}
    (h : BitVec.ofNat 32 (i : ℕ) = BitVec.ofNat 32 (j : ℕ)) : i = j := by
  apply Fin.ext
  rw [← toNat_ofNat_fin i, h, toNat_ofNat_fin]

theorem encodeTarget_eq_neg_one {target : Option (Fin 4096)} :
    encodeTarget target = -1 ↔ target = none := by
  cases target with
  | none => exact iff_of_true rfl rfl
  | some i => exact iff_of_false (ofNat_fin_ne_neg_one i) (Option.some_ne_none i)

/-- The directories of the server are those of the forest, as far as their first blocks go. -/
structure Shows (server : Server) (forest : Forest (Fin 4096) CString) : Prop where
  allocated : ∀ i, forest.allocated i ↔ server.inodes i ≠ -1
  directory : ∀ dir, forest.directory dir ↔ IsDirectory server dir
  target : ∀ dir, IsDirectory server dir → ∀ slot < dirEntries,
    entryInum (server.dirBlock dir 0) slot = encodeTarget (forest.target dir slot)
  named : ∀ dir, IsDirectory server dir → ∀ slot < dirEntries, ∀ name : CString,
    forest.named dir slot name ↔
      name.Fits ∧ entryNamed (server.dirBlock dir 0) name slot = true

/-- What the server keeps of the layout of its log: all live records lie in it, the inode numbers
in use are those of one chunk, and a directory has its first block only. -/
structure Laid (server : Server) : Prop where
  running : Running server
  end_lt : server.cr.endPos.toNat < 2 ^ 31
  below : ∀ i, server.inodes i ≠ -1 → (i : ℕ) < imapChunkSize
  node : ∀ i, server.inodes i ≠ -1 → InLog server (server.inodes i) inodeSize
  block : ∀ dir, IsDirectory server dir →
    InLog server ((server.inodeRecord dir).direct 0) lfsBlockSize
  one_block : ∀ dir, IsDirectory server dir → ∀ j, j ≠ 0 →
    (server.inodeRecord dir).direct j = -1

abbrev ValidForest (forest : Forest (Fin 4096) CString) : Prop :=
  forest.Valid 0 dot dotDot dirEntries

/-- The invariant that single calls keep. -/
structure Tree (server : Server) (forest : Forest (Fin 4096) CString) : Prop where
  laid : Laid server
  shows : Shows server forest
  valid : ValidForest forest

section Invariant

variable {forest : Forest (Fin 4096) CString}

theorem dot_ne_dotDot : dot ≠ dotDot := by
  intro h
  exact absurd (congrArg CString.chars h) (by decide)

theorem Tree.live_block (h : Tree server forest) {slot : Slot} (hlive : slot.Live server) :
    slot.block = 0 := by
  by_contra hne
  exact hlive.block (h.laid.one_block slot.dir hlive.directory slot.block hne)

/-- A live slot is an entry of the forest. -/
theorem Tree.live_target (h : Tree server forest) {slot : Slot} (hlive : slot.Live server) :
    ∃ i, forest.target slot.dir slot.index = some i ∧ slot.inum server = BitVec.ofNat 32 i := by
  have htarget := h.shows.target slot.dir hlive.directory slot.index slot.index.isLt
  have hinum : slot.inum server = encodeTarget (forest.target slot.dir slot.index) := by
    unfold Slot.inum
    rw [h.live_block hlive, htarget]
  have hne : forest.target slot.dir slot.index ≠ none := by
    intro hnone
    exact hlive.inum (hinum.trans (encodeTarget_eq_neg_one.mpr hnone))
  obtain ⟨i, hi⟩ := Option.ne_none_iff_exists'.mp hne
  exact ⟨i, hi, by rw [hinum, hi]; rfl⟩

/-- A live slot carries a name that fits. -/
theorem Tree.live_named (h : Tree server forest) {slot : Slot} (hlive : slot.Live server) :
    ∃ name, forest.named slot.dir slot.index name := by
  have hdir := (h.shows.directory slot.dir).mpr hlive.directory
  obtain ⟨i, htarget, -⟩ := h.live_target hlive
  rcases Nat.lt_trichotomy slot.index 1 with hlt | hone | hgt
  · have hzero : (slot.index : ℕ) = 0 := by omega
    rw [hzero]
    exact ⟨dot, (h.valid.self_entry slot.dir hdir).1⟩
  · rw [hone]
    exact ⟨dotDot, (h.valid.parent_entry slot.dir hdir).1⟩
  · obtain ⟨-, -, name, hname, -⟩ :=
      h.valid.entry slot.dir slot.index i ⟨hdir, hgt, slot.index.isLt, htarget⟩
    exact ⟨name, hname⟩

theorem Tree.named_iff (h : Tree server forest) {slot : Slot} (hlive : slot.Live server)
    (name : CString) : slot.Named server name ↔ forest.named slot.dir slot.index name := by
  have hshows := h.shows.named slot.dir hlive.directory slot.index slot.index.isLt
  have hblock : slot.Named server name ↔
      entryNamed (server.dirBlock slot.dir 0) name slot.index = true := by
    unfold Slot.Named
    rw [h.live_block hlive]
  rw [hblock, hshows]
  constructor
  · intro hnamed
    obtain ⟨own, hown⟩ := h.live_named hlive
    obtain ⟨hfits, hownNamed⟩ := (hshows own).mp hown
    have heq : name = own := strcmpEq_unique hnamed hownNamed
    exact ⟨heq ▸ hfits, hnamed⟩
  · intro hnamed
    exact hnamed.2

theorem Tree.allocated (h : Tree server forest) {slot : Slot} (hlive : slot.Live server) :
    ∃ i : Fin 4096, slot.inum server = BitVec.ofNat 32 i ∧ server.inodes i ≠ -1 := by
  have hdir := (h.shows.directory slot.dir).mpr hlive.directory
  obtain ⟨i, htarget, hinum⟩ := h.live_target hlive
  refine ⟨i, hinum, (h.shows.allocated i).mp ?_⟩
  rcases Nat.lt_trichotomy slot.index 1 with hlt | hone | hgt
  · have hzero : (slot.index : ℕ) = 0 := by omega
    rw [hzero, (h.valid.self_entry slot.dir hdir).2] at htarget
    cases htarget
    exact h.valid.directory_allocated _ hdir
  · obtain ⟨-, above, habove, hdirectory⟩ := h.valid.parent_entry slot.dir hdir
    rw [hone, habove] at htarget
    cases htarget
    exact h.valid.directory_allocated _ hdirectory
  · exact (h.valid.entry slot.dir slot.index i ⟨hdir, hgt, slot.index.isLt, htarget⟩).2.1

/-- The entries of the forest are the slots that denote an inode. -/
theorem Tree.denotes_iff (h : Tree server forest) {slot : Slot} {i : Fin 4096} :
    slot.Denotes server i ↔
      slot.block = 0 ∧ forest.Names dirEntries slot.dir slot.index i := by
  constructor
  · intro hdenotes
    have hlive := hdenotes.live
    have hdir := (h.shows.directory slot.dir).mpr hlive.directory
    refine ⟨h.live_block hlive, hdir, ?_, slot.index.isLt, ?_⟩
    · by_contra hlow
      rcases Nat.lt_or_ge slot.index 1 with hlt | hge
      · have hzero : (slot.index : ℕ) = 0 := by omega
        apply hdenotes.not_dot
        rw [h.named_iff hlive, hzero]
        exact (h.valid.self_entry slot.dir hdir).1
      · have hone : (slot.index : ℕ) = 1 := by omega
        apply hdenotes.not_dotDot
        rw [h.named_iff hlive, hone]
        exact (h.valid.parent_entry slot.dir hdir).1
    · obtain ⟨j, htarget, hinum⟩ := h.live_target hlive
      rw [htarget, ofNat_fin_injective (hinum.symm.trans hdenotes.inum)]
  · rintro ⟨hblock, hnames⟩
    have hdirectory := (h.shows.directory slot.dir).mp hnames.directory
    have hinum : slot.inum server = BitVec.ofNat 32 i := by
      unfold Slot.inum
      rw [hblock, h.shows.target slot.dir hdirectory slot.index slot.index.isLt, hnames.target]
      rfl
    have hlive : slot.Live server := by
      refine ⟨hdirectory, ?_, ?_⟩
      · rw [hblock]
        have hblockIn := h.laid.block slot.dir hdirectory
        have hend := h.laid.end_lt
        exact ne_neg_one_of_toNat_lt (by have := hblockIn.2; omega)
      · rw [hinum]
        exact ofNat_fin_ne_neg_one i
    obtain ⟨-, -, name, hname, hdot, hdotDot⟩ := h.valid.entry _ _ _ hnames
    refine ⟨hlive, hinum, ?_, ?_⟩
    · rw [h.named_iff hlive]
      intro hnamed
      exact hdot (h.valid.name_unique _ _ _ _ hnames.directory hname hnamed)
    · rw [h.named_iff hlive]
      intro hnamed
      exact hdotDot (h.valid.name_unique _ _ _ _ hnames.directory hname hnamed)

theorem Tree.treeInvariant (h : Tree server forest) : TreeInvariant server where
  unique_name := by
    intro first second hfirst hsecond hdir name hfirstName hsecondName
    obtain ⟨i, hi, -⟩ := h.live_target hfirst
    obtain ⟨j, hj, -⟩ := h.live_target hsecond
    rw [h.named_iff hfirst] at hfirstName
    rw [h.named_iff hsecond] at hsecondName
    rw [← hdir] at hj hsecondName
    have hindex : (first.index : ℕ) = second.index :=
      h.valid.entry_unique ((h.shows.directory _).mpr hfirst.directory) first.index.isLt
        second.index.isLt (by rw [hi]; exact Option.some_ne_none i)
        (by rw [hj]; exact Option.some_ne_none j) hfirstName hsecondName dot_ne_dotDot
    have hblock : first.block = second.block := by
      rw [h.live_block hfirst, h.live_block hsecond]
    cases first
    cases second
    simp only [Slot.mk.injEq]
    exact ⟨hdir, hblock, Fin.ext hindex⟩
  allocated := fun slot hlive ↦ h.allocated hlive
  one_entry := by
    intro i hroot hi
    obtain ⟨dir, index, hnames⟩ := h.valid.named_by i ((h.shows.allocated i).mpr hi) hroot
    refine ⟨⟨dir, 0, ⟨index, hnames.high⟩⟩, h.denotes_iff.mpr ⟨rfl, hnames⟩, fun slot hslot ↦ ?_⟩
    obtain ⟨hblock, hother⟩ := h.denotes_iff.mp hslot
    obtain ⟨hdir, hindex⟩ := h.valid.named_once _ _ _ _ _ hother hnames
    cases slot
    simp only [Slot.mk.injEq]
    exact ⟨hdir, hblock, Fin.ext hindex⟩

end Invariant

end OS537.LFS
