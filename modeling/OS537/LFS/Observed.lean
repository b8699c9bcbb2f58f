import OS537.LFS.Crash
import OS537.LFS.Reading

/-!
# What the clients of two servers see

Two servers show the same files when `fsi_stat`, `fsi_read` and `fsi_lookup` have the same results
on their allocated inodes and blocks. For servers whose live records lie in the log this is the
equality of their views. A lookup that gets to a block which is not allocated reads whatever stands
at the file offset, and is not about the files.
-/

namespace OS537.LFS

open Bytes Code Posix

variable {server first second : Server} {i : Fin 4096} {j : Fin ndirect} {name : CString}

/-- The results of `fsi_stat`, `fsi_read` and `fsi_lookup` are the same for both servers, whatever
the stack contains. -/
structure SameFiles (first second : Server) : Prop where
  written : ∀ i j, first.Written i j ↔ second.Written i j
  stat : ∀ (i : Fin 4096) (node node' : Store), ∃ result next next',
    fsiStat ((i : ℕ) : ℤ) node first = some (result, next) ∧
      fsiStat ((i : ℕ) : ℤ) node' second = some (result, next')
  read : ∀ i j, first.Written i j → ∀ buffer node node' : Store, ∃ result next next',
    fsiRead ((i : ℕ) : ℤ) buffer ((j : ℕ) : ℤ) node first = some (result, next) ∧
      fsiRead ((i : ℕ) : ℤ) buffer ((j : ℕ) : ℤ) node' second = some (result, next')
  lookup : ∀ i (name : CString), name.Fits → first.Answers i name ∨ second.Answers i name →
    ∀ frame frame', ∃ result next next',
      fsiLookup ((i : ℕ) : ℤ) name frame first = some (result, next) ∧
        fsiLookup ((i : ℕ) : ℤ) name frame' second = some (result, next')

/-! ## Equal views -/

/-- The inode has the same type and the same allocated blocks in both servers. -/
structure SameInode (first second : Server) (i : Fin 4096) : Prop where
  type : (second.inodeRecord i).type = (first.inodeRecord i).type
  direct : ∀ j, (second.inodeRecord i).direct j = -1 ↔ (first.inodeRecord i).direct j = -1
  bytes : ∀ j, (first.inodeRecord i).direct j ≠ -1 → ∀ b < lfsBlockSize,
    second.image.bytes (((second.inodeRecord i).direct j).toNat + b) =
      first.image.bytes (((first.inodeRecord i).direct j).toNat + b)

theorem blockView_eq_none_iff (image : File) (pos : Word) :
    blockView image pos = none ↔ pos = -1 := by
  unfold blockView
  by_cases hpos : pos = -1
  · rw [if_pos hpos]
    exact iff_of_true rfl hpos
  · rw [if_neg hpos]
    exact iff_of_false (Option.some_ne_none _) hpos

theorem bytes_of_blockView_eq {image other : File} {pos pos' : Word}
    (h : blockView other pos' = blockView image pos) (hpos : pos ≠ -1) {b : ℕ}
    (hb : b < lfsBlockSize) : other.bytes (pos'.toNat + b) = image.bytes (pos.toNat + b) := by
  have hpos' : pos' ≠ -1 := by
    rwa [ne_eq, ← blockView_eq_none_iff other, h, blockView_eq_none_iff]
  unfold blockView at h
  rw [if_neg hpos', if_neg hpos] at h
  exact congrFun (Option.some.inj h) ⟨b, hb⟩

section View

variable (hview : second.view i = first.view i)

include hview

theorem inodes_eq_of_view : second.inodes i = -1 ↔ first.inodes i = -1 := by
  have hnone (server : Server) : server.view i = none ↔ server.inodes i = -1 := by
    by_cases hi : server.inodes i = -1
    · exact iff_of_true (view_unallocated hi) hi
    · rw [view_allocated hi]
      exact iff_of_false (Option.some_ne_none _) hi
  rw [← hnone, ← hnone, hview]

theorem sameInode_of_view (hi : first.inodes i ≠ -1) : SameInode first second i := by
  have hi' : second.inodes i ≠ -1 := fun heq ↦ hi ((inodes_eq_of_view hview).mp heq)
  rw [view_allocated hi, view_allocated hi', Option.some_inj, FileView.mk.injEq] at hview
  obtain ⟨htype, -, hblocks⟩ := hview
  have hblock (j : Fin ndirect) := congrFun hblocks j
  refine ⟨htype, fun j ↦ ?_, fun j hj b hb ↦ bytes_of_blockView_eq (hblock j) hj hb⟩
  rw [← blockView_eq_none_iff second.image, hblock j, blockView_eq_none_iff]

theorem written_iff_of_view : first.Written i j ↔ second.Written i j := by
  by_cases hi : first.inodes i = -1
  · exact iff_of_false (fun h ↦ h.1 hi) (fun h ↦ h.1 ((inodes_eq_of_view hview).mpr hi))
  · exact and_congr (not_congr (inodes_eq_of_view hview).symm)
      (not_congr ((sameInode_of_view hview hi).direct j).symm)

end View

/-- A lookup that stays in the allocated blocks of the first server. -/
theorem fsiLookup_same (hfirst : Logged first) (hsecond : Logged second)
    (hview : second.view i = first.view i) (hname : name.Fits) (hanswers : first.Answers i name)
    (frame frame' : LookupFrame) : ∃ result next next',
      fsiLookup ((i : ℕ) : ℤ) name frame first = some (result, next) ∧
        fsiLookup ((i : ℕ) : ℤ) name frame' second = some (result, next') := by
  by_cases hi : first.inodes i = -1
  · have hi' := (inodes_eq_of_view hview).mpr hi
    exact ⟨_, _, _, fsiLookup_unallocated hi frame, fsiLookup_unallocated hi' frame'⟩
  · have hi' : second.inodes i ≠ -1 := fun heq ↦ hi ((inodes_eq_of_view hview).mp heq)
    have hsame := sameInode_of_view hview hi
    obtain ⟨next, hnext⟩ := fsiLookup_allocated hname (hfirst.inodeIs hi) (fun htype j hreach ↦
      (hfirst.direct_fits hi (hanswers ⟨hi, htype⟩ j hreach)).imp_right blockAt_blockContent) frame
    have hblocks (htype : (second.inodeRecord i).type = lfsDirectory) (j : Fin ndirect)
        (hreach : Reaches (blockContent first.image (first.inodeRecord i)) name 0 j) :
        ((second.inodeRecord i).direct j).toNat < 2 ^ 31 ∧
          BlockAt second.image ((second.inodeRecord i).direct j).toNat
            (blockContent first.image (first.inodeRecord i) j) := by
      have hj := hanswers ⟨hi, hsame.type ▸ htype⟩ j hreach
      obtain ⟨hnonneg, hfits⟩ := hsecond.direct_fits hi' (mt (hsame.direct j).mp hj)
      refine ⟨hnonneg, hfits, fun b hb ↦ ?_⟩
      rw [blockContent_fin]
      exact hsame.bytes j hj b hb
    obtain ⟨next', hnext'⟩ := fsiLookup_allocated hname (hsecond.inodeIs hi') hblocks frame'
    rw [hsame.type] at hnext'
    exact ⟨_, next, next', hnext, hnext'⟩

/-- Servers with the same view show the same files. -/
theorem sameFiles_of_view (hfirst : Logged first) (hsecond : Logged second)
    (hview : second.view = first.view) : SameFiles first second where
  written i _ := written_iff_of_view (congrFun hview i)
  stat i node node' := by
    obtain ⟨next, hnext⟩ := fsiStat_view hfirst i node
    obtain ⟨next', hnext'⟩ := fsiStat_view hsecond i node'
    rw [hview] at hnext'
    exact ⟨_, next, next', hnext, hnext'⟩
  read i j hwritten buffer node node' := by
    have hwritten' := (written_iff_of_view (congrFun hview i)).mp hwritten
    obtain ⟨hnonneg, hfits⟩ := hfirst.direct_fits hwritten.1 hwritten.2
    obtain ⟨hnonneg', hfits'⟩ := hsecond.direct_fits hwritten'.1 hwritten'.2
    obtain ⟨next, hnext⟩ :=
      fsiRead_written (hfirst.inodeIs hwritten.1) hnonneg buffer node
    obtain ⟨next', hnext'⟩ :=
      fsiRead_written (hsecond.inodeIs hwritten'.1) hnonneg' buffer node'
    have hbytes := (sameInode_of_view (congrFun hview i) hwritten.1).bytes j hwritten.2
    rw [File.pread_congr buffer hfits hfits' hbytes] at hnext'
    exact ⟨_, next, next', hnext, hnext'⟩
  lookup i name hname hanswers frame frame' := by
    rcases hanswers with hanswers | hanswers
    · exact fsiLookup_same hfirst hsecond (congrFun hview i) hname hanswers frame frame'
    · obtain ⟨result, next', next, hnext', hnext⟩ :=
        fsiLookup_same hsecond hfirst (congrFun hview i).symm hname hanswers frame' frame
      exact ⟨result, next, next', hnext, hnext'⟩

end OS537.LFS
