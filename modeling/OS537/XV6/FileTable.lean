import OS537.XV6.Paths
import Mathlib.Algebra.BigOperators.Pi
import Mathlib.Algebra.Order.BigOperators.Group.Finset
import Mathlib.Tactic.Abel

/-!
# The file table in step

An open file has a reference to its inode, so the references to an inode are those of the open files
and those of the processes whose current directory it is. `sys_open` and `sys_close` keep the count,
and keep the inodes in step.
-/

namespace OS537.XV6

open Bytes Code

variable {kernel kernel' : Kernel} {extra others : Slot → ℤ} {held : Set Slot} {p : Fin 64}
  {ip : Slot}

/-! ## References from the file table -/

/-- The reference that an open file has to its inode. -/
def File.refs (file : File) : Slot → ℤ :=
  if file.type = .inode ∧ 0 < file.ref then Pi.single file.ip 1 else 0

def Kernel.refs (kernel : Kernel) : Slot → ℤ := ∑ f, (kernel.ftable f).refs

theorem File.refs_nonneg (file : File) (slot : Slot) : 0 ≤ file.refs slot := by
  unfold File.refs
  split
  · rw [Pi.single_apply]
    split <;> decide
  · exact le_rfl

theorem File.refs_of_none {file : File} (h : file.type = .none) : file.refs = 0 := by
  apply if_neg
  rw [h]
  exact fun hinode ↦ nomatch hinode.1

theorem Kernel.refs_nonneg (kernel : Kernel) (slot : Slot) : 0 ≤ kernel.refs slot := by
  unfold Kernel.refs
  rw [Finset.sum_apply]
  exact Finset.sum_nonneg fun f _ ↦ (kernel.ftable f).refs_nonneg slot

/-- A file of the table changes. -/
theorem Kernel.refs_update (kernel : Kernel) (f : Fin 100) (file : File) :
    Kernel.refs { kernel with ftable := Function.update kernel.ftable f file } +
      (kernel.ftable f).refs = kernel.refs + file.refs := by
  have hfiles (g : Fin 100) : (Function.update kernel.ftable f file g).refs =
      Function.update (fun g ↦ (kernel.ftable g).refs) f file.refs g :=
    Function.apply_update (fun _ ↦ File.refs) kernel.ftable f file g
  unfold Kernel.refs
  rw [Finset.sum_congr rfl fun g _ ↦ hfiles g, Finset.sum_update_of_mem (Finset.mem_univ f),
    ← Finset.add_sum_erase _ _ (Finset.mem_univ f), Finset.sdiff_singleton_eq_erase]
  abel

/-- The file system is in step, the open files have their references and `extra` counts the rest;
a file that is not in use is on nothing, and the processes are in directories to which `others` has
a reference. Between calls `extra` is `others`. -/
structure Kernel.Holds (others extra : Slot → ℤ) (held : Set Slot) (kernel : Kernel) : Prop where
  fs : kernel.fs.Held (kernel.refs + extra) held
  idle : ∀ f, (kernel.ftable f).ref = 0 → (kernel.ftable f).type = .none
  cwd : ∀ p, 0 < others (kernel.proc p).cwd

theorem Kernel.Holds.setFile (h : kernel.Holds others extra held) {f : Fin 100} {file : File}
    (hidle : file.ref = 0 → file.type = .none)
    (hrun : setFile f file kernel = some ((), kernel')) :
    kernel'.Holds others (extra + (kernel.ftable f).refs - file.refs) held := by
  cases hrun
  have hrefs := kernel.refs_update f file
  constructor
  case fs =>
    have heq : Kernel.refs { kernel with ftable := Function.update kernel.ftable f file } +
        (extra + (kernel.ftable f).refs - file.refs) = kernel.refs + extra := by
      rw [← add_sub_assoc, ← add_assoc, add_right_comm, hrefs]
      abel
    rw [heq]
    exact h.fs
  case idle =>
    intro g hg
    by_cases heq : g = f
    · subst heq
      dsimp only at hg ⊢
      rw [Function.update_self] at hg ⊢
      exact hidle hg
    · dsimp only at hg ⊢
      rw [Function.update_of_ne heq] at hg ⊢
      exact h.idle g hg
  case cwd => exact h.cwd

/-- A file changes, and its reference does not. -/
theorem Kernel.Holds.setFile_same (h : kernel.Holds others extra held) {f : Fin 100} {file : File}
    (hidle : file.ref = 0 → file.type = .none) (hrefs : file.refs = (kernel.ftable f).refs)
    (hrun : XV6.setFile f file kernel = some ((), kernel')) : kernel'.Holds others extra held := by
  have hset := h.setFile hidle hrun
  rwa [hrefs, add_sub_cancel_right] at hset

theorem onFS_cases {α : Type} {code : FSM α} {value : α}
    (hrun : onFS code kernel = some (value, kernel')) :
    ∃ fs', code kernel.fs = some (value, fs') ∧ kernel' = { kernel with fs := fs' } := by
  obtain ⟨⟨_, fs'⟩, hcode, hresult⟩ := Option.map_eq_some_iff.mp hrun
  cases hresult
  exact ⟨fs', hcode, rfl⟩

/-! ## Files that are opened and closed -/

theorem Kernel.Holds.fileclose (h : kernel.Holds others extra held) {f : Fin 100}
    (hfree : (kernel.ftable f).type = .inode → (kernel.ftable f).ip ∉ held)
    (hrun : fileclose f kernel = some ((), kernel')) : kernel'.Holds others extra held := by
  unfold XV6.fileclose at hrun
  rw [bind_run get_run] at hrun
  split at hrun
  · cases hrun
  · next hopen =>
    split at hrun
    · next hmore =>
      refine h.setFile_same (fun hzero ↦ ?_) ?_ hrun
      · dsimp only at hzero
        omega
      · have hold : 0 < (kernel.ftable f).ref := by omega
        simp only [File.refs, hmore, hold, and_true]
    · next hlast =>
      obtain ⟨⟨⟩, closed, hset, hrun⟩ := bind_eq_some hrun
      have hclosed := h.setFile (fun _ ↦ rfl) hset
      have hone : 0 < (kernel.ftable f).ref := by omega
      split at hrun
      · next htype =>
        obtain ⟨fs', hput, rfl⟩ := onFS_cases hrun
        have hrefs : (kernel.ftable f).refs = Pi.single (kernel.ftable f).ip 1 :=
          if_pos ⟨htype, hone⟩
        rw [hrefs, File.refs_of_none rfl, sub_zero] at hclosed
        have hput' := hclosed.fs.iput (fun hmem ↦ absurd hmem (hfree htype)) hput
        rw [← add_assoc, add_sub_cancel_right] at hput'
        exact ⟨hput', hclosed.idle, hclosed.cwd⟩
      · next htype =>
        cases hrun
        have hrefs : (kernel.ftable f).refs = 0 := if_neg fun hinode ↦ htype hinode.1
        rwa [hrefs, File.refs_of_none rfl, sub_zero, add_zero] at hclosed

theorem filealloc_cases {result : Option (Fin 100)}
    (hrun : filealloc kernel = some (result, kernel')) :
    (result = none ∧ kernel' = kernel) ∨ ∃ f, result = some f ∧ (kernel.ftable f).ref = 0 ∧
      setFile f { kernel.ftable f with ref := 1 } kernel = some ((), kernel') := by
  unfold filealloc at hrun
  split at hrun
  · next f hfind =>
    cases hrun
    have hzero := List.find?_some hfind
    exact Or.inr ⟨f, rfl, of_decide_eq_true hzero, rfl⟩
  · cases hrun
    exact Or.inl ⟨rfl, rfl⟩

theorem Kernel.Holds.setDescriptor (h : kernel.Holds others extra held) {fd : Fin 16}
    {file : Option (Fin 100)} (hrun : setDescriptor p fd file kernel = some ((), kernel')) :
    kernel'.Holds others extra held := by
  cases hrun
  refine ⟨h.fs, h.idle, fun q ↦ ?_⟩
  dsimp only
  by_cases heq : q = p
  · rw [heq, Function.update_self]
    exact h.cwd p
  · rw [Function.update_of_ne heq]
    exact h.cwd q

theorem Kernel.Holds.fdalloc (h : kernel.Holds others extra held) {f : Fin 100}
    {result : Option (Fin 16)} (hrun : fdalloc p f kernel = some (result, kernel')) :
    kernel'.Holds others extra held ∧ kernel'.ftable = kernel.ftable := by
  unfold XV6.fdalloc at hrun
  split at hrun
  · obtain ⟨⟨_, described⟩, hset, hresult⟩ := Option.map_eq_some_iff.mp hrun
    cases hresult
    refine ⟨h.setDescriptor hset, ?_⟩
    cases hset
    rfl
  · cases hrun
    exact ⟨h, rfl⟩

/-- `fileclose` and `iunlockput` of an inode that was opened for nothing. -/
theorem Kernel.Holds.giveUp (h : kernel.Holds others (others + Pi.single ip 1) {ip})
    (hrun : onFS (iunlockput ip) kernel = some ((), kernel')) : kernel'.Holds others others ∅ := by
  obtain ⟨fs', hput, rfl⟩ := onFS_cases hrun
  have hfs := h.fs
  rw [← add_assoc, ← insert_empty_eq] at hfs
  exact ⟨hfs.drop (Set.notMem_empty ip) hput, h.idle, h.cwd⟩

/-- The reference to the inode goes to a file on it. -/
theorem Kernel.Holds.give (h : kernel.Holds others (others + Pi.single ip 1) {ip}) {f : Fin 100}
    {file : File} (hunused : (kernel.ftable f).refs = 0) (hrefs : file.refs = Pi.single ip 1)
    (hidle : file.ref = 0 → file.type = .none) {unlocked : Kernel}
    (hunlocked : onFS (iunlock ip) kernel = some ((), unlocked))
    (hset : XV6.setFile f file unlocked = some ((), kernel')) : kernel'.Holds others others ∅ := by
  obtain ⟨fs', hunlock, rfl⟩ := onFS_cases hunlocked
  have hfs := h.fs.iunlock hunlock
  rw [Set.sdiff_self] at hfs
  have hholds : Kernel.Holds others (others + Pi.single ip 1) ∅ { kernel with fs := fs' } :=
    ⟨hfs, h.idle, h.cwd⟩
  have hgiven := hholds.setFile hidle hset
  have hunused' : (Kernel.ftable { kernel with fs := fs' } f).refs = 0 := hunused
  rwa [hunused', hrefs, add_zero, add_sub_cancel_right] at hgiven

/-- The descriptor that is given out, and the reference to the inode goes to the file. -/
theorem Kernel.Holds.sysOpen (h : kernel.Holds others others ∅) (hwhole : kernel.fs.disk.DirsWhole)
    {path : Name} {omode r : Word} (hrun : sysOpen p path omode kernel = some (r, kernel')) :
    kernel'.Holds others others ∅ := by
  unfold XV6.sysOpen at hrun
  rw [bind_run get_run] at hrun
  obtain ⟨found, opened, hopened, hrun⟩ := bind_eq_some hrun
  obtain ⟨fs', hopen, rfl⟩ := onFS_cases hopened
  have hcwd' : 0 < (kernel.refs + others) (kernel.proc p).cwd :=
    add_pos_of_nonneg_of_pos (kernel.refs_nonneg _) (h.cwd p)
  have hfs := FS.Steady.openInode ⟨h.fs, hwhole⟩ hcwd' hopen
  cases found with
  | none =>
    cases hrun
    rw [gained, add_zero] at hfs
    exact ⟨hfs, h.idle, h.cwd⟩
  | some ip =>
    rw [gained, add_assoc] at hfs
    have hlocked : Kernel.Holds others (others + Pi.single ip 1) {ip} { kernel with fs := fs' } :=
      ⟨hfs, h.idle, h.cwd⟩
    obtain ⟨f, allocated, halloc, hrun⟩ := bind_eq_some hrun
    obtain ⟨rfl, rfl⟩ | ⟨f, rfl, hzero, hset⟩ := filealloc_cases halloc
    · obtain ⟨⟨⟩, put, hput, hlast⟩ := bind_eq_some hrun
      cases hlast
      exact hlocked.giveUp hput
    · have htype : (kernel.ftable f).type = .none := hlocked.idle f hzero
      have hone (hzero : (1 : ℤ) = 0) : (kernel.ftable f).type = .none :=
        absurd hzero one_ne_zero
      have hunused : File.refs { kernel.ftable f with ref := 1 } = (kernel.ftable f).refs := by
        rw [File.refs_of_none htype]
        exact File.refs_of_none htype
      have hallocated := hlocked.setFile_same hone hunused hset
      obtain ⟨fd, described, hfd, hrun⟩ := bind_eq_some hrun
      obtain ⟨hdescribed, hftable⟩ := hallocated.fdalloc hfd
      have hfile : described.ftable f = { kernel.ftable f with ref := 1 } := by
        cases hset
        rw [hftable]
        exact Function.update_self _ _ _
      have htype' : (described.ftable f).type = .none := by
        rw [hfile]
        exact htype
      cases fd with
      | none =>
        obtain ⟨⟨⟩, closed, hclose, hrun⟩ := bind_eq_some hrun
        obtain ⟨⟨⟩, put, hput, hlast⟩ := bind_eq_some hrun
        cases hlast
        refine (hdescribed.fileclose (fun hinode ↦ ?_) hclose).giveUp hput
        rw [htype'] at hinode
        contradiction
      | some fd =>
        obtain ⟨⟨⟩, unlocked, hunlock, hrun⟩ := bind_eq_some hrun
        rw [bind_run get_run] at hrun
        obtain ⟨⟨⟩, last, hgive, hlast⟩ := bind_eq_some hrun
        cases hlast
        obtain ⟨last', -, rfl⟩ := onFS_cases hunlock
        refine hdescribed.give (File.refs_of_none htype') ?_ ?_ hunlock hgive
        · exact if_pos ⟨rfl, by rw [hfile]; exact zero_lt_one⟩
        · dsimp only
          rw [hfile]
          exact fun hzero ↦ absurd hzero one_ne_zero

theorem Kernel.Holds.sysClose (h : kernel.Holds others others ∅) {fd r : Word}
    (hrun : sysClose p fd kernel = some (r, kernel')) : kernel'.Holds others others ∅ := by
  unfold XV6.sysClose at hrun
  split at hrun
  · next hfd =>
    rw [bind_run get_run] at hrun
    cases hfile : (kernel.proc p).ofile ⟨fd.toNat, hfd⟩ with
    | none =>
      rw [hfile] at hrun
      cases hrun
      exact h
    | some f =>
      rw [hfile] at hrun
      obtain ⟨⟨⟩, removed, hremove, hrun⟩ := bind_eq_some hrun
      obtain ⟨⟨⟩, last, hclose, hlast⟩ := bind_eq_some hrun
      cases hlast
      exact (h.setDescriptor hremove).fileclose (fun _ ↦ Set.notMem_empty _) hclose
  · cases hrun
    exact h

end OS537.XV6
