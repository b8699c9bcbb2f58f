import OS537.XV6.Kernel

/-!
# Invariants of system calls

The system calls reach inodes through a few functions of `5/xv6/fs.c` and three assignments of
`5/xv6/sysfile.c`. What all of these keep is kept by every system call but `lseek`, which makes an
assignment of its own.
-/

namespace OS537.XV6

open Bytes Code

/-- The functions that system calls are made of keep the invariant. -/
structure Kept (invariant : FS → Prop) : Prop where
  iget : ∀ inum, Maintains invariant (iget inum)
  idup : ∀ slot, Maintains invariant (idup slot)
  ialloc : ∀ type, Maintains invariant (ialloc type)
  ilock : ∀ slot, Maintains invariant (ilock slot)
  iunlock : ∀ slot, Maintains invariant (iunlock slot)
  iput : ∀ slot, Maintains invariant (iput slot)
  mapSlot : ∀ slot off, Maintains invariant (mapSlot slot off)
  readi : ∀ slot off n, Maintains invariant (readi slot off n)
  writei : ∀ slot src off n, Maintains invariant (writei slot src off n)
  addLinks : ∀ slot links, Maintains invariant (addLinks slot links)
  startInode : ∀ slot major minor, Maintains invariant (startInode slot major minor)

variable {invariant : FS → Prop} (h : Kept invariant)

include h

/-! ## Directories -/

theorem Kept.iunlockput (slot : Slot) : Maintains invariant (iunlockput slot) :=
  (h.iunlock slot).bind fun _ ↦ h.iput slot

theorem Kept.dirScan (dp : Slot) (name : Name) (blocks : List ℕ) :
    Maintains invariant (dirScan dp name blocks) := by
  induction blocks with
  | nil => exact .pure _
  | cons b rest ih =>
    refine (h.mapSlot dp _).bind fun addr ↦ Maintains.get.bind fun fs ↦ ?_
    cases findEntry (fs.disk.block addr) name with
    | some i => exact (h.iget _).bind fun ip ↦ .pure _
    | none => exact ih

theorem Kept.dirlookup (dp : Slot) (name : Name) : Maintains invariant (dirlookup dp name) := by
  intro fs hfs found fs' hrun
  unfold XV6.dirlookup at hrun
  split at hrun
  · cases hrun
  · exact h.dirScan dp name _ hfs hrun

theorem Kept.emptyDirent (dp : Slot) (entries off : ℕ) :
    Maintains invariant (emptyDirent dp entries off) := by
  induction entries generalizing off with
  | zero => exact .pure _
  | succ entries ih =>
    refine (h.readi dp _ 16).bind fun (r, data) ↦ ?_
    exact .ite .undefined (.ite (.pure _) (ih (off + 16)))

theorem Kept.writeDirent (dp : Slot) (inum : Word) (name : Name) (off : Word) :
    Maintains invariant (writeDirent dp inum name off) :=
  (h.writei dp _ off 16).bind fun _ ↦ .ite .undefined (.pure _)

theorem Kept.appendDirent (dp : Slot) (name : Name) (inum : Word) :
    Maintains invariant (appendDirent dp name inum) :=
  Maintains.get.bind fun _ ↦ (h.emptyDirent dp _ 0).bind fun _ ↦
    (h.writeDirent dp inum name _).bind fun _ ↦ .pure _

theorem Kept.dirlink (dp : Slot) (name : Name) (inum : Word) :
    Maintains invariant (dirlink dp name inum) := by
  refine (h.dirlookup dp name).bind fun found ↦ ?_
  cases found with
  | none => exact h.appendDirent dp name inum
  | some entry => exact (h.iput entry.1).bind fun _ ↦ .pure _

theorem Kept.mustLink (dp : Slot) (name : Name) (inum : Word) :
    Maintains invariant (mustLink dp name inum) :=
  (h.dirlink dp name inum).bind fun _ ↦ .ite .undefined (.pure _)

theorem Kept.isdiremptyLoop (dp : Slot) (entries off : ℕ) :
    Maintains invariant (isdiremptyLoop dp entries off) := by
  induction entries generalizing off with
  | zero => exact .pure _
  | succ entries ih =>
    refine (h.readi dp _ 16).bind fun (r, data) ↦ ?_
    exact .ite .undefined (.ite (.pure _) (ih (off + 16)))

theorem Kept.isdirempty (dp : Slot) : Maintains invariant (isdirempty dp) :=
  fun _ hfs _ _ hrun ↦ h.isdiremptyLoop dp _ 32 hfs hrun

/-! ## Paths -/

theorem Kept.namexLoop (parent : Bool) (names : List Name) (ip : Slot) :
    Maintains invariant (namexLoop parent names ip) := by
  induction names generalizing ip with
  | nil =>
    refine .ite ?_ (.pure _)
    exact (h.iput ip).bind fun _ ↦ .pure _
  | cons name rest ih =>
    refine (h.ilock ip).bind fun _ ↦ Maintains.get.bind fun fs ↦ .ite ?_ (.ite ?_ ?_)
    · exact (h.iunlockput ip).bind fun _ ↦ .pure _
    · exact (h.iunlock ip).bind fun _ ↦ .pure _
    · refine (h.dirlookup ip name).bind fun found ↦ ?_
      cases found with
      | none => exact (h.iunlockput ip).bind fun _ ↦ .pure _
      | some entry => exact (h.iunlockput ip).bind fun _ ↦ ih entry.1

theorem Kept.namex (cwd : Slot) (path : Name) (parent : Bool) :
    Maintains invariant (namex cwd path parent) := by
  refine .ite ?_ ?_
  · exact (h.iget 1).bind fun ip ↦ h.namexLoop parent _ ip
  · exact (h.idup cwd).bind fun ip ↦ h.namexLoop parent _ ip

theorem Kept.namei (cwd : Slot) (path : Name) : Maintains invariant (namei cwd path) :=
  (h.namex cwd path false).bind fun _ ↦ .pure _

/-! ## System calls -/

omit h in
theorem inumOf_maintains (slot : Slot) : Maintains invariant (inumOf slot) := by
  rintro fs hfs _ _ ⟨⟩
  exact hfs

omit h in
theorem typeOf_maintains (slot : Slot) : Maintains invariant (typeOf slot) := by
  rintro fs hfs _ _ ⟨⟩
  exact hfs

theorem Kept.createDots (ip dp : Slot) : Maintains invariant (createDots ip dp) :=
  (h.addLinks dp 1).bind fun _ ↦ (inumOf_maintains ip).bind fun _ ↦
    (h.mustLink ip _ _).bind fun _ ↦ (inumOf_maintains dp).bind fun _ ↦ h.mustLink ip _ _

theorem Kept.createNew (dp : Slot) (name : Name) (type : FileType) (major minor : BitVec 16) :
    Maintains invariant (createNew dp name type major minor) := by
  have hend (ip : Slot) : Maintains invariant (do
      XV6.mustLink dp name (← inumOf ip)
      XV6.iunlockput dp
      return ip) :=
    (inumOf_maintains ip).bind fun _ ↦ (h.mustLink dp name _).bind fun _ ↦
      (h.iunlockput dp).bind fun _ ↦ .pure _
  refine (h.ialloc type).bind fun ip ↦ (h.ilock ip).bind fun _ ↦
    (h.startInode ip major minor).bind fun _ ↦ .ite ?_ (hend ip)
  exact (h.createDots ip dp).bind fun _ ↦ hend ip

theorem Kept.create (cwd : Slot) (path : Name) (type : FileType) (major minor : BitVec 16) :
    Maintains invariant (create cwd path type major minor) := by
  refine Maintains.bind (h.namex cwd path true) fun found ↦ ?_
  cases found with
  | none => exact .pure _
  | some parent =>
    refine (h.ilock parent.1).bind fun _ ↦ (h.dirlookup parent.1 parent.2).bind fun found ↦ ?_
    cases found with
    | none => exact (h.createNew parent.1 parent.2 type major minor).bind fun _ ↦ .pure _
    | some entry =>
      refine (h.iunlockput parent.1).bind fun _ ↦ (h.ilock entry.1).bind fun _ ↦
        (typeOf_maintains entry.1).bind fun _ ↦ .ite (.pure _) ?_
      exact (h.iunlockput entry.1).bind fun _ ↦ .pure _

theorem Kept.linkName (cwd ip : Slot) (new : Name) :
    Maintains invariant (linkName cwd ip new) := by
  have hend (linked : Bool) : Maintains invariant (if linked then do
      XV6.iput ip
      return (0 : Word)
    else do
      XV6.ilock ip
      XV6.addLinks ip (-1)
      XV6.iunlockput ip
      return -1) := by
    refine .ite ((h.iput ip).bind fun _ ↦ .pure _) ?_
    exact (h.ilock ip).bind fun _ ↦ (h.addLinks ip (-1)).bind fun _ ↦
      (h.iunlockput ip).bind fun _ ↦ .pure _
  refine Maintains.bind (h.namex cwd new true) fun found ↦ ?_
  cases found with
  | none => exact (Maintains.pure false).bind hend
  | some parent =>
    exact (h.ilock parent.1).bind fun _ ↦ (inumOf_maintains ip).bind fun _ ↦
      (h.dirlink parent.1 parent.2 _).bind fun _ ↦ (h.iunlockput parent.1).bind fun _ ↦
        (Maintains.pure _).bind hend

theorem Kept.sysLink (cwd : Slot) (old new : Name) : Maintains invariant (sysLink cwd old new) := by
  refine (h.namei cwd old).bind fun found ↦ ?_
  cases found with
  | none => exact .pure _
  | some ip =>
    refine (h.ilock ip).bind fun _ ↦ (typeOf_maintains ip).bind fun _ ↦ .ite ?_ ?_
    · exact (h.iunlockput ip).bind fun _ ↦ .pure _
    · exact (h.addLinks ip 1).bind fun _ ↦ (h.iunlock ip).bind fun _ ↦ h.linkName cwd ip new

theorem Kept.unlinkEntry (dp ip : Slot) (off : Word) :
    Maintains invariant (unlinkEntry dp ip off) := by
  have hend : Maintains invariant (do
      XV6.iunlockput dp
      XV6.addLinks ip (-1)
      XV6.iunlockput ip
      return (0 : Word)) :=
    (h.iunlockput dp).bind fun _ ↦ (h.addLinks ip (-1)).bind fun _ ↦
      (h.iunlockput ip).bind fun _ ↦ .pure _
  refine (h.writeDirent dp 0 [] off).bind fun _ ↦ (typeOf_maintains ip).bind fun _ ↦
    .ite ?_ hend
  exact (h.addLinks dp (-1)).bind fun _ ↦ hend

theorem Kept.unlinkLocked (dp ip : Slot) (off : Word) :
    Maintains invariant (unlinkLocked dp ip off) := by
  have hend (busy : Bool) : Maintains invariant (if busy then do
      XV6.iunlockput ip
      XV6.iunlockput dp
      return (-1 : Word)
    else XV6.unlinkEntry dp ip off) := by
    refine .ite ?_ (h.unlinkEntry dp ip off)
    exact (h.iunlockput ip).bind fun _ ↦ (h.iunlockput dp).bind fun _ ↦ .pure _
  refine Maintains.get.bind fun fs ↦ .ite .undefined (.ite ?_ ?_)
  · exact (h.isdirempty ip).bind fun _ ↦ (Maintains.pure _).bind hend
  · exact (Maintains.pure false).bind hend

theorem Kept.sysUnlink (cwd : Slot) (path : Name) : Maintains invariant (sysUnlink cwd path) := by
  refine Maintains.bind (h.namex cwd path true) fun found ↦ ?_
  cases found with
  | none => exact .pure _
  | some parent =>
    refine (h.ilock parent.1).bind fun _ ↦ .ite ?_ ?_
    · exact (h.iunlockput parent.1).bind fun _ ↦ .pure _
    · refine (h.dirlookup parent.1 parent.2).bind fun found ↦ ?_
      cases found with
      | none => exact (h.iunlockput parent.1).bind fun _ ↦ .pure _
      | some entry =>
        exact (h.ilock entry.1).bind fun _ ↦ h.unlinkLocked parent.1 entry.1 entry.2

theorem Kept.openInode (cwd : Slot) (path : Name) (omode : Word) :
    Maintains invariant (openInode cwd path omode) := by
  refine .ite (.ite (h.create cwd path .extent 0 0) (h.create cwd path .file 0 0)) ?_
  refine (h.namei cwd path).bind fun found ↦ ?_
  cases found with
  | none => exact .pure _
  | some ip =>
    refine (h.ilock ip).bind fun _ ↦ (typeOf_maintains ip).bind fun _ ↦ .ite ?_ (.pure _)
    exact (h.iunlockput ip).bind fun _ ↦ .pure _

theorem Kept.fileread (file : File) (n : Word) : Maintains invariant (fileread file n) := by
  refine .ite (.pure _) ?_
  cases file.type with
  | none => exact .undefined
  | inode =>
    exact (h.ilock file.ip).bind fun _ ↦ (h.readi file.ip file.off n).bind fun _ ↦
      (h.iunlock file.ip).bind fun _ ↦ .pure _

theorem Kept.filewrite (file : File) (src : Store) (n : Word) :
    Maintains invariant (filewrite file src n) := by
  refine .ite (.pure _) ?_
  cases file.type with
  | none => exact .undefined
  | inode =>
    exact (h.ilock file.ip).bind fun _ ↦ (h.writei file.ip src file.off n).bind fun _ ↦
      (h.iunlock file.ip).bind fun _ ↦ .pure _

/-! ## The kernel -/

/-- The invariant of the file system of a kernel. -/
def OfKernel (invariant : FS → Prop) (kernel : Kernel) : Prop := invariant kernel.fs

omit h in
theorem onFS_maintains {α : Type} {code : FSM α} (hcode : Maintains invariant code) :
    Maintains (OfKernel invariant) (onFS code) := by
  intro kernel hkernel value kernel' hrun
  obtain ⟨⟨value, fs'⟩, hcall, hlast⟩ := Option.map_eq_some_iff.mp hrun
  cases hlast
  exact hcode hkernel hcall

omit h in
theorem setFile_maintains (f : Fin 100) (file : File) :
    Maintains (OfKernel invariant) (setFile f file) := by
  rintro kernel hkernel _ _ ⟨⟩
  exact hkernel

omit h in
theorem setDescriptor_maintains (p : Fin 64) (fd : Fin 16) (file : Option (Fin 100)) :
    Maintains (OfKernel invariant) (setDescriptor p fd file) := by
  rintro kernel hkernel _ _ ⟨⟩
  exact hkernel

omit h in
theorem filealloc_maintains : Maintains (OfKernel invariant) filealloc := by
  intro kernel hkernel found kernel' hrun
  unfold filealloc at hrun
  split at hrun
  · cases hrun
    exact hkernel
  · cases hrun
    exact hkernel

omit h in
theorem fdalloc_maintains (p : Fin 64) (f : Fin 100) :
    Maintains (OfKernel invariant) (fdalloc p f) := by
  intro kernel hkernel found kernel' hrun
  unfold fdalloc at hrun
  split at hrun
  · cases hrun
    exact hkernel
  · cases hrun
    exact hkernel

theorem Kept.fileclose (f : Fin 100) : Maintains (OfKernel invariant) (fileclose f) := by
  refine Maintains.get.bind fun kernel ↦ .ite .undefined (.ite (setFile_maintains f _) ?_)
  refine (setFile_maintains f _).bind fun _ ↦ .ite ?_ (.pure _)
  exact onFS_maintains (h.iput _)

theorem Kept.sysOpen (p : Fin 64) (path : Name) (omode : Word) :
    Maintains (OfKernel invariant) (sysOpen p path omode) := by
  refine Maintains.get.bind fun kernel ↦
    (onFS_maintains (h.openInode _ path omode)).bind fun found ↦ ?_
  cases found with
  | none => exact .pure _
  | some ip =>
    refine filealloc_maintains.bind fun found ↦ ?_
    cases found with
    | none => exact (onFS_maintains (h.iunlockput ip)).bind fun _ ↦ .pure _
    | some f =>
      refine (fdalloc_maintains p f).bind fun found ↦ ?_
      cases found with
      | none =>
        exact (h.fileclose f).bind fun _ ↦ (onFS_maintains (h.iunlockput ip)).bind fun _ ↦ .pure _
      | some fd =>
        exact (onFS_maintains (h.iunlock ip)).bind fun _ ↦ Maintains.get.bind fun _ ↦
          (setFile_maintains f _).bind fun _ ↦ .pure _

theorem Kept.sysRead (p : Fin 64) (fd n : Word) :
    Maintains (OfKernel invariant) (sysRead p fd n) := by
  refine Maintains.get.bind fun kernel ↦ ?_
  cases kernel.argfd p fd with
  | none => exact .pure _
  | some f =>
    exact (onFS_maintains (h.fileread _ n)).bind fun (_, _, file) ↦
      (setFile_maintains f file).bind fun _ ↦ .pure _

theorem Kept.sysWrite (p : Fin 64) (fd : Word) (src : Store) (n : Word) :
    Maintains (OfKernel invariant) (sysWrite p fd src n) := by
  refine Maintains.get.bind fun kernel ↦ ?_
  cases kernel.argfd p fd with
  | none => exact .pure _
  | some f =>
    exact (onFS_maintains (h.filewrite _ src n)).bind fun (_, file) ↦
      (setFile_maintains f file).bind fun _ ↦ .pure _

theorem Kept.sysClose (p : Fin 64) (fd : Word) :
    Maintains (OfKernel invariant) (sysClose p fd) := by
  unfold XV6.sysClose
  split
  · next hfd =>
    refine Maintains.get.bind fun kernel ↦ ?_
    cases (kernel.proc p).ofile ⟨fd.toNat, hfd⟩ with
    | none => exact .pure _
    | some f =>
      exact (setDescriptor_maintains p ⟨fd.toNat, hfd⟩ none).bind fun _ ↦
        (h.fileclose f).bind fun _ ↦ .pure _
  · exact .pure _

omit h in
/-- `sys_lseek` keeps what `filelseek` keeps. -/
theorem sysLseek_maintains {kernel kernel' : Kernel} {p : Fin 64} {fd offset r : Word}
    (hkernel : OfKernel invariant kernel)
    (hseek : ∀ f ∈ kernel.argfd p fd, ∀ result fs',
      filelseek (kernel.ftable f) offset kernel.fs = some (result, fs') → invariant fs')
    (hrun : sysLseek p fd offset kernel = some (r, kernel')) : OfKernel invariant kernel' := by
  unfold sysLseek at hrun
  rw [bind_run get_run] at hrun
  cases hfile : kernel.argfd p fd with
  | none =>
    rw [hfile] at hrun
    cases hrun
    exact hkernel
  | some f =>
    rw [hfile] at hrun
    obtain ⟨⟨r', file⟩, sought, hcall, hrun⟩ := bind_eq_some hrun
    obtain ⟨⟨⟩, last, hset, hlast⟩ := bind_eq_some hrun
    cases hlast
    obtain ⟨⟨result, fs'⟩, hfilelseek, hsought⟩ := Option.map_eq_some_iff.mp hcall
    cases hsought
    cases hset
    exact hseek f hfile _ fs' hfilelseek

/-- A call keeps the invariant, if the seek does in a call of `lseek`. -/
theorem Kept.call {kernel kernel' : Kernel} {call : Fin 64 × SysCall}
    (hkernel : OfKernel invariant kernel)
    (hseek : ∀ p fd offset, call = (p, .lseek fd offset) → ∀ f ∈ kernel.argfd p fd,
      ∀ result fs', filelseek (kernel.ftable f) offset kernel.fs = some (result, fs') →
        invariant fs')
    (hrun : kernel.call call = some kernel') : OfKernel invariant kernel' := by
  obtain ⟨p, call⟩ := call
  cases call with
  | open' path omode =>
    obtain ⟨⟨r, last⟩, hcall, rfl⟩ := Option.map_eq_some_iff.mp hrun
    exact h.sysOpen p path omode hkernel hcall
  | lseek fd offset =>
    obtain ⟨⟨r, last⟩, hcall, rfl⟩ := Option.map_eq_some_iff.mp hrun
    exact sysLseek_maintains hkernel (hseek p fd offset rfl) hcall
  | read fd n =>
    obtain ⟨⟨r, last⟩, hcall, rfl⟩ := Option.map_eq_some_iff.mp hrun
    exact h.sysRead p fd n hkernel hcall
  | write fd src n =>
    obtain ⟨⟨r, last⟩, hcall, rfl⟩ := Option.map_eq_some_iff.mp hrun
    exact h.sysWrite p fd src n hkernel hcall
  | link old new =>
    obtain ⟨⟨r, last⟩, hcall, rfl⟩ := Option.map_eq_some_iff.mp hrun
    exact onFS_maintains (h.sysLink _ old new) hkernel hcall
  | unlink path =>
    obtain ⟨⟨r, last⟩, hcall, rfl⟩ := Option.map_eq_some_iff.mp hrun
    exact onFS_maintains (h.sysUnlink _ path) hkernel hcall
  | close fd =>
    obtain ⟨⟨r, last⟩, hcall, rfl⟩ := Option.map_eq_some_iff.mp hrun
    exact h.sysClose p fd hkernel hcall

end OS537.XV6
