import OS537.XV6.Calls

/-!
# Open files of processes

The file table of `5/xv6/file.c`, the descriptors of the `NPROC` = 64 processes, and the system
calls of `5/xv6/sysfile.c` that go through them. Descriptors are not passed on by `fork`, which is
not among these calls.
-/

namespace OS537.XV6

open Bytes

structure Proc where
  ofile : Fin 16 → Option (Fin 100)
  cwd : Slot

structure Kernel where
  fs : FS
  ftable : Fin 100 → File
  proc : Fin 64 → Proc

abbrev KernelM := StateT Kernel Option

/-- Code of the file system. -/
def onFS {α : Type} (code : FSM α) : KernelM α := fun kernel ↦
  (code kernel.fs).map fun result ↦ (result.1, { kernel with fs := result.2 })

/-! ## The file table -/

def setFile (f : Fin 100) (file : File) : KernelM Unit := fun kernel ↦
  some ((), { kernel with ftable := Function.update kernel.ftable f file })

/-- Allocate a file structure. -/
def filealloc : KernelM (Option (Fin 100)) := fun kernel ↦
  match (List.finRange 100).find? fun f ↦ (kernel.ftable f).ref = 0 with
  | some f => (setFile f { kernel.ftable f with ref := 1 } kernel).map fun result ↦
      (some f, result.2)
  | none => some (none, kernel)

/-- Close file `f`. -/
def fileclose (f : Fin 100) : KernelM Unit := do
  let file := (← get).ftable f
  if file.ref < 1 then fun _ ↦ none
  else if 0 < file.ref - 1 then setFile f { file with ref := file.ref - 1 }
  else
    setFile f { file with ref := 0, type := .none }
    if file.type = .inode then onFS (iput file.ip)

def setDescriptor (p : Fin 64) (fd : Fin 16) (file : Option (Fin 100)) : KernelM Unit :=
  fun kernel ↦
    let proc := kernel.proc p
    let proc := { proc with ofile := Function.update proc.ofile fd file }
    some ((), { kernel with proc := Function.update kernel.proc p proc })

/-- Allocate a file descriptor for the given file. -/
def fdalloc (p : Fin 64) (f : Fin 100) : KernelM (Option (Fin 16)) := fun kernel ↦
  match (List.finRange 16).find? fun fd ↦ (kernel.proc p).ofile fd = none with
  | some fd => (setDescriptor p fd (some f) kernel).map fun result ↦ (some fd, result.2)
  | none => some (none, kernel)

/-- The file of a descriptor. -/
def Kernel.argfd (kernel : Kernel) (p : Fin 64) (fd : Word) : Option (Fin 100) :=
  if hfd : fd.toNat < 16 then (kernel.proc p).ofile ⟨fd.toNat, hfd⟩ else none

/-! ## System calls -/

/-- The inode that `sys_open` opens, locked. -/
def openInode (cwd : Slot) (path : Name) (omode : Word) : FSM (Option Slot) :=
  if omode &&& 0x200 ≠ 0 then
    if omode &&& 0x004 ≠ 0 then create cwd path .extent 0 0 else create cwd path .file 0 0
  else do
    match ← namei cwd path with
    | none => return none
    | some ip =>
      ilock ip
      if (← typeOf ip) = .dir ∧ omode ≠ 0 then
        iunlockput ip
        return none
      else return some ip

def sysOpen (p : Fin 64) (path : Name) (omode : Word) : KernelM Word := do
  match ← onFS (openInode ((← get).proc p).cwd path omode) with
  | none => return -1
  | some ip =>
    match ← filealloc with
    | none =>
      onFS (iunlockput ip)
      return -1
    | some f =>
      match ← fdalloc p f with
      | none =>
        fileclose f
        onFS (iunlockput ip)
        return -1
      | some fd =>
        onFS (iunlock ip)
        setFile f {
          type := .inode, ref := ((← get).ftable f).ref, ip := ip, off := 0
          readable := omode &&& 0x001 = 0
          writable := omode &&& 0x001 ≠ 0 ∨ omode &&& 0x002 ≠ 0 }
        return BitVec.ofNat 32 fd

def sysLseek (p : Fin 64) (fd offset : Word) : KernelM Word := do
  let kernel ← get
  match kernel.argfd p fd with
  | none => return -1
  | some f =>
    let (r, file) ← onFS (filelseek (kernel.ftable f) offset)
    setFile f file
    return r

def sysRead (p : Fin 64) (fd n : Word) : KernelM (Word × List Byte) := do
  let kernel ← get
  match kernel.argfd p fd with
  | none => return (-1, [])
  | some f =>
    let (r, data, file) ← onFS (fileread (kernel.ftable f) n)
    setFile f file
    return (r, data)

def sysWrite (p : Fin 64) (fd : Word) (src : Store) (n : Word) : KernelM Word := do
  let kernel ← get
  match kernel.argfd p fd with
  | none => return -1
  | some f =>
    let (r, file) ← onFS (filewrite (kernel.ftable f) src n)
    setFile f file
    return r

def sysClose (p : Fin 64) (fd : Word) : KernelM Word := do
  if hfd : fd.toNat < 16 then
    match ((← get).proc p).ofile ⟨fd.toNat, hfd⟩ with
    | none => return -1
    | some f =>
      setDescriptor p ⟨fd.toNat, hfd⟩ none
      fileclose f
      return 0
  else return -1

/-! ## Calls -/

inductive SysCall where
  | open' (path : Name) (omode : Word)
  | lseek (fd offset : Word)
  | read (fd n : Word)
  | write (fd : Word) (src : Store) (n : Word)
  | link (old new : Name)
  | unlink (path : Name)
  | close (fd : Word)

/-- The state after a call of a process. -/
def Kernel.call (kernel : Kernel) : Fin 64 × SysCall → Option Kernel
  | (p, .open' path omode) => (sysOpen p path omode kernel).map Prod.snd
  | (p, .lseek fd offset) => (sysLseek p fd offset kernel).map Prod.snd
  | (p, .read fd n) => (sysRead p fd n kernel).map Prod.snd
  | (p, .write fd src n) => (sysWrite p fd src n kernel).map Prod.snd
  | (p, .link old new) => (onFS (sysLink (kernel.proc p).cwd old new) kernel).map Prod.snd
  | (p, .unlink path) => (onFS (sysUnlink (kernel.proc p).cwd path) kernel).map Prod.snd
  | (p, .close fd) => (sysClose p fd kernel).map Prod.snd

end OS537.XV6
