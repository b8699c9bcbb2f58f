import OS537.XV6.Files

/-!
# Directories and system calls

Directories and path names of `5/xv6/fs.c`, and the system calls of `5/xv6/sysfile.c` that open,
link, unlink, seek, read, write and close files. A call runs to its end before the next one begins.
Its arguments are the values that `argint`, `argptr` and `argstr` fetch; a string is the list of its
bytes up to the final 0, so the 14 bytes of a name in a directory stand for those before the first 0
among them.
-/

namespace OS537.XV6

open Bytes

abbrev Name := List Byte

/-! ## Directories -/

/-- The `inum` of the directory entry at `off` in a block. -/
def direntInum (block : Store) (off : ℕ) : Word := BitVec.ofNat 32 (loadLE block off 2)

/-- The `name` of the directory entry at `off` in a block. -/
def direntName (block : Store) (off : ℕ) : Name :=
  ((List.range 14).map fun i ↦ block (off + 2 + i)).takeWhile (· ≠ 0)

/-- The bytes of a directory entry; `strncpy` pads the name with zeros. -/
def dirent (inum : Word) (name : Name) : Store := fun i ↦
  if i < 2 then encodeLE inum.toNat i else name.getD (i - 2) 0

/-- The first of the 32 entries of a block that has the name. -/
def findEntry (block : Store) (name : Name) : Option ℕ :=
  Scan.first (fun i ↦ direntInum block (16 * i) ≠ 0 && direntName block (16 * i) = name) 32

/-- The loop of `dirlookup` over the blocks of the directory. -/
def dirScan (dp : Slot) (name : Name) : List ℕ → FSM (Option (Slot × Word))
  | [] => pure none
  | b :: rest => do
    let addr ← mapSlot dp (BitVec.ofNat 32 (512 * b))
    let fs ← get
    match findEntry (fs.disk.block addr) name with
    | some i =>
      -- entry matches path element
      let ip ← iget (direntInum (fs.disk.block addr) (16 * i))
      return some (ip, BitVec.ofNat 32 (512 * b + 16 * i))
    | none => dirScan dp name rest

/-- Look for a directory entry in a directory, and return its inode and its offset. -/
def dirlookup (dp : Slot) (name : Name) : FSM (Option (Slot × Word)) := fun fs ↦
  if (fs.icache dp).type ≠ .dir then none
  else dirScan dp name (List.range (((fs.icache dp).size.toNat + 511) / 512)) fs

/-- The loop of `dirlink` that looks for an empty entry, with the number of entries that are left:
the offset at which it ends. -/
def emptyDirent (dp : Slot) : (entries off : ℕ) → FSM ℕ
  | 0, off => pure off
  | entries + 1, off => do
    let (r, data) ← readi dp (BitVec.ofNat 32 off) 16
    if r ≠ 16 then fun _ ↦ none
    else if direntInum (fun i ↦ data.getD i 0) 0 = 0 then return off
    else emptyDirent dp entries (off + 16)

/-- `if(writei(dp, (char*)&de, off, sizeof(de)) != sizeof(de)) panic(...)` -/
def writeDirent (dp : Slot) (inum : Word) (name : Name) (off : Word) : FSM Unit := do
  let r ← writei dp (dirent inum name) off 16
  if r ≠ 16 then fun _ ↦ none else return ()

/-- The part of `dirlink` in which the name is not present. -/
def appendDirent (dp : Slot) (name : Name) (inum : Word) : FSM Word := do
  let fs ← get
  let off ← emptyDirent dp (((fs.icache dp).size.toNat + 15) / 16) 0
  writeDirent dp inum name (BitVec.ofNat 32 off)
  return 0

/-- Write a new directory entry into the directory `dp`. -/
def dirlink (dp : Slot) (name : Name) (inum : Word) : FSM Word := do
  match ← dirlookup dp name with
  | some (ip, _) =>
    iput ip
    return -1
  | none => appendDirent dp name inum

/-! ## Paths -/

/-- The character `/` -/
def slash : Byte := 0x2F

/-- Copy the next path element: the rest of the path, without leading slashes, and the element, of
which `DIRSIZ` = 14 bytes are kept. -/
def skipelem (path : Name) : Option (Name × Name) :=
  match path.dropWhile (· = slash) with
  | [] => none
  | path => some ((path.dropWhile (· ≠ slash)).dropWhile (· = slash),
      (path.takeWhile (· ≠ slash)).take 14)

/-- The elements of a path, in order; a path has no more elements than bytes. -/
def elements : (fuel : ℕ) → Name → List Name
  | 0, _ => []
  | fuel + 1, path =>
    match skipelem path with
    | none => []
    | some (rest, name) => name :: elements fuel rest

/-- The loop of `namex`. The path is at its last element where no other follows. -/
def namexLoop (parent : Bool) : List Name → Slot → FSM (Option (Slot × Name))
  | [], ip =>
    if parent then do
      iput ip
      return none
    else return some (ip, [])
  | name :: rest, ip => do
    ilock ip
    let fs ← get
    if (fs.icache ip).type ≠ .dir then
      iunlockput ip
      return none
    else if parent ∧ rest = [] then
      -- Stop one level early.
      iunlock ip
      return some (ip, name)
    else match ← dirlookup ip name with
      | none =>
        iunlockput ip
        return none
      | some (next, _) =>
        iunlockput ip
        namexLoop parent rest next

/-- Look up and return the inode for a path name, or its parent and the final path element. -/
def namex (cwd : Slot) (path : Name) (parent : Bool) : FSM (Option (Slot × Name)) := do
  let ip ← if path.head? = some slash then iget 1 else idup cwd
  namexLoop parent (elements path.length path) ip

def namei (cwd : Slot) (path : Name) : FSM (Option Slot) := do
  let found ← namex cwd path false
  return found.map Prod.fst

def nameiparent (cwd : Slot) (path : Name) : FSM (Option (Slot × Name)) := namex cwd path true

/-! ## Creating, linking and unlinking -/

/-- `ip->nlink += links; iupdate(ip)`, with `links` 1 or -1 -/
def addLinks (slot : Slot) (links : BitVec 16) : FSM Unit := fun fs ↦
  iupdateSlot slot (fs.set slot { fs.icache slot with nlink := (fs.icache slot).nlink + links })

/-- `ip->major = major; ip->minor = minor; ip->nlink = 1; iupdate(ip)` -/
def startInode (slot : Slot) (major minor : BitVec 16) : FSM Unit := fun fs ↦
  iupdateSlot slot (fs.set slot { fs.icache slot with major := major, minor := minor, nlink := 1 })

/-- The inode number of a slot. -/
def inumOf (slot : Slot) : FSM Word := fun fs ↦ some ((fs.icache slot).inum, fs)

/-- The type of the inode in a slot. -/
def typeOf (slot : Slot) : FSM FileType := fun fs ↦ some ((fs.icache slot).type, fs)

/-- `if(dirlink(dp, name, inum) < 0) panic(...)` -/
def mustLink (dp : Slot) (name : Name) (inum : Word) : FSM Unit := do
  let r ← dirlink dp name inum
  if r.toInt < 0 then fun _ ↦ none else return ()

/-- Create `.` and `..` entries. -/
def createDots (ip dp : Slot) : FSM Unit := do
  addLinks dp 1
  mustLink ip [0x2E] (← inumOf ip)
  mustLink ip [0x2E, 0x2E] (← inumOf dp)

/-- The part of `create` in which the name is not present. -/
def createNew (dp : Slot) (name : Name) (type : FileType) (major minor : BitVec 16) :
    FSM Slot := do
  let ip ← ialloc type
  ilock ip
  startInode ip major minor
  if type = .dir then createDots ip dp
  mustLink dp name (← inumOf ip)
  iunlockput dp
  return ip

def create (cwd : Slot) (path : Name) (type : FileType) (major minor : BitVec 16) :
    FSM (Option Slot) := do
  match ← nameiparent cwd path with
  | none => return none
  | some (dp, name) =>
    ilock dp
    match ← dirlookup dp name with
    | some (ip, _) =>
      iunlockput dp
      ilock ip
      if type = .file ∧ (← typeOf ip) = .file then return some ip
      else
        iunlockput ip
        return none
    | none => return some (← createNew dp name type major minor)

/-- The second half of `sys_link`: the new name, or undo. -/
def linkName (cwd ip : Slot) (new : Name) : FSM Word := do
  let linked ← do
    match ← nameiparent cwd new with
    | none => pure false
    | some (dp, name) =>
      ilock dp
      let r ← dirlink dp name (← inumOf ip)
      iunlockput dp
      pure (0 ≤ r.toInt)
  if linked then
    iput ip
    return 0
  else
    ilock ip
    addLinks ip (-1)
    iunlockput ip
    return -1

/-- Create the path `new` as a link to the same inode as `old`. -/
def sysLink (cwd : Slot) (old new : Name) : FSM Word := do
  match ← namei cwd old with
  | none => return -1
  | some ip =>
    ilock ip
    if (← typeOf ip) = .dir then
      iunlockput ip
      return -1
    else
      addLinks ip 1
      iunlock ip
      linkName cwd ip new

/-- The loop of `isdirempty`, with the number of entries that are left. -/
def isdiremptyLoop (dp : Slot) : (entries off : ℕ) → FSM Bool
  | 0, _ => pure true
  | entries + 1, off => do
    let (r, data) ← readi dp (BitVec.ofNat 32 off) 16
    if r ≠ 16 then fun _ ↦ none
    else if direntInum (fun i ↦ data.getD i 0) 0 ≠ 0 then return false
    else isdiremptyLoop dp entries (off + 16)

/-- Is the directory `dp` empty except for `.` and `..`? -/
def isdirempty (dp : Slot) : FSM Bool := fun fs ↦
  isdiremptyLoop dp (((fs.icache dp).size.toNat + 15) / 16 - 2) 32 fs

/-- The part of `sys_unlink` that removes the entry of `ip` at `off`. -/
def unlinkEntry (dp ip : Slot) (off : Word) : FSM Word := do
  writeDirent dp 0 [] off
  if (← typeOf ip) = .dir then addLinks dp (-1)
  iunlockput dp
  addLinks ip (-1)
  iunlockput ip
  return 0

/-- The part of `sys_unlink` in which both inodes are locked. -/
def unlinkLocked (dp ip : Slot) (off : Word) : FSM Word := do
  let fs ← get
  if (fs.icache ip).nlink.toInt < 1 then fun _ ↦ none
  else
    let busy ← if (fs.icache ip).type = .dir then do pure (!(← isdirempty ip)) else pure false
    if busy then
      iunlockput ip
      iunlockput dp
      return -1
    else unlinkEntry dp ip off

def sysUnlink (cwd : Slot) (path : Name) : FSM Word := do
  match ← nameiparent cwd path with
  | none => return -1
  | some (dp, name) =>
    ilock dp
    -- Cannot unlink "." or "..".
    if name = [0x2E] ∨ name = [0x2E, 0x2E] then
      iunlockput dp
      return -1
    else match ← dirlookup dp name with
      | none =>
        iunlockput dp
        return -1
      | some (ip, off) =>
        ilock ip
        unlinkLocked dp ip off

end OS537.XV6
