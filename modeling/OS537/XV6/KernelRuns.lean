import OS537.XV6.FileTable

/-!
# Runs of system calls in step

Along every run of system calls the cached inodes have the contents of their records, if no call
moves an offset past the end of its file, no read touches a hole, no write touches a hole without
making the file longer, and no directory has a hole.
-/

namespace OS537.XV6

open Bytes Code Run

variable {kernel kernel' : Kernel} {others : Slot → ℤ} {held : Set Slot} {p : Fin 64} {ip : Slot}

/-- Every cached inode has the contents of its record; so an inode that leaves the cache and is read
again is the same. -/
structure Kernel.OnDisk (kernel : Kernel) : Prop where
  record : ∀ slot, kernel.fs.Cached slot →
    (kernel.fs.icache slot).toDinode = kernel.fs.disk.dinode (kernel.fs.icache slot).inum
  reload : ∀ slot, kernel.fs.Cached slot → ∀ (evicted reopened : FS) (other : Slot),
    evicted.disk = kernel.fs.disk → (evicted.icache other).valid = false →
    (evicted.icache other).inum = (kernel.fs.icache slot).inum →
    ilock other evicted = some ((), reopened) →
      (reopened.icache other).toDinode = (kernel.fs.icache slot).toDinode

theorem FS.InStep.onDisk (h : kernel.fs.InStep) : kernel.OnDisk where
  record slot hslot := (h.agree slot hslot).2
  reload slot hslot evicted reopened other hdisk hvalid hinum hlock := by
    obtain ⟨-, -, ⟨htrue, -⟩ | ⟨-, -, rfl⟩⟩ := ilock_cases hlock
    · rw [hvalid] at htrue
      contradiction
    · rw [FS.set_icache_self, hdisk, hinum, (h.agree slot hslot).2]

/-! ## Calls on open files -/

section OpenFile

variable {fs fs' : FS} {refs : Slot → ℤ} {file file' : File}

/-- An inode that is locked has the contents of its record. -/
theorem FS.Held.ilock_node (h : fs.Held refs held) (hrun : XV6.ilock ip fs = some ((), fs')) :
    (fs'.icache ip).toDinode = fs.disk.dinode (fs.icache ip).inum := by
  have hlocked := (h.ilock hrun).2
  have hagree := (hlocked.inStep.agree ip (hlocked.locked ip (Set.mem_insert ip held)).1).2
  obtain ⟨-, -, ⟨-, rfl⟩ | ⟨-, -, rfl⟩⟩ := ilock_cases hrun
  · rw [FS.set_icache_self] at hagree ⊢
    exact hagree
  · rw [FS.set_icache_self]

/-- The contents of the inode of a file. -/
def FS.node (fs : FS) (file : File) : Dinode := fs.disk.dinode (fs.icache file.ip).inum

/-- A call leaves the file on its inode. -/
structure File.Stays (file file' : File) : Prop where
  type : file'.type = file.type
  ref : file'.ref = file.ref
  ip : file'.ip = file.ip

theorem File.advance_stays (file : File) (r : Word) : file.Stays (file.advance r) := by
  unfold File.advance
  split
  · exact ⟨rfl, rfl, rfl⟩
  · exact ⟨rfl, rfl, rfl⟩

theorem FS.Held.filelseek (h : fs.Held refs ∅) {offset r : Word}
    (hwithin : file.type = .inode → ¬ (fs.node file).size < offset)
    (hrun : filelseek file offset fs = some ((r, file'), fs')) :
    fs'.Held refs ∅ ∧ file.Stays file' := by
  unfold XV6.filelseek at hrun
  cases htype : file.type with
  | none =>
    rw [htype] at hrun
    cases hrun
    exact ⟨h, rfl, rfl, rfl⟩
  | inode =>
    rw [htype] at hrun
    obtain ⟨⟨⟩, locked, hlock, hrun⟩ := bind_eq_some hrun
    obtain ⟨⟨⟩, sought, hseek, hrun⟩ := bind_eq_some hrun
    obtain ⟨⟨⟩, unlocked, hunlock, hlast⟩ := bind_eq_some hrun
    cases hlast
    have hnode : (locked.icache file.ip).toDinode = fs.node file := h.ilock_node hlock
    unfold seekSize at hseek
    rw [hnode, if_neg (hwithin htype)] at hseek
    cases hseek
    obtain ⟨hnot, hlocked⟩ := h.ilock hlock
    have hunlocked := hlocked.iunlock hunlock
    rw [Set.insert_sdiff_self_of_notMem hnot] at hunlocked
    exact ⟨hunlocked, htype.symm, rfl, rfl⟩

theorem FS.Held.fileread (h : fs.Held refs ∅) {n r : Word} {data : List Byte}
    (hthrough : file.type = .inode → file.readable = true → (fs.node file).ReadsThrough file.off n)
    (hrun : fileread file n fs = some ((r, data, file'), fs')) :
    fs'.Held refs ∅ ∧ file.Stays file' := by
  unfold XV6.fileread at hrun
  split at hrun
  · cases hrun
    exact ⟨h, rfl, rfl, rfl⟩
  · next hreadable =>
    cases htype : file.type with
    | none =>
      rw [htype] at hrun
      cases hrun
    | inode =>
      rw [htype] at hrun
      obtain ⟨⟨⟩, locked, hlock, hrun⟩ := bind_eq_some hrun
      obtain ⟨⟨r', data'⟩, read, hread, hrun⟩ := bind_eq_some hrun
      obtain ⟨⟨⟩, unlocked, hunlock, hlast⟩ := bind_eq_some hrun
      cases hlast
      have hnode := h.ilock_node hlock
      have hsame := readi_through (by
        rw [hnode]
        exact hthrough htype (Bool.not_eq_false _ ▸ hreadable)) hread
      obtain ⟨hnot, hlocked⟩ := h.ilock hlock
      have hunlocked := (hlocked.congr hsame).iunlock hunlock
      rw [Set.insert_sdiff_self_of_notMem hnot] at hunlocked
      exact ⟨hunlocked, file.advance_stays r⟩

theorem FS.Held.filewrite (h : fs.Held refs ∅) {src : Store} {n r : Word}
    (hthrough : file.type = .inode → file.writable = true → (fs.node file).WritesThrough file.off n)
    (hrun : filewrite file src n fs = some ((r, file'), fs')) :
    fs'.Held refs ∅ ∧ file.Stays file' := by
  unfold XV6.filewrite at hrun
  split at hrun
  · cases hrun
    exact ⟨h, rfl, rfl, rfl⟩
  · next hwritable =>
    cases htype : file.type with
    | none =>
      rw [htype] at hrun
      cases hrun
    | inode =>
      rw [htype] at hrun
      obtain ⟨⟨⟩, locked, hlock, hrun⟩ := bind_eq_some hrun
      obtain ⟨r', written, hwrite, hrun⟩ := bind_eq_some hrun
      obtain ⟨⟨⟩, unlocked, hunlock, hlast⟩ := bind_eq_some hrun
      cases hlast
      have hnode := h.ilock_node hlock
      obtain ⟨hnot, hlocked⟩ := h.ilock hlock
      have hwritten := hlocked.writei (Set.mem_insert file.ip ∅) (by
        rw [hnode]
        exact hthrough htype (Bool.not_eq_false _ ▸ hwritable)) hwrite
      have hunlocked := hwritten.iunlock hunlock
      rw [Set.insert_sdiff_self_of_notMem hnot] at hunlocked
      exact ⟨hunlocked, file.advance_stays r⟩

end OpenFile

/-! ## Runs -/

/-- The call does not change an inode in the cache only: it moves no offset past the end of its
file, reads no hole, and writes to none below the end of its file. A call that searches directories
finds no holes in them. -/
def Kernel.Tame (kernel : Kernel) : Fin 64 × SysCall → Prop
  | (_, .open' _ _) => kernel.fs.disk.DirsWhole
  | (p, .lseek fd offset) => ∀ f ∈ kernel.argfd p fd, (kernel.ftable f).type = .inode →
      ¬ (kernel.fs.node (kernel.ftable f)).size < offset
  | (p, .read fd n) => ∀ f ∈ kernel.argfd p fd, (kernel.ftable f).type = .inode →
      (kernel.ftable f).readable = true →
        (kernel.fs.node (kernel.ftable f)).ReadsThrough (kernel.ftable f).off n
  | (p, .write fd _ n) => ∀ f ∈ kernel.argfd p fd, (kernel.ftable f).type = .inode →
      (kernel.ftable f).writable = true →
        (kernel.fs.node (kernel.ftable f)).WritesThrough (kernel.ftable f).off n
  | (_, .link _ _) => kernel.fs.disk.DirsWhole
  | (_, .unlink _) => kernel.fs.disk.DirsWhole
  | (_, .close _) => True

/-- The kernel before the first call: no inode was read, no file is open, and every process has a
reference to its current directory. -/
structure Kernel.Booted (kernel : Kernel) : Prop where
  fresh : ∀ slot, (kernel.fs.icache slot).valid = false
  unique : kernel.fs.Unique
  closed : ∀ f, (kernel.ftable f).type = .none
  cwd : ∀ p, 0 < (kernel.fs.icache (kernel.proc p).cwd).ref

theorem Kernel.Booted.holds (h : kernel.Booted) :
    kernel.Holds (fun slot ↦ (kernel.fs.icache slot).ref)
      (fun slot ↦ (kernel.fs.icache slot).ref) ∅ := by
  have hrefs : kernel.refs = 0 := by
    unfold Kernel.refs
    exact Finset.sum_eq_zero fun f _ ↦ File.refs_of_none (h.closed f)
  refine ⟨⟨⟨h.unique, fun slot hslot ↦ ?_⟩, fun slot ↦ ?_, fun slot hmem ↦ ?_⟩,
    fun f _ ↦ h.closed f, h.cwd⟩
  · have hvalid := hslot.2
    rw [h.fresh slot] at hvalid
    contradiction
  · rw [hrefs, zero_add]
  · exact absurd hmem (Set.notMem_empty slot)

/-- A call on an open file puts it back into the table. -/
theorem Kernel.Holds.putBack (h : kernel.Holds others others ∅) {f : Fin 100} {fs' : FS}
    {file : File} (hfs : fs'.Held (kernel.refs + others) ∅) (hstays : (kernel.ftable f).Stays file)
    (hrun : XV6.setFile f file { kernel with fs := fs' } = some ((), kernel')) :
    kernel'.Holds others others ∅ := by
  have hholds : Kernel.Holds others others ∅ { kernel with fs := fs' } := ⟨hfs, h.idle, h.cwd⟩
  refine hholds.setFile_same ?_ ?_ hrun
  · rw [hstays.ref, hstays.type]
    exact h.idle f
  · unfold File.refs
    rw [hstays.type, hstays.ref, hstays.ip]

theorem Kernel.Holds.sysLseek (h : kernel.Holds others others ∅) {fd offset r : Word}
    (htame : kernel.Tame (p, .lseek fd offset))
    (hrun : sysLseek p fd offset kernel = some (r, kernel')) : kernel'.Holds others others ∅ := by
  unfold XV6.sysLseek at hrun
  rw [bind_run get_run] at hrun
  cases hfile : kernel.argfd p fd with
  | none =>
    rw [hfile] at hrun
    cases hrun
    exact h
  | some f =>
    rw [hfile] at hrun
    obtain ⟨⟨r', file⟩, sought, hseek, hrun⟩ := bind_eq_some hrun
    obtain ⟨⟨⟩, last, hset, hlast⟩ := bind_eq_some hrun
    cases hlast
    obtain ⟨fs', hcall, rfl⟩ := onFS_cases hseek
    obtain ⟨hfs, hstays⟩ := h.fs.filelseek (htame f hfile) hcall
    exact h.putBack hfs hstays hset

theorem Kernel.Holds.sysRead (h : kernel.Holds others others ∅) {fd n : Word}
    {result : Word × List Byte} (htame : kernel.Tame (p, .read fd n))
    (hrun : sysRead p fd n kernel = some (result, kernel')) :
    kernel'.Holds others others ∅ := by
  unfold XV6.sysRead at hrun
  rw [bind_run get_run] at hrun
  cases hfile : kernel.argfd p fd with
  | none =>
    rw [hfile] at hrun
    cases hrun
    exact h
  | some f =>
    rw [hfile] at hrun
    obtain ⟨⟨r, data, file⟩, read, hread, hrun⟩ := bind_eq_some hrun
    obtain ⟨⟨⟩, last, hset, hlast⟩ := bind_eq_some hrun
    cases hlast
    obtain ⟨fs', hcall, rfl⟩ := onFS_cases hread
    obtain ⟨hfs, hstays⟩ := h.fs.fileread (htame f hfile) hcall
    exact h.putBack hfs hstays hset

theorem Kernel.Holds.sysWrite (h : kernel.Holds others others ∅) {fd n r : Word} {src : Store}
    (htame : kernel.Tame (p, .write fd src n))
    (hrun : sysWrite p fd src n kernel = some (r, kernel')) : kernel'.Holds others others ∅ := by
  unfold XV6.sysWrite at hrun
  rw [bind_run get_run] at hrun
  cases hfile : kernel.argfd p fd with
  | none =>
    rw [hfile] at hrun
    cases hrun
    exact h
  | some f =>
    rw [hfile] at hrun
    obtain ⟨⟨r', file⟩, written, hwrite, hrun⟩ := bind_eq_some hrun
    obtain ⟨⟨⟩, last, hset, hlast⟩ := bind_eq_some hrun
    cases hlast
    obtain ⟨fs', hcall, rfl⟩ := onFS_cases hwrite
    obtain ⟨hfs, hstays⟩ := h.fs.filewrite (htame f hfile) hcall
    exact h.putBack hfs hstays hset

/-- A call of the file system that gives back what it takes. -/
theorem Kernel.Holds.onFS {α : Type} {code : FSM α} (h : kernel.Holds others others ∅)
    (hcode : ∀ value fs', code kernel.fs = some (value, fs') →
      fs'.Held (kernel.refs + others) ∅) {value : α}
    (hrun : onFS code kernel = some (value, kernel')) : kernel'.Holds others others ∅ := by
  obtain ⟨fs', hcall, rfl⟩ := onFS_cases hrun
  exact ⟨hcode value fs' hcall, h.idle, h.cwd⟩

theorem Kernel.Holds.call (h : kernel.Holds others others ∅) {call : Fin 64 × SysCall}
    (htame : kernel.Tame call) (hrun : kernel.call call = some kernel') :
    kernel'.Holds others others ∅ := by
  obtain ⟨p, call⟩ := call
  have hcwd : 0 < (kernel.refs + others) (kernel.proc p).cwd :=
    add_pos_of_nonneg_of_pos (kernel.refs_nonneg _) (h.cwd p)
  cases call with
  | open' path omode =>
    obtain ⟨⟨r, last⟩, hcall, rfl⟩ := Option.map_eq_some_iff.mp hrun
    exact h.sysOpen htame hcall
  | lseek fd offset =>
    obtain ⟨⟨r, last⟩, hcall, rfl⟩ := Option.map_eq_some_iff.mp hrun
    exact h.sysLseek htame hcall
  | read fd n =>
    obtain ⟨⟨r, last⟩, hcall, rfl⟩ := Option.map_eq_some_iff.mp hrun
    exact h.sysRead htame hcall
  | write fd src n =>
    obtain ⟨⟨r, last⟩, hcall, rfl⟩ := Option.map_eq_some_iff.mp hrun
    exact h.sysWrite htame hcall
  | link old new =>
    obtain ⟨⟨r, last⟩, hcall, rfl⟩ := Option.map_eq_some_iff.mp hrun
    exact h.onFS (fun _ _ hlink ↦ FS.Steady.sysLink ⟨h.fs, htame⟩ hcwd hlink) hcall
  | unlink path =>
    obtain ⟨⟨r, last⟩, hcall, rfl⟩ := Option.map_eq_some_iff.mp hrun
    exact h.onFS (fun _ _ hunlink ↦ FS.Steady.sysUnlink ⟨h.fs, htame⟩ hcwd hunlink) hcall
  | close fd =>
    obtain ⟨⟨r, last⟩, hcall, rfl⟩ := Option.map_eq_some_iff.mp hrun
    exact h.sysClose hcall

/-! ## A new image -/

theorem image_fits : 1024 + 4096 ≤ 2 ^ 31 := by decide

/-- The image that `mkfs` makes, without files: the root directory with its entries for itself. -/
def rootDisk : Disk where
  size := 1024
  ninodes := 200
  size_fits := image_fits
  used b := b.toNat < 30
  dinode inum :=
    if inum = 1 then ⟨.dir, 0, 0, 1, 512, fun i ↦ if i = 0 then 29 else 0⟩ else Dinode.zero
  block b :=
    if b = 29 then
      splice (splice (fun _ ↦ 0) 0 16 (dirent 1 [0x2E])) 16 16 (dirent 1 [0x2E, 0x2E])
    else fun _ ↦ 0

/-- The kernel with that image, and all processes in the root directory. -/
def rootKernel : Kernel where
  fs := ⟨rootDisk, fun slot ↦ ⟨Dinode.zero, 1, if slot = 0 then 1 else 0, false, false⟩⟩
  ftable _ := ⟨.none, 0, false, false, 0, 0⟩
  proc _ := ⟨fun _ ↦ none, 0⟩

theorem rootKernel_booted : rootKernel.Booted where
  fresh _ := rfl
  unique slot slot' href href' _ := by
    have hzero (slot : Slot) (href : 0 < (rootKernel.fs.icache slot).ref) : slot = 0 := by
      by_contra hne
      have hunused : (rootKernel.fs.icache slot).ref = 0 := if_neg hne
      omega
    rw [hzero slot href, hzero slot' href']
  closed _ := rfl
  cwd _ := zero_lt_one

theorem rootDisk_dirsWhole : rootDisk.DirsWhole := by
  intro inum htype
  have hroot : inum = 1 := by
    by_contra hne
    have hzero : rootDisk.dinode inum = Dinode.zero := if_neg hne
    rw [hzero] at htype
    contradiction
  subst hroot
  intro i hi
  have hi' : i < 512 := hi
  have hblock : BitVec.ofNat 32 i / 512 = 0 := by
    apply BitVec.eq_of_toNat_eq
    rw [BitVec.toNat_udiv, BitVec.toNat_ofNat, Nat.mod_eq_of_lt (by omega)]
    exact Nat.div_eq_of_lt hi'
  rw [hblock]
  exact (by decide : (29 : Word) ≠ 0)

/-- `open("/f", O_CREATE|O_RDWR)` -/
def openNew : Fin 64 × SysCall := (0, .open' [0x2F, 0x66] 0x202)

/-- In a run of tame calls every cached inode has the contents of its record. -/
theorem cached_inodes_on_disk {final : Kernel} {calls : List (Fin 64 × SysCall)}
    (hboot : kernel.Booted) (htame : Guarded Kernel.call Kernel.Tame kernel calls)
    (hrun : run Kernel.call kernel calls = some final) : final.OnDisk := by
  have hfinal := htame.invariant_of_run (fun _ _ _ h hcall hnext ↦ h.call hcall hnext)
    hboot.holds hrun
  exact hfinal.fs.inStep.onDisk

/-- A new file is written to. -/
theorem new_file_on_disk :
    ∃ kernel, run Kernel.call rootKernel [openNew, (0, .write 0 (fun _ ↦ 0) 5)] = some kernel ∧
      kernel.OnDisk := by
  have hvalues : ((rootKernel.call openNew).bind fun kernel ↦
      (kernel.call (0, .write 0 (fun _ ↦ 0) 5)).map fun _ ↦
        decide (kernel.argfd 0 0 = some 0 ∧ (kernel.fs.node (kernel.ftable 0)).size <
          (kernel.ftable 0).off +
            (kernel.fs.node (kernel.ftable 0)).writeLength (kernel.ftable 0).off 5)) =
      some true := by
    decide +kernel
  obtain ⟨opened, hopen, hvalues⟩ := Option.bind_eq_some_iff.mp hvalues
  obtain ⟨written, hwrite, hvalues⟩ := Option.map_eq_some_iff.mp hvalues
  obtain ⟨hfile, hlonger⟩ := of_decide_eq_true hvalues
  have hrun : run Kernel.call rootKernel [openNew, (0, .write 0 (fun _ ↦ 0) 5)] =
      some written := by
    rw [run_cons_of_step _ hopen, run_cons_of_step _ hwrite]
    rfl
  have htame : Guarded Kernel.call Kernel.Tame rootKernel
      [openNew, (0, .write 0 (fun _ ↦ 0) 5)] := by
    refine ⟨rootDisk_dirsWhole, fun kernel hkernel ↦ ⟨fun f hf _ _ _ ↦ ?_, fun _ _ ↦ trivial⟩⟩
    cases hkernel.symm.trans hopen
    cases hf.symm.trans hfile
    exact Or.inl hlonger
  exact ⟨written, hrun, cached_inodes_on_disk rootKernel_booted htame hrun⟩

/-- A seek past the end of a new file sets the size of the cached inode only. -/
theorem seek_not_on_disk :
    ∃ kernel, rootKernel.Booted ∧
      run Kernel.call rootKernel [openNew, (0, .lseek 0 1)] = some kernel ∧
      kernel.fs.Cached 1 ∧ (kernel.fs.icache 1).busy = false ∧
      (kernel.fs.icache 1).size = 1 ∧
      (kernel.fs.disk.dinode (kernel.fs.icache 1).inum).size = 0 ∧ ¬ kernel.OnDisk := by
  have hvalues : ((run Kernel.call rootKernel [openNew, (0, .lseek 0 1)]).map fun kernel ↦
      decide (kernel.fs.Cached 1 ∧ (kernel.fs.icache 1).busy = false ∧
        (kernel.fs.icache 1).size = 1 ∧
        (kernel.fs.disk.dinode (kernel.fs.icache 1).inum).size = 0)) = some true := by
    decide +kernel
  obtain ⟨kernel, hrun, hvalues⟩ := Option.map_eq_some_iff.mp hvalues
  obtain ⟨hcached, hbusy, hsize, hrecord⟩ := of_decide_eq_true hvalues
  refine ⟨kernel, rootKernel_booted, hrun, hcached, hbusy, hsize, hrecord, fun hdisk ↦ ?_⟩
  have hsame := congrArg Dinode.size (hdisk.record 1 hcached)
  rw [hsize, hrecord] at hsame
  exact absurd hsame (by decide)

end OS537.XV6
