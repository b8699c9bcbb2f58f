import OS537.XV6.CallInvariants
import OS537.XV6.KernelRuns
import OS537.XV6.Sessions

/-!
# The largest size

A file with pointers has room for `MAXFILE*BSIZE` bytes. No function of the file system makes an
inode larger than that, except `filelseek`, which makes the size any offset past the end of the
file. As long as the sizes are in range, `readi`, `writei` and `dirlookup` call `bmap` for blocks
below `MAXFILE` only, and `writei` writes as much as fits.
-/

namespace OS537.XV6

open Bytes Code Run

/-! ## Inodes -/

/-- The size is at most `MAXFILE*BSIZE`; an extent inode has no largest size. -/
def Dinode.Fits (node : Dinode) : Prop := node.type ≠ .extent → node.size.toNat ≤ 140 * 512

/-- The blocks for which the loops of `readi` and `writei` call `bmap`. -/
def blocksOf (off n : Word) : List Word :=
  (roundsOf off n).map fun round ↦ BitVec.ofNat 32 round.off / 512

/-- The blocks for which `readi` calls `bmap`. -/
def Dinode.blocksRead (node : Dinode) (off n : Word) : List Word :=
  if node.refuses off n then [] else blocksOf off (node.readLength off n)

/-- The blocks for which `writei` calls `bmap`. -/
def Dinode.blocksWritten (node : Dinode) (off n : Word) : List Word :=
  if node.refuses off n then [] else blocksOf off (node.writeLength off n)

/-- The blocks for which `dirlookup` calls `bmap`, if it does not find the name before. -/
def Dinode.blocksSearched (node : Dinode) : List Word :=
  (List.range ((node.size.toNat + 511) / 512)).map fun b ↦ BitVec.ofNat 32 (512 * b) / 512

section Inodes

variable {node : Dinode} {off n : Word}

theorem Dinode.within_of_accepts (h : node.refuses off n = false) :
    off.toNat ≤ node.size.toNat ∧ off.toNat + n.toNat < 2 ^ 32 := by
  simp only [Dinode.refuses, Bool.or_eq_false_iff, decide_eq_false_iff_not, BitVec.lt_def,
    BitVec.toNat_add] at h
  omega

theorem Dinode.readLength_toNat_le (hoff : off.toNat ≤ node.size.toNat)
    (hwrap : off.toNat + n.toNat < 2 ^ 32) :
    off.toNat + (node.readLength off n).toNat ≤ node.size.toNat := by
  unfold Dinode.readLength
  split
  · rw [BitVec.toNat_sub]
    omega
  · next hlonger =>
    rw [BitVec.lt_def, BitVec.toNat_add] at hlonger
    omega

/-- `writei` cuts a write at `MAXFILE*BSIZE`, and the subtraction does not go below 0. -/
theorem Dinode.writeLength_toNat (htype : node.type ≠ .extent) (hoff : off.toNat ≤ 140 * 512)
    (hwrap : off.toNat + n.toNat < 2 ^ 32) :
    (node.writeLength off n).toNat = min n.toNat (140 * 512 - off.toNat) := by
  have hmax : maxSize.toNat = 140 * 512 := rfl
  have hsum : (off + n).toNat = off.toNat + n.toNat := by
    rw [BitVec.toNat_add]
    omega
  unfold Dinode.writeLength
  split
  · next hlonger =>
    have hlt : maxSize.toNat < (off + n).toNat := hlonger.1
    rw [BitVec.toNat_sub]
    omega
  · next hfits =>
    have hle : ¬ maxSize.toNat < (off + n).toNat := fun hlt ↦ hfits ⟨hlt, htype⟩
    omega

theorem lt_of_mem_blocksOf (hrange : off.toNat + n.toNat ≤ 140 * 512) :
    ∀ bn ∈ blocksOf off n, bn.toNat < 140 := by
  intro bn hmem
  obtain ⟨round, hround, rfl⟩ := List.mem_map.mp hmem
  have hbounds := mem_rounds hround
  rw [blockNumber_ofNat (by omega)]
  omega

theorem Dinode.Fits.read_lt (h : node.Fits) (htype : node.type ≠ .extent) :
    ∀ bn ∈ node.blocksRead off n, bn.toNat < 140 := by
  intro bn hmem
  unfold Dinode.blocksRead at hmem
  split at hmem
  · cases hmem
  · next haccepts =>
    obtain ⟨hoff, hwrap⟩ := Dinode.within_of_accepts (Bool.eq_false_iff.mpr haccepts)
    have hsize := h htype
    have hlength := Dinode.readLength_toNat_le hoff hwrap
    exact lt_of_mem_blocksOf (by omega) bn hmem

theorem Dinode.Fits.written_le (h : node.Fits) (htype : node.type ≠ .extent)
    (haccepts : node.refuses off n = false) :
    off.toNat + (node.writeLength off n).toNat ≤ 140 * 512 := by
  obtain ⟨hoff, hwrap⟩ := Dinode.within_of_accepts haccepts
  have hsize := h htype
  rw [Dinode.writeLength_toNat htype (by omega) hwrap]
  omega

theorem Dinode.Fits.written_lt (h : node.Fits) (htype : node.type ≠ .extent) :
    ∀ bn ∈ node.blocksWritten off n, bn.toNat < 140 := by
  intro bn hmem
  unfold Dinode.blocksWritten at hmem
  split at hmem
  · cases hmem
  · next haccepts =>
    exact lt_of_mem_blocksOf (h.written_le htype (Bool.eq_false_iff.mpr haccepts)) bn hmem

theorem Dinode.Fits.searched_lt (h : node.Fits) (htype : node.type ≠ .extent) :
    ∀ bn ∈ node.blocksSearched, bn.toNat < 140 := by
  intro bn hmem
  obtain ⟨b, hb, rfl⟩ := List.mem_map.mp hmem
  have hlt := List.mem_range.mp hb
  have hsize := h htype
  rw [blockNumber_ofNat (by omega)]
  omega

end Inodes

/-! ## File systems -/

/-- The inodes in the cache and on the disk are not too large. -/
structure FS.Bounded (fs : FS) : Prop where
  cached : ∀ slot, (fs.icache slot).Fits
  record : ∀ inum, (fs.disk.dinode inum).Fits

variable {fs fs' : FS} {slot : Slot} {disk : Disk} {ip : Inode} {inum : Word}

theorem FS.Bounded.set (h : fs.Bounded) (slot : Slot) (ip : Inode) (hip : ip.Fits)
    (hdisk : ∀ inum, (disk.dinode inum).Fits) :
    FS.Bounded (FS.set { fs with disk := disk } slot ip) where
  cached other := by
    by_cases heq : other = slot
    · subst heq
      rw [FS.set_icache_self]
      exact hip
    · rw [FS.set_icache_of_ne _ ip heq]
      exact h.cached other
  record := hdisk

theorem Dinode.Fits.update {node : Dinode} {records : Word → Dinode} (h : node.Fits)
    (hrecords : ∀ inum, (records inum).Fits) (inum : Word) :
    ∀ other, (Function.update records inum node other).Fits := by
  intro other
  by_cases heq : other = inum
  · subst heq
    rw [Function.update_self]
    exact h
  · rw [Function.update_of_ne heq]
    exact hrecords other

theorem Dinode.Fits.iupdate (hip : ip.Fits) (hdisk : ∀ inum, (disk.dinode inum).Fits) :
    ∀ inum, ((iupdate disk ip).dinode inum).Fits :=
  hip.update hdisk ip.inum

theorem iget_bounded (inum : Word) : Maintains FS.Bounded (iget inum) := by
  intro fs h found fs' hrun
  obtain ⟨-, -, rfl⟩ | ⟨-, -, rfl⟩ := iget_cases hrun
  · exact h.set found _ (h.cached found) h.record
  · exact h.set found _ (h.cached found) h.record

theorem idup_bounded (slot : Slot) : Maintains FS.Bounded (idup slot) := by
  rintro fs h _ _ ⟨⟩
  exact h.set slot _ (h.cached slot) h.record

theorem ialloc_bounded (type : FileType) : Maintains FS.Bounded (ialloc type) := by
  intro fs h found fs' hrun
  obtain ⟨inum, -, hget⟩ := ialloc_cases hrun
  have hzero : Dinode.Fits { Dinode.zero with type := type } := fun _ ↦ Nat.zero_le _
  refine iget_bounded inum ?_ hget
  exact ⟨h.cached, hzero.update h.record inum⟩

theorem ilock_bounded (slot : Slot) : Maintains FS.Bounded (ilock slot) := by
  intro fs h result fs' hrun
  obtain ⟨-, -, ⟨-, rfl⟩ | ⟨-, -, rfl⟩⟩ := ilock_cases hrun
  · exact h.set slot _ (h.cached slot) h.record
  · exact h.set slot _ (h.record _) h.record

theorem iunlock_bounded (slot : Slot) : Maintains FS.Bounded (iunlock slot) := by
  intro fs h result fs' hrun
  obtain ⟨-, -, rfl⟩ := iunlock_cases hrun
  exact h.set slot _ (h.cached slot) h.record

theorem iput_bounded (slot : Slot) : Maintains FS.Bounded (iput slot) := by
  intro fs h result fs' hrun
  obtain ⟨-, -, -, -, ip, disk, htrunc, rfl⟩ | ⟨-, rfl⟩ := iput_cases hrun
  · obtain ⟨-, -, rfl, rfl⟩ := itrunc_eq_some_iff.mp htrunc
    have hzero (type : FileType) (ip : Inode) :
        Dinode.Fits { ip.truncated.toDinode with type := type } := fun _ ↦ Nat.zero_le _
    refine h.set slot _ (hzero .free _) (Dinode.Fits.iupdate (hzero .free _) ?_)
    exact Dinode.Fits.iupdate (hzero _ _) h.record
  · exact h.set slot _ (h.cached slot) h.record

/-- An inode with other addresses is as large as before. -/
theorem FS.Bounded.stored (h : fs.Bounded) (hstored : fs.Stored slot fs') : fs'.Bounded := by
  obtain ⟨hdinode, addrs, hicache⟩ := hstored
  refine ⟨fun other ↦ ?_, fun inum ↦ ?_⟩
  · rw [hicache]
    exact (h.set slot { fs.icache slot with addrs := addrs } (h.cached slot) h.record).cached other
  · rw [hdinode]
    exact h.record inum

theorem mapSlot_bounded (slot : Slot) (off : Word) : Maintains FS.Bounded (mapSlot slot off) :=
  fun _ h _ _ hrun ↦ h.stored (mapSlot_stored hrun)

theorem readRounds_bounded (slot : Slot) (list : List Round) :
    Maintains FS.Bounded (readRounds slot list) := by
  induction list with
  | nil => exact .pure _
  | cons round rest ih =>
    refine (mapSlot_bounded slot _).bind fun addr ↦ ?_
    have hread : Maintains FS.Bounded (readBlock addr round.off round.m) := by
      rintro fs h _ _ ⟨⟩
      exact h
    exact hread.bind fun data ↦ ih.bind fun next ↦ .pure _

theorem readi_bounded (slot : Slot) (off n : Word) : Maintains FS.Bounded (readi slot off n) := by
  intro fs h result fs' hrun
  unfold readi at hrun
  dsimp only at hrun
  split at hrun
  · cases hrun
    exact h
  · obtain ⟨⟨data, last⟩, hrounds, hlast⟩ := Option.map_eq_some_iff.mp hrun
    cases hlast
    exact readRounds_bounded slot _ h hrounds

/-- An inode that is not too large goes to the cache and to the disk. -/
theorem FS.Bounded.iupdateSlot (h : fs.Bounded) {result : Unit} (hip : ip.Fits)
    (hrun : iupdateSlot slot (fs.set slot ip) = some (result, fs')) : fs'.Bounded := by
  cases hrun
  have hset := h.set slot ip hip h.record
  exact ⟨hset.cached, Dinode.Fits.iupdate (hset.cached slot) h.record⟩

theorem writei_bounded (slot : Slot) (src : Store) (off n : Word) :
    Maintains FS.Bounded (writei slot src off n) := by
  intro fs h result fs' hrun
  unfold writei at hrun
  dsimp only at hrun
  split at hrun
  · cases hrun
    exact h
  · next haccepts =>
    obtain ⟨⟨⟩, stored, hrounds, hrun⟩ := bind_eq_some hrun
    obtain ⟨⟨⟩, grown, hgrow, hlast⟩ := bind_eq_some hrun
    cases hlast
    have hstored := writeRounds_stored hrounds
    have hbounded := h.stored hstored
    unfold growSize at hgrow
    split at hgrow
    · refine hbounded.iupdateSlot (fun htype ↦ ?_) hgrow
      change (off + _).toNat ≤ 140 * 512
      have hsame : (stored.icache slot).type = (fs.icache slot).type := by
        obtain ⟨-, addrs, hicache⟩ := hstored
        rw [hicache, Function.update_self]
      rw [hsame] at htype
      have hle := (h.cached slot).written_le htype (Bool.eq_false_iff.mpr haccepts)
      rw [BitVec.toNat_add, Nat.mod_eq_of_lt (by omega)]
      exact hle
    · cases hgrow
      exact hbounded

theorem addLinks_bounded (slot : Slot) (links : BitVec 16) :
    Maintains FS.Bounded (addLinks slot links) := by
  intro fs h result fs' hrun
  refine h.iupdateSlot ?_ hrun
  exact h.cached slot

theorem startInode_bounded (slot : Slot) (major minor : BitVec 16) :
    Maintains FS.Bounded (startInode slot major minor) := by
  intro fs h result fs' hrun
  refine h.iupdateSlot ?_ hrun
  exact h.cached slot

/-- Every function that system calls are made of keeps the sizes in range. -/
theorem bounded_kept : Kept FS.Bounded where
  iget := iget_bounded
  idup := idup_bounded
  ialloc := ialloc_bounded
  ilock := ilock_bounded
  iunlock := iunlock_bounded
  iput := iput_bounded
  mapSlot := mapSlot_bounded
  readi := readi_bounded
  writei := writei_bounded
  addLinks := addLinks_bounded
  startInode := startInode_bounded

/-! ## Steps -/

/-- A step of a system call. -/
inductive InodeCall where
  | iget (inum : Word)
  | idup (slot : Slot)
  | ialloc (type : FileType)
  | ilock (slot : Slot)
  | iunlock (slot : Slot)
  | iput (slot : Slot)
  | readi (slot : Slot) (off n : Word)
  | writei (slot : Slot) (src : Store) (off n : Word)
  | dirlookup (dp : Slot) (name : Name)
  | addLinks (slot : Slot) (links : BitVec 16)
  | startInode (slot : Slot) (major minor : BitVec 16)
  | seekSize (slot : Slot) (offset : Word)

def FS.inodeCall (fs : FS) : InodeCall → Option FS
  | .iget inum => (iget inum fs).map Prod.snd
  | .idup slot => (idup slot fs).map Prod.snd
  | .ialloc type => (ialloc type fs).map Prod.snd
  | .ilock slot => (ilock slot fs).map Prod.snd
  | .iunlock slot => (iunlock slot fs).map Prod.snd
  | .iput slot => (iput slot fs).map Prod.snd
  | .readi slot off n => (readi slot off n fs).map Prod.snd
  | .writei slot src off n => (writei slot src off n fs).map Prod.snd
  | .dirlookup dp name => (dirlookup dp name fs).map Prod.snd
  | .addLinks slot links => (addLinks slot links fs).map Prod.snd
  | .startInode slot major minor => (startInode slot major minor fs).map Prod.snd
  | .seekSize slot offset => (seekSize slot offset fs).map Prod.snd

/-- The inode that a step calls `bmap` for, and the blocks. -/
def FS.bmapCalls (fs : FS) : InodeCall → List (Slot × Word)
  | .readi slot off n => ((fs.icache slot).blocksRead off n).map (slot, ·)
  | .writei slot _ off n => ((fs.icache slot).blocksWritten off n).map (slot, ·)
  | .dirlookup dp _ => (fs.icache dp).blocksSearched.map (dp, ·)
  | _ => []

/-- A seek makes no file with pointers larger than `MAXFILE*BSIZE`. -/
def FS.SeeksInRange (fs : FS) : InodeCall → Prop
  | .seekSize slot offset => (fs.icache slot).type ≠ .extent → offset.toNat ≤ 140 * 512
  | _ => True

/-- The sizes are in range, `bmap` is called for blocks below `MAXFILE`, and `writei` writes as much
as there is room for. -/
structure FS.InRange (fs : FS) : Prop where
  sizes : ∀ slot, (fs.icache slot).type ≠ .extent → (fs.icache slot).size.toNat ≤ 140 * 512
  blocks : ∀ call, ∀ entry ∈ fs.bmapCalls call, (fs.icache entry.1).type ≠ .extent →
    entry.2.toNat < 140
  written : ∀ slot src off n r fs', (fs.icache slot).type = .file ∨ (fs.icache slot).type = .dir →
    off.toNat ≤ (fs.icache slot).size.toNat → off.toNat + n.toNat < 2 ^ 32 →
    writei slot src off n fs = some (r, fs') → r.toNat = min n.toNat (140 * 512 - off.toNat)

theorem FS.Bounded.blocks (h : fs.Bounded) (call : InodeCall) :
    ∀ entry ∈ fs.bmapCalls call, (fs.icache entry.1).type ≠ .extent → entry.2.toNat < 140 := by
  intro entry hmem htype
  cases call with
  | readi slot off n =>
    obtain ⟨bn, hbn, rfl⟩ := List.mem_map.mp hmem
    exact (h.cached slot).read_lt htype bn hbn
  | writei slot src off n =>
    obtain ⟨bn, hbn, rfl⟩ := List.mem_map.mp hmem
    exact (h.cached slot).written_lt htype bn hbn
  | dirlookup dp name =>
    obtain ⟨bn, hbn, rfl⟩ := List.mem_map.mp hmem
    exact (h.cached dp).searched_lt htype bn hbn
  | _ => cases hmem

theorem FS.Bounded.written (h : fs.Bounded) {src : Store} {off n r : Word}
    (htype : (fs.icache slot).type = .file ∨ (fs.icache slot).type = .dir)
    (hoff : off.toNat ≤ (fs.icache slot).size.toNat) (hwrap : off.toNat + n.toNat < 2 ^ 32)
    (hrun : writei slot src off n fs = some (r, fs')) :
    r.toNat = min n.toNat (140 * 512 - off.toNat) := by
  have hpointer : (fs.icache slot).type ≠ .extent := by
    rcases htype with htype | htype <;> simp [htype]
  have haccepts : (fs.icache slot).refuses off n = false := by
    have hdev : (fs.icache slot).type ≠ .dev := by
      rcases htype with htype | htype <;> simp [htype]
    simp only [Dinode.refuses, Bool.or_eq_false_iff, decide_eq_false_iff_not, BitVec.lt_def,
      BitVec.toNat_add]
    exact ⟨⟨hdev, by omega⟩, by omega⟩
  have hsize := h.cached slot hpointer
  simp only [writei, haccepts, Bool.false_eq_true, if_false] at hrun
  obtain ⟨⟨⟩, stored, -, hrun⟩ := bind_eq_some hrun
  obtain ⟨⟨⟩, grown, -, hlast⟩ := bind_eq_some hrun
  cases hlast
  exact Dinode.writeLength_toNat hpointer (by omega) hwrap

theorem FS.Bounded.inRange (h : fs.Bounded) : fs.InRange :=
  ⟨h.cached, h.blocks, fun _ _ _ _ _ _ htype hoff hwrap hrun ↦ h.written htype hoff hwrap hrun⟩

theorem FS.Bounded.seekSize (h : fs.Bounded) {offset : Word} {result : Unit}
    (hrange : (fs.icache slot).type ≠ .extent → offset.toNat ≤ 140 * 512)
    (hrun : seekSize slot offset fs = some (result, fs')) : fs'.Bounded := by
  unfold XV6.seekSize at hrun
  split at hrun
  · cases hrun
    exact h.set slot _ (by exact hrange) h.record
  · cases hrun
    exact h

theorem FS.Bounded.inodeCall (h : fs.Bounded) {call : InodeCall} (hrange : fs.SeeksInRange call)
    (hrun : fs.inodeCall call = some fs') : fs'.Bounded := by
  have hstep {α : Type} {code : FSM α} (hcode : Maintains FS.Bounded code)
      (hrun : (code fs).map Prod.snd = some fs') : fs'.Bounded := by
    obtain ⟨⟨value, last⟩, hcall, rfl⟩ := Option.map_eq_some_iff.mp hrun
    exact hcode h hcall
  cases call with
  | iget inum => exact hstep (iget_bounded inum) hrun
  | idup slot => exact hstep (idup_bounded slot) hrun
  | ialloc type => exact hstep (ialloc_bounded type) hrun
  | ilock slot => exact hstep (ilock_bounded slot) hrun
  | iunlock slot => exact hstep (iunlock_bounded slot) hrun
  | iput slot => exact hstep (iput_bounded slot) hrun
  | readi slot off n => exact hstep (readi_bounded slot off n) hrun
  | writei slot src off n => exact hstep (writei_bounded slot src off n) hrun
  | dirlookup dp name => exact hstep (bounded_kept.dirlookup dp name) hrun
  | addLinks slot links => exact hstep (addLinks_bounded slot links) hrun
  | startInode slot major minor => exact hstep (startInode_bounded slot major minor) hrun
  | seekSize slot offset =>
    obtain ⟨⟨value, last⟩, hcall, rfl⟩ := Option.map_eq_some_iff.mp hrun
    exact h.seekSize hrange hcall

/-! ## Runs -/

/-- No call of `lseek` makes a file with pointers larger than `MAXFILE*BSIZE`. -/
def Kernel.SeeksInRange (kernel : Kernel) : Fin 64 × SysCall → Prop
  | (p, .lseek fd offset) => ∀ f ∈ kernel.argfd p fd,
      ∀ locked ∈ ilock (kernel.ftable f).ip kernel.fs,
      (locked.2.icache (kernel.ftable f).ip).type ≠ .extent → offset.toNat ≤ 140 * 512
  | _ => True

theorem FS.Bounded.filelseek (h : fs.Bounded) {file : File} {offset : Word} {result : Word × File}
    (hrange : ∀ locked ∈ ilock file.ip fs,
      (locked.2.icache file.ip).type ≠ .extent → offset.toNat ≤ 140 * 512)
    (hrun : filelseek file offset fs = some (result, fs')) : fs'.Bounded := by
  unfold XV6.filelseek at hrun
  cases htype : file.type with
  | none =>
    rw [htype] at hrun
    cases hrun
    exact h
  | inode =>
    rw [htype] at hrun
    obtain ⟨⟨⟩, locked, hlock, hrun⟩ := bind_eq_some hrun
    obtain ⟨⟨⟩, sought, hseek, hrun⟩ := bind_eq_some hrun
    obtain ⟨⟨⟩, unlocked, hunlock, hlast⟩ := bind_eq_some hrun
    cases hlast
    have hsought := (ilock_bounded _ h hlock).seekSize (hrange _ hlock) hseek
    exact iunlock_bounded _ hsought hunlock

theorem FS.Bounded.call {kernel kernel' : Kernel} (h : kernel.fs.Bounded)
    {call : Fin 64 × SysCall} (hrange : kernel.SeeksInRange call)
    (hrun : kernel.call call = some kernel') : kernel'.fs.Bounded := by
  refine bounded_kept.call h ?_ hrun
  rintro p fd offset rfl f hf result fs' hseek
  exact h.filelseek (hrange f hf) hseek

theorem rootKernel_bounded : rootKernel.fs.Bounded where
  cached _ _ := Nat.zero_le _
  record inum _ := by
    by_cases hroot : inum = 1
    · subst hroot
      decide
    · have hzero : rootKernel.fs.disk.dinode inum = Dinode.zero := if_neg hroot
      rw [hzero]
      exact Nat.zero_le _

/-- If no seek goes past `MAXFILE*BSIZE`, the sizes are in range in every state that system calls
reach, and so they are between the steps of a call. -/
theorem sizes_in_range {kernel final : Kernel} {calls : List (Fin 64 × SysCall)}
    (hbounded : kernel.fs.Bounded)
    (hrange : Guarded Kernel.call Kernel.SeeksInRange kernel calls)
    (hrun : run Kernel.call kernel calls = some final) :
    final.fs.InRange ∧ ∀ steps fs, Guarded FS.inodeCall FS.SeeksInRange final.fs steps →
      run FS.inodeCall final.fs steps = some fs → fs.InRange := by
  have hfinal : OfKernel FS.Bounded final :=
    hrange.invariant_of_run (fun _ _ _ h hcall hnext ↦ FS.Bounded.call h hcall hnext) hbounded hrun
  refine ⟨hfinal.inRange, fun steps fs hsteps hreached ↦ ?_⟩
  have hfs : fs.Bounded :=
    hsteps.invariant_of_run (fun _ _ _ h hcall hnext ↦ h.inodeCall hcall hnext)
      (by exact hfinal) hreached
  exact hfs.inRange

/-- A new file is made 100 bytes long, and 5 more are written. -/
theorem short_seek_in_range : ∃ kernel,
    run Kernel.call rootKernel [openNew, (0, .lseek 0 100), (0, .write 0 (fun _ ↦ 0) 5)] =
      some kernel ∧ (kernel.fs.icache 1).size = 105 ∧ kernel.fs.InRange := by
  have hvalues : ((run Kernel.call rootKernel
      [openNew, (0, .lseek 0 100), (0, .write 0 (fun _ ↦ 0) 5)]).map fun kernel ↦
        (kernel.fs.icache 1).size) = some 105 := by
    decide +kernel
  obtain ⟨kernel, hrun, hsize⟩ := Option.map_eq_some_iff.mp hvalues
  have hrange : Guarded Kernel.call Kernel.SeeksInRange rootKernel
      [openNew, (0, .lseek 0 100), (0, .write 0 (fun _ ↦ 0) 5)] := by
    refine ⟨trivial, fun _ _ ↦ ⟨fun _ _ _ _ _ ↦ ?_, fun _ _ ↦ ⟨trivial, fun _ _ ↦ trivial⟩⟩⟩
    decide
  exact ⟨kernel, hrun, hsize, (sizes_in_range rootKernel_bounded hrange hrun).1⟩

/-- A seek one byte past `MAXFILE*BSIZE` makes the file that long, and the next write does not
return. In a file of one byte, a write of `2 ^ 32 - 1` bytes at its end is refused. -/
theorem long_seek_out_of_range :
    (∃ kernel, rootKernel.fs.Bounded ∧
      run Kernel.call rootKernel [openNew, (0, .lseek 0 71681)] = some kernel ∧
      (kernel.fs.icache 1).type = .file ∧ (kernel.fs.icache 1).size = 71681 ∧
      kernel.call (0, .write 0 (fun _ ↦ 0) 1) = none ∧ ¬ kernel.fs.InRange) ∧
    ∃ kernel, run Kernel.call rootKernel [openNew, (0, .lseek 0 1)] = some kernel ∧
      (kernel.fs.icache 1).type = .file ∧ (kernel.fs.icache 1).size = 1 ∧
      (writei 1 (fun _ ↦ 0) 1 (-1) kernel.fs).map Prod.fst = some (-1) := by
  have hlong : ((run Kernel.call rootKernel [openNew, (0, .lseek 0 71681)]).map fun kernel ↦
      decide ((kernel.fs.icache 1).type = .file ∧ (kernel.fs.icache 1).size = 71681 ∧
        (kernel.call (0, .write 0 (fun _ ↦ 0) 1)).isNone = true)) = some true := by
    decide +kernel
  have hshort : ((run Kernel.call rootKernel [openNew, (0, .lseek 0 1)]).map fun kernel ↦
      decide ((kernel.fs.icache 1).type = .file ∧ (kernel.fs.icache 1).size = 1 ∧
        (writei 1 (fun _ ↦ 0) 1 (-1) kernel.fs).map Prod.fst = some (-1))) = some true := by
    decide +kernel
  obtain ⟨long, hrun, hvalues⟩ := Option.map_eq_some_iff.mp hlong
  obtain ⟨htype, hsize, hnone⟩ := of_decide_eq_true hvalues
  obtain ⟨short, hrun', hvalues'⟩ := Option.map_eq_some_iff.mp hshort
  refine ⟨⟨long, rootKernel_bounded, hrun, htype, hsize, Option.isNone_iff_eq_none.mp hnone, ?_⟩,
    short, hrun', of_decide_eq_true hvalues'⟩
  intro hrange
  have hle := hrange.sizes 1 (by simp [htype])
  rw [hsize] at hle
  exact absurd hle (by decide)

end OS537.XV6
