import OS537.XV6.Through

/-!
# Path names and directories in step

The functions on directories, and the system calls that open, link and unlink files. They search
directories with `bmap`, which leaves a directory without holes alone, and what they change of an
inode goes to the disk. A call writes to a directory once at most, and after that it does not search
one any more.
-/

namespace OS537.XV6

open Bytes Code

variable {fs fs' : FS} {slot dp ip : Slot} {refs : Slot → ℤ} {held : Set Slot} {name : Name}

/-- The reference that comes with an inode that was found. -/
def gained : Option Slot → Slot → ℤ
  | none => 0
  | some slot => Pi.single slot 1

/-! ## Directories without holes -/

/-- Every read of an inode without holes touches none. -/
theorem Dinode.Whole.readsThrough {node : Dinode} (h : node.Whole) (off n : Word) :
    node.ReadsThrough off n := by
  intro hrefuses i _ hi
  apply h i
  have hlow : ¬ node.size < off := fun hlt ↦ by simp [Dinode.refuses, hlt] at hrefuses
  have hover : ¬ off + n < off := fun hlt ↦ by simp [Dinode.refuses, hlt] at hrefuses
  unfold Dinode.readLength at hi
  split at hi
  · bv_omega
  · bv_omega

/-- So does every write that is not cut short. -/
theorem Dinode.Whole.writesThrough {node : Dinode} (h : node.Whole) {off n : Word}
    (hlength : node.writeLength off n = n) : node.WritesThrough off n := by
  intro hrefuses
  have hover : ¬ off + n < off := fun hlt ↦ by simp [Dinode.refuses, hlt] at hrefuses
  rw [hlength]
  by_cases hlonger : node.size < off + n
  · exact Or.inl hlonger
  · refine Or.inr fun i _ hi ↦ h i ?_
    bv_omega

/-- A new reference leaves the contents of a locked inode alone. -/
theorem iget_type {inum : Word} (hlocked : fs.Locked dp) (hrun : iget inum fs = some (slot, fs')) :
    (fs'.icache dp).type = (fs.icache dp).type := by
  obtain ⟨-, -, rfl⟩ | ⟨-, hzero, rfl⟩ := iget_cases hrun
  · by_cases heq : dp = slot
    · rw [heq, FS.set_icache_self]
    · rw [FS.set_icache_of_ne _ _ heq]
  · have hne : dp ≠ slot := by
      rintro rfl
      exact absurd hlocked.1.1 (by omega)
    rw [FS.set_icache_of_ne _ _ hne]

theorem ilock_type (hne : dp ≠ slot) (hrun : ilock slot fs = some ((), fs')) :
    (fs'.icache dp).type = (fs.icache dp).type := by
  obtain ⟨-, -, ⟨-, rfl⟩ | ⟨-, -, rfl⟩⟩ := ilock_cases hrun
  · rw [FS.set_icache_of_ne _ _ hne]
  · rw [FS.set_icache_of_ne _ _ hne]

section Directory

variable (h : fs.Steady refs held) (hmem : dp ∈ held) (htype : (fs.icache dp).type = .dir)

include h hmem htype

theorem FS.Steady.readi {off n : Word} {result : Word × List Byte}
    (hrun : readi dp off n fs = some (result, fs')) : fs.SameInodes fs' :=
  readi_through ((h.whole_of_held hmem htype).readsThrough off n) hrun

theorem FS.Steady.emptyDirent {entries off found : ℕ}
    (hrun : emptyDirent dp entries off fs = some (found, fs')) : fs.SameInodes fs' := by
  induction entries generalizing fs off with
  | zero =>
    cases hrun
    exact FS.SameInodes.refl _
  | succ entries ih =>
    obtain ⟨⟨r, data⟩, read, hread, hrun⟩ := bind_eq_some hrun
    have hsame := h.readi hmem htype hread
    dsimp only at hrun
    split at hrun
    · cases hrun
    · split at hrun
      · cases hrun
        exact hsame
      · exact hsame.trans (ih (h.congr hsame) (by rwa [hsame.icache]) hrun)

theorem FS.Steady.isdiremptyLoop {entries off : ℕ} {empty : Bool}
    (hrun : isdiremptyLoop dp entries off fs = some (empty, fs')) : fs.SameInodes fs' := by
  induction entries generalizing fs off with
  | zero =>
    cases hrun
    exact FS.SameInodes.refl _
  | succ entries ih =>
    obtain ⟨⟨r, data⟩, read, hread, hrun⟩ := bind_eq_some hrun
    have hsame := h.readi hmem htype hread
    dsimp only at hrun
    split at hrun
    · cases hrun
    · split at hrun
      · cases hrun
        exact hsame
      · exact hsame.trans (ih (h.congr hsame) (by rwa [hsame.icache]) hrun)

/-- A search leaves the inodes as they are, or ends with one more reference. -/
theorem FS.Steady.dirScan {blocks : List ℕ} {found : Option (Slot × Word)}
    (hblocks : ∀ b ∈ blocks, 512 * b < (fs.icache dp).size.toNat)
    (hrun : dirScan dp name blocks fs = some (found, fs')) :
    (found = none → fs.SameInodes fs') ∧ (fs'.icache dp).type = .dir ∧
      fs'.Steady (refs + gained (found.map Prod.fst)) held := by
  induction blocks generalizing fs with
  | nil =>
    cases hrun
    exact ⟨fun _ ↦ FS.SameInodes.refl _, htype, (add_zero refs).symm ▸ h⟩
  | cons b rest ih =>
    obtain ⟨addr, mapped, hmap, hrun⟩ := bind_eq_some hrun
    have hpinned := h.whole_of_held hmem htype (512 * b) (hblocks b List.mem_cons_self)
    have hsame := mapSlot_pinned hpinned hmap
    have hmapped := h.congr hsame
    have htype' : (mapped.icache dp).type = .dir := by rwa [hsame.icache]
    rw [bind_run get_run] at hrun
    cases hfind : findEntry (mapped.disk.block addr) name with
    | some i =>
      rw [hfind] at hrun
      obtain ⟨ip, got, hget, hlast⟩ := bind_eq_some hrun
      cases hlast
      refine ⟨fun hnone ↦ absurd hnone (Option.some_ne_none _), ?_, hmapped.iget hget⟩
      rw [iget_type (hmapped.locked dp hmem) hget, htype']
    | none =>
      rw [hfind] at hrun
      have hrest := ih hmapped htype' (fun b' hb' ↦ by
        rw [hsame.icache]
        exact hblocks b' (List.mem_cons_of_mem _ hb')) hrun
      exact ⟨fun hnone ↦ hsame.trans (hrest.1 hnone), hrest.2⟩

end Directory

/-- What is searched is a directory. -/
theorem dirlookup_type {found : Option (Slot × Word)}
    (hrun : dirlookup dp name fs = some (found, fs')) : (fs.icache dp).type = .dir := by
  unfold dirlookup at hrun
  split at hrun
  · cases hrun
  · next htype => exact not_not.mp htype

theorem FS.Steady.dirlookup (h : fs.Steady refs held) (hmem : dp ∈ held)
    {found : Option (Slot × Word)} (hrun : dirlookup dp name fs = some (found, fs')) :
    (found = none → fs.SameInodes fs') ∧ (fs'.icache dp).type = .dir ∧
      fs'.Steady (refs + gained (found.map Prod.fst)) held := by
  have htype := dirlookup_type hrun
  unfold XV6.dirlookup at hrun
  rw [if_neg (not_not.mpr htype)] at hrun
  refine h.dirScan hmem htype (fun b hb ↦ ?_) hrun
  have hlt := List.mem_range.mp hb
  omega

/-! ## Entries -/

/-- An entry is written as a whole, or the write is a panic. -/
theorem FS.Steady.writeDirent (h : fs.Steady refs held) (hmem : dp ∈ held)
    (htype : (fs.icache dp).type = .dir) {inum off : Word}
    (hrun : writeDirent dp inum name off fs = some ((), fs')) : fs'.Held refs held := by
  obtain ⟨r, written, hwrite, hrun⟩ := bind_eq_some hrun
  split at hrun
  · cases hrun
  · next hwhole =>
    cases hrun
    have hlength : (fs.icache dp).refuses off 16 = false →
        (fs.icache dp).writeLength off 16 = 16 := by
      intro hrefuses
      unfold writei at hwrite
      dsimp only at hwrite
      rw [if_neg (by rw [hrefuses]; exact Bool.false_ne_true)] at hwrite
      obtain ⟨⟨⟩, stored, -, hgrow⟩ := bind_eq_some hwrite
      obtain ⟨⟨⟩, grown, -, hlast⟩ := bind_eq_some hgrow
      cases hlast
      exact not_not.mp hwhole
    refine h.toHeld.writei hmem (fun hrefuses ↦ ?_) hwrite
    exact (h.whole_of_held hmem htype).writesThrough (hlength hrefuses) hrefuses

theorem FS.Steady.dirlink (h : fs.Steady refs held) (hmem : dp ∈ held) {inum r : Word}
    (hrun : dirlink dp name inum fs = some (r, fs')) : fs'.Held refs held := by
  obtain ⟨found, looked, hlook, hrun⟩ := bind_eq_some hrun
  have htype := dirlookup_type hlook
  obtain ⟨hsame, -, hlooked⟩ := h.dirlookup hmem hlook
  cases found with
  | some pair =>
    obtain ⟨ip, off⟩ := pair
    obtain ⟨⟨⟩, put, hput, hlast⟩ := bind_eq_some hrun
    cases hlast
    have hspare : ip ∈ held → 1 < (refs + gained (some ip)) ip := by
      intro hip
      have hpos := h.ref_pos hip
      rw [Pi.add_apply, gained, Pi.single_eq_same]
      omega
    have hheld := hlooked.toHeld.iput hspare hput
    rwa [Option.map_some, gained, add_sub_cancel_right] at hheld
  | none =>
    have hsame := hsame rfl
    have htype' : (looked.icache dp).type = .dir := by rwa [hsame.icache]
    have hlooked := h.congr hsame
    dsimp only at hrun
    unfold appendDirent at hrun
    rw [bind_run get_run] at hrun
    obtain ⟨off, searched, hempty, hrun⟩ := bind_eq_some hrun
    obtain ⟨⟨⟩, written, hwrite, hlast⟩ := bind_eq_some hrun
    cases hlast
    have hsame' := hlooked.emptyDirent hmem htype' hempty
    exact (hlooked.congr hsame').writeDirent hmem (by rwa [hsame'.icache]) hwrite

theorem FS.Steady.mustLink (h : fs.Steady refs held) (hmem : dp ∈ held) {inum : Word}
    (hrun : mustLink dp name inum fs = some ((), fs')) : fs'.Held refs held := by
  obtain ⟨r, linked, hlink, hrun⟩ := bind_eq_some hrun
  split at hrun
  · cases hrun
  · cases hrun
    exact h.dirlink hmem hlink

/-! ## Locks that are taken and given back -/

theorem FS.Steady.drop (h : fs.Steady (refs + Pi.single slot 1) (insert slot held))
    (hnot : slot ∉ held) (hrun : XV6.iunlockput slot fs = some ((), fs')) :
    fs'.Steady refs held := by
  have hsteady := h.iunlockput hrun
  rwa [add_sub_cancel_right, Set.insert_sdiff_self_of_notMem hnot] at hsteady

theorem FS.Held.drop (h : fs.Held (refs + Pi.single slot 1) (insert slot held))
    (hnot : slot ∉ held) (hrun : XV6.iunlockput slot fs = some ((), fs')) : fs'.Held refs held := by
  have hheld := h.iunlockput hrun
  rwa [add_sub_cancel_right, Set.insert_sdiff_self_of_notMem hnot] at hheld

theorem FS.Held.release (h : fs.Held (refs + Pi.single slot 1) ∅)
    (hrun : XV6.iput slot fs = some ((), fs')) : fs'.Held refs ∅ := by
  have hheld := h.iput (fun hmem ↦ absurd hmem (Set.notMem_empty slot)) hrun
  rwa [add_sub_cancel_right] at hheld

theorem FS.Steady.release (h : fs.Steady (refs + Pi.single slot 1) ∅)
    (hrun : XV6.iput slot fs = some ((), fs')) : fs'.Steady refs ∅ := by
  have hsteady := h.iput (fun hmem ↦ absurd hmem (Set.notMem_empty slot)) hrun
  rwa [add_sub_cancel_right] at hsteady

/-! ## Paths -/

theorem FS.Steady.namexLoop {parent : Bool} {names : List Name}
    (h : fs.Steady (refs + Pi.single ip 1) ∅) {found : Option (Slot × Name)}
    (hrun : namexLoop parent names ip fs = some (found, fs')) :
    fs'.Steady (refs + gained (found.map Prod.fst)) ∅ := by
  induction names generalizing fs ip with
  | nil =>
    unfold XV6.namexLoop at hrun
    split at hrun
    · obtain ⟨⟨⟩, put, hput, hlast⟩ := bind_eq_some hrun
      cases hlast
      exact (add_zero refs).symm ▸ h.release hput
    · cases hrun
      exact h
  | cons name rest ih =>
    unfold XV6.namexLoop at hrun
    obtain ⟨⟨⟩, locked, hlock, hrun⟩ := bind_eq_some hrun
    rw [bind_run get_run] at hrun
    obtain ⟨hnot, hlocked⟩ := h.ilock hlock
    split at hrun
    · obtain ⟨⟨⟩, put, hput, hlast⟩ := bind_eq_some hrun
      cases hlast
      exact (add_zero refs).symm ▸ hlocked.drop hnot hput
    · split at hrun
      · obtain ⟨⟨⟩, unlocked, hunlock, hlast⟩ := bind_eq_some hrun
        cases hlast
        have hunlocked := hlocked.iunlock hunlock
        rwa [Set.insert_sdiff_self_of_notMem hnot] at hunlocked
      · obtain ⟨next, looked, hlook, hrun⟩ := bind_eq_some hrun
        obtain ⟨-, -, hlooked⟩ := hlocked.dirlookup (Set.mem_insert ip ∅) hlook
        cases next with
        | none =>
          obtain ⟨⟨⟩, put, hput, hlast⟩ := bind_eq_some hrun
          cases hlast
          rw [Option.map_none, gained, add_zero] at hlooked
          exact (add_zero refs).symm ▸ hlooked.drop hnot hput
        | some pair =>
          obtain ⟨⟨⟩, put, hput, hrest⟩ := bind_eq_some hrun
          rw [Option.map_some, gained, add_right_comm] at hlooked
          exact ih (hlooked.drop hnot hput) hrest

variable {cwd : Slot} {path : Name}

theorem FS.Steady.namex (h : fs.Steady refs ∅) (hcwd : 0 < refs cwd) {parent : Bool}
    {found : Option (Slot × Name)} (hrun : namex cwd path parent fs = some (found, fs')) :
    fs'.Steady (refs + gained (found.map Prod.fst)) ∅ := by
  unfold XV6.namex at hrun
  split at hrun
  · obtain ⟨ip, start, hstart, hloop⟩ := bind_eq_some hrun
    exact (h.iget hstart).namexLoop hloop
  · obtain ⟨ip, start, hstart, hloop⟩ := bind_eq_some hrun
    exact (h.idup hcwd hstart).namexLoop hloop

theorem FS.Steady.namei (h : fs.Steady refs ∅) (hcwd : 0 < refs cwd) {found : Option Slot}
    (hrun : namei cwd path fs = some (found, fs')) : fs'.Steady (refs + gained found) ∅ := by
  obtain ⟨pair, walked, hwalk, hlast⟩ := bind_eq_some hrun
  cases hlast
  exact h.namex hcwd hwalk

/-! ## Creating, linking and unlinking -/

/-- The lock that comes with an inode that was opened. -/
def opened : Option Slot → Set Slot
  | none => ∅
  | some slot => {slot}

theorem FS.Steady.addLinks (h : fs.Steady refs held) (hmem : slot ∈ held) {links : BitVec 16}
    (hrun : addLinks slot links fs = some ((), fs')) : fs'.Steady refs held := by
  refine h.write hmem ?_ ?_ ?_ hrun
  all_goals rfl

theorem FS.Held.addLinks (h : fs.Held refs held) (hmem : slot ∈ held) {links : BitVec 16}
    (hrun : addLinks slot links fs = some ((), fs')) : fs'.Held refs held := by
  refine h.write hmem ?_ hrun
  rfl

theorem FS.Steady.startInode (h : fs.Steady refs held) (hmem : slot ∈ held)
    {major minor : BitVec 16} (hrun : startInode slot major minor fs = some ((), fs')) :
    fs'.Steady refs held := by
  refine h.write hmem ?_ ?_ ?_ hrun
  all_goals rfl

theorem FS.Steady.createNew (h : fs.Steady (refs + Pi.single dp 1) {dp}) {type : FileType}
    (htype : type ≠ .dir) {major minor : BitVec 16}
    (hrun : createNew dp name type major minor fs = some (ip, fs')) :
    fs'.Held (refs + Pi.single ip 1) {ip} := by
  obtain ⟨new, allocated, halloc, hrun⟩ := bind_eq_some hrun
  obtain ⟨⟨⟩, locked, hlock, hrun⟩ := bind_eq_some hrun
  obtain ⟨⟨⟩, started, hstart, hrun⟩ := bind_eq_some hrun
  rw [if_neg htype] at hrun
  obtain ⟨inum, numbered, hinum, hrun⟩ := bind_eq_some hrun
  cases hinum
  obtain ⟨⟨⟩, linked, hlink, hrun⟩ := bind_eq_some hrun
  obtain ⟨⟨⟩, put, hput, hlast⟩ := bind_eq_some hrun
  cases hlast
  obtain ⟨hnot, hlocked⟩ := (h.ialloc halloc).ilock hlock
  have hstarted := hlocked.startInode (Set.mem_insert ip {dp}) hstart
  have hmem : dp ∈ insert ip ({dp} : Set Slot) := Set.mem_insert_of_mem ip rfl
  have hlinked := hstarted.mustLink hmem hlink
  rw [add_right_comm, Set.pair_comm] at hlinked
  exact hlinked.drop (fun heq ↦ hnot (Set.mem_singleton_iff.mp heq).symm) hput

theorem FS.Steady.create (h : fs.Steady refs ∅) (hcwd : 0 < refs cwd) {type : FileType}
    (htype : type ≠ .dir) {major minor : BitVec 16} {result : Option Slot}
    (hrun : create cwd path type major minor fs = some (result, fs')) :
    fs'.Held (refs + gained result) (opened result) := by
  obtain ⟨parent, walked, hwalk, hrun⟩ := bind_eq_some hrun
  have hwalked := h.namex hcwd hwalk
  cases parent with
  | none =>
    cases hrun
    exact hwalked.toHeld
  | some pair =>
    obtain ⟨dp, name⟩ := pair
    obtain ⟨⟨⟩, locked, hlock, hrun⟩ := bind_eq_some hrun
    obtain ⟨found, looked, hlook, hrun⟩ := bind_eq_some hrun
    obtain ⟨hnot, hlocked⟩ := hwalked.ilock hlock
    obtain ⟨-, -, hlooked⟩ := hlocked.dirlookup (Set.mem_insert dp ∅) hlook
    cases found with
    | none =>
      obtain ⟨ip, created, hcreate, hlast⟩ := bind_eq_some hrun
      cases hlast
      rw [Option.map_none, gained, add_zero, insert_empty_eq] at hlooked
      exact hlooked.createNew htype hcreate
    | some pair =>
      obtain ⟨ip, off⟩ := pair
      obtain ⟨⟨⟩, put, hput, hrun⟩ := bind_eq_some hrun
      obtain ⟨⟨⟩, locked', hlock', hrun⟩ := bind_eq_some hrun
      rw [Option.map_some, gained, Option.map_some, gained, add_right_comm] at hlooked
      obtain ⟨hnot', hlocked'⟩ := (hlooked.drop hnot hput).ilock hlock'
      obtain ⟨kind, typed, htyped, hrun⟩ := bind_eq_some hrun
      cases htyped
      split at hrun
      · cases hrun
        rw [insert_empty_eq] at hlocked'
        exact hlocked'.toHeld
      · obtain ⟨⟨⟩, put', hput', hlast⟩ := bind_eq_some hrun
        cases hlast
        exact (add_zero refs).symm ▸ (hlocked'.drop hnot' hput').toHeld

/-- Whether the new name was entered or not, `sys_link` gives back the reference to the inode. -/
theorem FS.Held.linkEnd (h : fs.Held (refs + Pi.single ip 1) ∅) {linked : Bool} {r : Word}
    (hrun : (if linked then do
        XV6.iput ip
        return 0
      else do
        XV6.ilock ip
        XV6.addLinks ip (-1)
        XV6.iunlockput ip
        return -1 : FSM Word) fs = some (r, fs')) : fs'.Held refs ∅ := by
  split at hrun
  · obtain ⟨⟨⟩, put, hput, hlast⟩ := bind_eq_some hrun
    cases hlast
    exact h.release hput
  · obtain ⟨⟨⟩, locked, hlock, hrun⟩ := bind_eq_some hrun
    obtain ⟨⟨⟩, counted, hcount, hrun⟩ := bind_eq_some hrun
    obtain ⟨⟨⟩, put, hput, hlast⟩ := bind_eq_some hrun
    cases hlast
    obtain ⟨hnot, hlocked⟩ := h.ilock hlock
    exact (hlocked.addLinks (Set.mem_insert ip ∅) hcount).drop hnot hput

theorem FS.Steady.linkName (h : fs.Steady (refs + Pi.single ip 1) ∅) (hcwd : 0 < refs cwd)
    {new : Name} {r : Word} (hrun : linkName cwd ip new fs = some (r, fs')) :
    fs'.Held refs ∅ := by
  have hcwd' : 0 < (refs + Pi.single ip 1 : Slot → ℤ) cwd := by
    rw [Pi.add_apply, Pi.single_apply]
    split <;> omega
  obtain ⟨parent, walked, hwalk, hrun⟩ := bind_eq_some hrun
  have hwalked := h.namex hcwd' hwalk
  cases parent with
  | none =>
    obtain ⟨linked, same, hsame, hrun⟩ := bind_eq_some hrun
    cases hsame
    rw [Option.map_none, gained, add_zero] at hwalked
    exact hwalked.toHeld.linkEnd hrun
  | some pair =>
    obtain ⟨dp, name⟩ := pair
    obtain ⟨⟨⟩, locked, hlock, hrun⟩ := bind_eq_some hrun
    obtain ⟨inum, numbered, hinum, hrun⟩ := bind_eq_some hrun
    cases hinum
    obtain ⟨r', entered, hlink, hrun⟩ := bind_eq_some hrun
    obtain ⟨⟨⟩, put, hput, hrun⟩ := bind_eq_some hrun
    obtain ⟨linked, same, hsame, hrun⟩ := bind_eq_some hrun
    cases hsame
    obtain ⟨hnot, hlocked⟩ := hwalked.ilock hlock
    exact ((hlocked.dirlink (Set.mem_insert dp ∅) hlink).drop hnot hput).linkEnd hrun

theorem FS.Steady.sysLink (h : fs.Steady refs ∅) (hcwd : 0 < refs cwd) {old new : Name} {r : Word}
    (hrun : sysLink cwd old new fs = some (r, fs')) : fs'.Held refs ∅ := by
  obtain ⟨found, walked, hwalk, hrun⟩ := bind_eq_some hrun
  have hwalked := h.namei hcwd hwalk
  cases found with
  | none =>
    cases hrun
    rw [gained, add_zero] at hwalked
    exact hwalked.toHeld
  | some ip =>
    obtain ⟨⟨⟩, locked, hlock, hrun⟩ := bind_eq_some hrun
    obtain ⟨kind, typed, htyped, hrun⟩ := bind_eq_some hrun
    cases htyped
    obtain ⟨hnot, hlocked⟩ := hwalked.ilock hlock
    split at hrun
    · obtain ⟨⟨⟩, put, hput, hlast⟩ := bind_eq_some hrun
      cases hlast
      exact (hlocked.drop hnot hput).toHeld
    · obtain ⟨⟨⟩, counted, hcount, hrun⟩ := bind_eq_some hrun
      obtain ⟨⟨⟩, unlocked, hunlock, hrun⟩ := bind_eq_some hrun
      have hunlocked := (hlocked.addLinks (Set.mem_insert ip ∅) hcount).iunlock hunlock
      rw [Set.insert_sdiff_self_of_notMem hnot] at hunlocked
      exact hunlocked.linkName hcwd hrun

/-- The end of `sys_unlink`, after the entry and the links of the directory. -/
theorem FS.Held.unlinkEnd (h : fs.Held (refs + Pi.single dp 1 + Pi.single ip 1) {ip, dp})
    (hne : ip ≠ dp) {r : Word}
    (hrun : (do
        XV6.iunlockput dp
        XV6.addLinks ip (-1)
        XV6.iunlockput ip
        return 0 : FSM Word) fs = some (r, fs')) : fs'.Held refs ∅ := by
  obtain ⟨⟨⟩, put, hput, hrun⟩ := bind_eq_some hrun
  obtain ⟨⟨⟩, counted, hcount, hrun⟩ := bind_eq_some hrun
  obtain ⟨⟨⟩, put', hput', hlast⟩ := bind_eq_some hrun
  cases hlast
  rw [add_right_comm, Set.pair_comm] at h
  have hdropped := h.drop (fun heq ↦ hne (Set.mem_singleton_iff.mp heq).symm) hput
  have hcounted := hdropped.addLinks (Set.mem_singleton ip) hcount
  rw [← insert_empty_eq] at hcounted
  exact hcounted.drop (Set.notMem_empty ip) hput'

section Unlink

variable (h : fs.Steady (refs + Pi.single dp 1 + Pi.single ip 1) {ip, dp}) (hne : ip ≠ dp)
  (htype : (fs.icache dp).type = .dir) {off r : Word}

include h hne htype

theorem FS.Steady.unlinkEntry (hrun : unlinkEntry dp ip off fs = some (r, fs')) :
    fs'.Held refs ∅ := by
  have hmem : dp ∈ ({ip, dp} : Set Slot) := Set.mem_insert_of_mem ip rfl
  obtain ⟨⟨⟩, written, hwrite, hrun⟩ := bind_eq_some hrun
  obtain ⟨kind, typed, htyped, hrun⟩ := bind_eq_some hrun
  cases htyped
  have hwritten := h.writeDirent hmem htype hwrite
  dsimp only at hrun
  split at hrun
  · obtain ⟨⟨⟩, counted, hcount, hrun⟩ := bind_eq_some hrun
    exact (hwritten.addLinks hmem hcount).unlinkEnd hne hrun
  · exact hwritten.unlinkEnd hne hrun

/-- A directory that is not empty stays. -/
theorem FS.Steady.unlinkUnlessBusy {busy : Bool}
    (hrun : (if busy then do
        XV6.iunlockput ip
        XV6.iunlockput dp
        return -1
      else XV6.unlinkEntry dp ip off : FSM Word) fs = some (r, fs')) : fs'.Held refs ∅ := by
  split at hrun
  · obtain ⟨⟨⟩, put, hput, hrun⟩ := bind_eq_some hrun
    obtain ⟨⟨⟩, put', hput', hlast⟩ := bind_eq_some hrun
    cases hlast
    have hdropped := h.drop (fun heq ↦ hne (Set.mem_singleton_iff.mp heq)) hput
    rw [← insert_empty_eq] at hdropped
    exact (hdropped.drop (Set.notMem_empty dp) hput').toHeld
  · exact h.unlinkEntry hne htype hrun

theorem FS.Steady.unlinkLocked (hrun : unlinkLocked dp ip off fs = some (r, fs')) :
    fs'.Held refs ∅ := by
  unfold XV6.unlinkLocked at hrun
  rw [bind_run get_run] at hrun
  split at hrun
  · cases hrun
  · dsimp only at hrun
    split at hrun
    · next hdir =>
      obtain ⟨empty, read, hread, hrun⟩ := bind_eq_some hrun
      obtain ⟨busy, same, hsame, hrun⟩ := bind_eq_some hrun
      cases hsame
      have hread' := h.isdiremptyLoop (Set.mem_insert ip {dp}) hdir hread
      exact (h.congr hread').unlinkUnlessBusy hne (by rwa [hread'.icache]) hrun
    · obtain ⟨busy, same, hsame, hrun⟩ := bind_eq_some hrun
      cases hsame
      exact h.unlinkUnlessBusy hne htype hrun

end Unlink

theorem FS.Steady.sysUnlink (h : fs.Steady refs ∅) (hcwd : 0 < refs cwd) {r : Word}
    (hrun : sysUnlink cwd path fs = some (r, fs')) : fs'.Held refs ∅ := by
  obtain ⟨parent, walked, hwalk, hrun⟩ := bind_eq_some hrun
  have hwalked := h.namex hcwd hwalk
  cases parent with
  | none =>
    cases hrun
    rw [Option.map_none, gained, add_zero] at hwalked
    exact hwalked.toHeld
  | some pair =>
    obtain ⟨dp, name⟩ := pair
    obtain ⟨⟨⟩, locked, hlock, hrun⟩ := bind_eq_some hrun
    obtain ⟨hnot, hlocked⟩ := hwalked.ilock hlock
    split at hrun
    · obtain ⟨⟨⟩, put, hput, hlast⟩ := bind_eq_some hrun
      cases hlast
      exact (hlocked.drop hnot hput).toHeld
    · obtain ⟨found, looked, hlook, hrun⟩ := bind_eq_some hrun
      obtain ⟨-, htype, hlooked⟩ := hlocked.dirlookup (Set.mem_insert dp ∅) hlook
      cases found with
      | none =>
        obtain ⟨⟨⟩, put, hput, hlast⟩ := bind_eq_some hrun
        cases hlast
        rw [Option.map_none, gained, add_zero] at hlooked
        exact (hlooked.drop hnot hput).toHeld
      | some pair =>
        obtain ⟨ip, off⟩ := pair
        obtain ⟨⟨⟩, locked', hlock', hrun⟩ := bind_eq_some hrun
        obtain ⟨hnot', hlocked'⟩ := hlooked.ilock hlock'
        rw [insert_empty_eq] at hnot' hlocked'
        have hne : ip ≠ dp := fun heq ↦ hnot' (Set.mem_singleton_iff.mpr heq)
        exact hlocked'.unlinkLocked hne ((ilock_type hne.symm hlock').trans htype) hrun

/-! ## Opening -/

theorem FS.Steady.openInode (h : fs.Steady refs ∅) (hcwd : 0 < refs cwd) {omode : Word}
    {result : Option Slot} (hrun : openInode cwd path omode fs = some (result, fs')) :
    fs'.Held (refs + gained result) (opened result) := by
  unfold XV6.openInode at hrun
  split at hrun
  · split at hrun
    · exact h.create hcwd (by decide) hrun
    · exact h.create hcwd (by decide) hrun
  · obtain ⟨found, walked, hwalk, hrun⟩ := bind_eq_some hrun
    have hwalked := h.namei hcwd hwalk
    cases found with
    | none =>
      cases hrun
      exact hwalked.toHeld
    | some ip =>
      obtain ⟨⟨⟩, locked, hlock, hrun⟩ := bind_eq_some hrun
      obtain ⟨kind, typed, htyped, hrun⟩ := bind_eq_some hrun
      cases htyped
      obtain ⟨hnot, hlocked⟩ := hwalked.ilock hlock
      split at hrun
      · obtain ⟨⟨⟩, put, hput, hlast⟩ := bind_eq_some hrun
        cases hlast
        exact (add_zero refs).symm ▸ (hlocked.drop hnot hput).toHeld
      · cases hrun
        rw [insert_empty_eq] at hlocked
        exact hlocked.toHeld

end OS537.XV6
