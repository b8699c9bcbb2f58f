import OS537.XV6.InStep

/-!
# Reading and writing inodes in step

`readi` calls `bmap` and never `iupdate`, and `writei` calls `iupdate` only if the file grows. So a
read keeps an inode in step if it touches no hole, and a write does if it touches no hole or makes
the file longer.
-/

namespace OS537.XV6

open Bytes Code

variable {fs fs' : FS} {slot : Slot} {refs : Slot → ℤ} {held : Set Slot}

/-- The inode has every block of the `n` bytes from `off` on. -/
def Dinode.Spans (node : Dinode) (off n : ℕ) : Prop :=
  ∀ i, off ≤ i → i < off + n → node.Pinned (BitVec.ofNat 32 i / 512)

/-- `readi` touches no hole. -/
def Dinode.ReadsThrough (node : Dinode) (off n : Word) : Prop :=
  node.refuses off n = false → node.Spans off.toNat (node.readLength off n).toNat

/-- `writei` touches no hole, or makes the file longer. -/
def Dinode.WritesThrough (node : Dinode) (off n : Word) : Prop :=
  node.refuses off n = false → node.size < off + node.writeLength off n ∨
    node.Spans off.toNat (node.writeLength off n).toNat

/-! ## Rounds -/

theorem mem_rounds {fuel tot off n : ℕ} {round : Round} (h : round ∈ rounds fuel tot off n) :
    off ≤ round.off ∧ round.off < off + (n - tot) := by
  induction fuel generalizing tot off with
  | zero => cases h
  | succ fuel ih =>
    rw [rounds] at h
    split at h
    · next hlt =>
      rcases List.mem_cons.mp h with rfl | hrest
      · exact ⟨le_rfl, by dsimp only; omega⟩
      · have hbounds := ih hrest
        omega
    · cases h

/-- The blocks of all rounds are there. -/
theorem Dinode.Spans.of_mem_rounds {node : Dinode} {fuel off n : ℕ} {round : Round}
    (h : node.Spans off n) (hmem : round ∈ rounds fuel 0 off n) :
    node.Pinned (BitVec.ofNat 32 round.off / 512) := by
  obtain ⟨hlow, hhigh⟩ := mem_rounds hmem
  exact h round.off hlow (by omega)

/-! ## Reading -/

theorem readRounds_pinned {list : List Round} {data : List Byte}
    (hpinned : ∀ round ∈ list, (fs.icache slot).Pinned (BitVec.ofNat 32 round.off / 512))
    (hrun : readRounds slot list fs = some (data, fs')) : fs.SameInodes fs' := by
  induction list generalizing fs data with
  | nil =>
    cases hrun
    exact FS.SameInodes.refl _
  | cons round rest ih =>
    obtain ⟨addr, mapped, hmap, hrun⟩ := bind_eq_some hrun
    obtain ⟨bytes, read, hread, hrun⟩ := bind_eq_some hrun
    obtain ⟨more, last, hrest, hlast⟩ := bind_eq_some hrun
    cases hread
    cases hlast
    have hsame := mapSlot_pinned (hpinned round List.mem_cons_self) hmap
    refine hsame.trans (ih (fun other hother ↦ ?_) hrest)
    rw [hsame.icache]
    exact hpinned other (List.mem_cons_of_mem _ hother)

theorem readi_through {off n : Word} {result : Word × List Byte}
    (hthrough : (fs.icache slot).ReadsThrough off n)
    (hrun : readi slot off n fs = some (result, fs')) : fs.SameInodes fs' := by
  unfold readi at hrun
  dsimp only at hrun
  split at hrun
  · cases hrun
    exact FS.SameInodes.refl fs
  · next hrefuses =>
    obtain ⟨⟨data, last⟩, hrounds, hlast⟩ := Option.map_eq_some_iff.mp hrun
    cases hlast
    have hspans := hthrough (Bool.eq_false_iff.mpr hrefuses)
    exact readRounds_pinned (fun _ hmem ↦ hspans.of_mem_rounds hmem) hrounds

/-! ## Writing -/

/-- What the rounds of a write may change: blocks, the bitmap, and the addresses of the inode. -/
structure FS.Stored (slot : Slot) (fs fs' : FS) : Prop where
  dinode : fs'.disk.dinode = fs.disk.dinode
  icache : ∃ addrs, fs'.icache =
    Function.update fs.icache slot { fs.icache slot with addrs := addrs }

theorem FS.Stored.refl (slot : Slot) (fs : FS) : fs.Stored slot fs :=
  ⟨rfl, _, (Function.update_eq_self slot fs.icache).symm⟩

theorem FS.Stored.trans {fs'' : FS} (h : fs.Stored slot fs') (h' : fs'.Stored slot fs'') :
    fs.Stored slot fs'' := by
  obtain ⟨addrs, hfirst⟩ := h.icache
  obtain ⟨addrs', hsecond⟩ := h'.icache
  refine ⟨h'.dinode.trans h.dinode, addrs', ?_⟩
  rw [hsecond, hfirst, Function.update_idem, Function.update_self]

theorem mapSlot_stored {off addr : Word} (hrun : mapSlot slot off fs = some (addr, fs')) :
    fs.Stored slot fs' := by
  obtain ⟨ip, disk, hbmap, rfl⟩ := mapSlot_cases hrun
  obtain ⟨hip, new, hextends⟩ := bmap_extends hbmap
  exact ⟨hextends.takes.dinode, ip.addrs, congrArg (Function.update fs.icache slot) hip⟩

theorem storeRound_stored {off : Word} {m : ℕ} {src : Store}
    (hrun : storeRound slot off m src fs = some ((), fs')) : fs.Stored slot fs' := by
  obtain ⟨addr, mapped, hmap, hwrite⟩ := bind_eq_some hrun
  cases hwrite
  have hstored := mapSlot_stored hmap
  exact ⟨hstored.dinode, hstored.icache⟩

theorem writeRounds_stored {src : Store} {list : List Round}
    (hrun : writeRounds slot src list fs = some ((), fs')) : fs.Stored slot fs' := by
  induction list generalizing fs with
  | nil =>
    cases hrun
    exact FS.Stored.refl slot _
  | cons round rest ih =>
    obtain ⟨⟨⟩, middle, hround, hrest⟩ := bind_eq_some hrun
    exact (storeRound_stored hround).trans (ih hrest)

theorem storeRound_pinned {off : Word} {m : ℕ} {src : Store}
    (hpinned : (fs.icache slot).Pinned (off / 512))
    (hrun : storeRound slot off m src fs = some ((), fs')) : fs.SameInodes fs' := by
  obtain ⟨addr, mapped, hmap, hwrite⟩ := bind_eq_some hrun
  cases hwrite
  have hsame := mapSlot_pinned hpinned hmap
  exact ⟨hsame.icache, hsame.dinode⟩

theorem writeRounds_pinned {src : Store} {list : List Round}
    (hpinned : ∀ round ∈ list, (fs.icache slot).Pinned (BitVec.ofNat 32 round.off / 512))
    (hrun : writeRounds slot src list fs = some ((), fs')) : fs.SameInodes fs' := by
  induction list generalizing fs with
  | nil =>
    cases hrun
    exact FS.SameInodes.refl _
  | cons round rest ih =>
    obtain ⟨⟨⟩, middle, hround, hrest⟩ := bind_eq_some hrun
    have hsame := storeRound_pinned (hpinned round List.mem_cons_self) hround
    refine hsame.trans (ih (fun other hother ↦ ?_) hrest)
    rw [hsame.icache]
    exact hpinned other (List.mem_cons_of_mem _ hother)

/-- The inode with new addresses and a new size goes to the disk. -/
theorem FS.Held.resize (h : fs.Held refs held) (hmem : slot ∈ held) {stored : FS} {size : Word}
    (hstored : fs.Stored slot stored) (hrun : resize slot size stored = some ((), fs')) :
    fs'.Held refs held := by
  obtain ⟨disk, icache⟩ := stored
  obtain ⟨hdinode, addrs, rfl⟩ := hstored
  let ip : Inode := { fs.icache slot with addrs := addrs, size := size }
  have hfs' : FS.set { fs with disk := iupdate disk ip } slot ip = fs' := by
    unfold XV6.resize iupdateSlot FS.set at hrun
    simp only [Function.update_self, Function.update_idem] at hrun
    cases hrun
    rfl
  have hlocked := h.locked slot hmem
  have hdisk : (iupdate disk ip).dinode =
      Function.update fs.disk.dinode (fs.icache slot).inum ip.toDinode := by
    rw [← hdinode]
    rfl
  rw [← hfs']
  exact h.set_same (h.inStep.write hlocked.1 hdisk rfl rfl) rfl fun _ ↦ hlocked

/-- Where the rounds of a write leave the inode alone, `iupdate` may follow or not. -/
theorem FS.Held.growSize (h : fs.Held refs held) (hmem : slot ∈ held) {n off : Word}
    (hrun : growSize slot n off fs = some ((), fs')) : fs'.Held refs held := by
  unfold XV6.growSize at hrun
  split at hrun
  · exact h.resize hmem (FS.Stored.refl slot fs) hrun
  · cases hrun
    exact h

theorem FS.Held.writei (h : fs.Held refs held) (hmem : slot ∈ held) {src : Store} {off n r : Word}
    (hthrough : (fs.icache slot).WritesThrough off n)
    (hrun : writei slot src off n fs = some (r, fs')) : fs'.Held refs held := by
  unfold XV6.writei at hrun
  dsimp only at hrun
  split at hrun
  · cases hrun
    exact h
  · next hrefuses =>
    obtain ⟨⟨⟩, stored, hrounds, hrun⟩ := bind_eq_some hrun
    obtain ⟨⟨⟩, grown, hgrow, hlast⟩ := bind_eq_some hrun
    cases hlast
    rcases hthrough (Bool.eq_false_iff.mpr hrefuses) with hlonger | hspans
    · have hstored := writeRounds_stored hrounds
      have hgrows : 0 < (fs.icache slot).writeLength off n ∧
          (stored.icache slot).size < off + (fs.icache slot).writeLength off n := by
        obtain ⟨addrs, hicache⟩ := hstored.icache
        rw [hicache, Function.update_self]
        refine ⟨?_, hlonger⟩
        by_contra hpos
        have hzero : (fs.icache slot).writeLength off n = 0 := by bv_omega
        rw [hzero, add_zero] at hlonger
        apply hrefuses
        simp [Dinode.refuses, hlonger]
      unfold XV6.growSize at hgrow
      rw [if_pos hgrows] at hgrow
      exact h.resize hmem hstored hgrow
    · have hsame := writeRounds_pinned (fun _ hround ↦ hspans.of_mem_rounds hround) hrounds
      exact (h.congr hsame).growSize hmem hgrow

end OS537.XV6
