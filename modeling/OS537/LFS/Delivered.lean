import OS537.LFS.Failing

/-!
# Searches for a slot

The blocks that `fsi_creat` and `fsi_unlink` search are those that a reader delivers, also where the
directory has none.
-/

namespace OS537.LFS

open Bytes Code Posix

variable {server next : Server} {node : Inode} {name : CString} {inum : Word}

/-- The first slot of the block that is taken for free. -/
def freeSlot (block : Store) : Option ℕ := Scan.first (fun i ↦ entryInum block i = -1) dirEntries

theorem freeSlot_congr {first second : Store} (h : AgreeOn first second 0 lfsBlockSize) :
    freeSlot first = freeSlot second :=
  first_free_congr h

theorem freeSlot_isSome_iff (block : Store) :
    (freeSlot block).isSome ↔ ∃ slot < dirEntries, entryInum block slot = -1 := by
  constructor
  · intro h
    obtain ⟨slot, hslot⟩ := Option.isSome_iff_exists.mp h
    obtain ⟨hlt, hfree, -⟩ := Scan.first_eq_some_iff.mp hslot
    exact ⟨slot, hlt, of_decide_eq_true hfree⟩
  · rintro ⟨slot, hlt, hfree⟩
    have hfirst : ∃ first, freeSlot block = some first ∧ first ≤ slot :=
      Scan.exists_first_of_hit hlt (decide_eq_true hfree)
    obtain ⟨first, hfirst, -⟩ := hfirst
    exact Option.isSome_iff_exists.mpr ⟨first, hfirst⟩

/-! ## The search for a free slot -/

section Creat

variable (reader : Reader)

/-- One turn of the loop of `fsi_creat`. -/
theorem creatBlocks_succ (server : Server) {fuel block : ℕ} (hblock : block < ndirect) :
    creatBlocks node name inum (fuel + 1) block (reader.before server.image node block).buffer
        (server.at (reader.before server.image node block)) =
      match freeSlot (delivered server.image node reader block) with
      | some slot => some (some (setEntry (delivered server.image node reader block) slot name inum,
          block), server.at (reader.before server.image node (block + 1)))
      | none => creatBlocks node name inum fuel (block + 1)
          (reader.before server.image node (block + 1)).buffer
          (server.at (reader.before server.image node (block + 1))) := by
  obtain ⟨count, hrun⟩ := getBlock_delivers server node (reader.before server.image node block)
    ⟨block, hblock⟩
  have hstep := reader.before_succ server.image node ⟨block, hblock⟩
  rw [← hstep] at hrun
  have hcount : ¬ (count : ℤ) = -1 := by omega
  rw [creatBlocks, bind_run hrun]
  dsimp only
  rw [if_neg hcount]
  unfold freeSlot delivered
  cases Scan.first (fun i ↦ entryInum (reader.before server.image node (block + 1)).buffer i = -1)
    dirEntries with
  | none => rfl
  | some slot => rfl

/-- No block that is delivered has a free slot. -/
theorem creatBlocks_full (server : Server) {fuel block : ℕ} (hfuel : block + fuel = ndirect)
    (hfull : ∀ k, block ≤ k → k < ndirect →
      freeSlot (delivered server.image node reader k) = none) :
    creatBlocks node name inum fuel block (reader.before server.image node block).buffer
        (server.at (reader.before server.image node block)) =
      some (none, server.at (reader.before server.image node ndirect)) := by
  induction fuel generalizing block with
  | zero =>
    rw [← hfuel]
    rfl
  | succ fuel ih =>
    rw [creatBlocks_succ reader server (by omega), hfull block le_rfl (by omega)]
    exact ih (by omega) fun k hk ↦ hfull k (by omega)

/-- The first block that is delivered with a free slot. -/
theorem creatBlocks_first (server : Server) {fuel block k slot : ℕ} (hfuel : block + fuel = ndirect)
    (hlow : block ≤ k) (hhigh : k < ndirect)
    (hbefore : ∀ m, block ≤ m → m < k → freeSlot (delivered server.image node reader m) = none)
    (hslot : freeSlot (delivered server.image node reader k) = some slot) :
    creatBlocks node name inum fuel block (reader.before server.image node block).buffer
        (server.at (reader.before server.image node block)) =
      some (some (setEntry (delivered server.image node reader k) slot name inum, k),
        server.at (reader.before server.image node (k + 1))) := by
  induction fuel generalizing block with
  | zero => omega
  | succ fuel ih =>
    rw [creatBlocks_succ reader server (by omega)]
    rcases Nat.eq_or_lt_of_le hlow with rfl | hlt
    · rw [hslot]
    · rw [hbefore block le_rfl hlt]
      exact ih (by omega) (by omega) fun m hm ↦ hbefore m (by omega)

theorem creatPlace_full (name : CString) (server : Server) (hfull : ∀ k < ndirect,
      freeSlot (delivered server.image node reader k) = none) :
    ∃ next, creatPlace node name reader.buffer (server.at reader) = some (none, next) := by
  unfold creatPlace
  rw [bind_run get_run]
  cases hfirst : Scan.first (inodeFree (server.at reader).inodes) 4096 with
  | none => exact ⟨_, rfl⟩
  | some number =>
    have hnumber : number < 4096 := (Scan.first_eq_some_iff.mp hfirst).1
    have hindex : index 4096 (number : ℤ) (server.at reader) =
        some (⟨number, hnumber⟩, server.at reader) := index_natCast_run ⟨number, hnumber⟩
    have hblocks : creatBlocks node name (BitVec.ofNat 32 number) ndirect 0 reader.buffer
        (server.at reader) = some (none, _) :=
      creatBlocks_full reader server (Nat.zero_add _) fun k _ ↦ hfull k
    dsimp only
    rw [bind_run hindex, bind_run hblocks]
    exact ⟨_, rfl⟩

/-- What `fsi_creat` takes: the first free inode number and the first free slot of the first block
that is delivered with one. -/
theorem creatPlace_first (server : Server) {number : Fin 4096} {k : Fin ndirect} {slot : ℕ}
    (hnumber : Scan.first (inodeFree server.inodes) 4096 = some (number : ℕ))
    (hbefore : ∀ m < (k : ℕ), freeSlot (delivered server.image node reader m) = none)
    (hslot : freeSlot (delivered server.image node reader k) = some slot) :
    creatPlace node name reader.buffer (server.at reader) =
      some (some ⟨node, number, setEntry (delivered server.image node reader k) slot name
        (BitVec.ofNat 32 number), k⟩, server.at (reader.before server.image node (k + 1))) := by
  have hblocks : creatBlocks node name (BitVec.ofNat 32 number) ndirect 0 reader.buffer
      (server.at reader) = some (some (_, (k : ℕ)), _) :=
    creatBlocks_first reader server (Nat.zero_add _) (Nat.zero_le _) k.isLt
      (fun m _ ↦ hbefore m) hslot
  have hfirst : Scan.first (inodeFree (server.at reader).inodes) 4096 = some (number : ℕ) := hnumber
  unfold creatPlace
  rw [bind_run get_run, hfirst]
  dsimp only
  rw [bind_run (index_natCast_run number), bind_run hblocks]
  dsimp only
  rw [bind_run (index_natCast_run k)]
  rfl

/-- Either no block is delivered with a free slot, or there is a first one. -/
theorem Reader.full_or_first (image : File) (node : Inode) :
    (∀ k < ndirect, freeSlot (delivered image node reader k) = none) ∨
      ∃ (k : Fin ndirect) (slot : ℕ), freeSlot (delivered image node reader k) = some slot ∧
        ∀ m < (k : ℕ), freeSlot (delivered image node reader m) = none := by
  cases hfirst : Scan.first (fun k ↦ (freeSlot (delivered image node reader k)).isSome) ndirect with
  | none =>
    refine Or.inl fun k hk ↦ ?_
    simpa using Scan.first_eq_none_iff.mp hfirst k hk
  | some k =>
    obtain ⟨hk, hsome, hbefore⟩ := Scan.first_eq_some_iff.mp hfirst
    obtain ⟨slot, hslot⟩ := Option.isSome_iff_exists.mp hsome
    exact Or.inr ⟨⟨k, hk⟩, slot, hslot, fun m hm ↦ by simpa using hbefore m hm⟩

end Creat

/-! ## The search for an entry to remove -/

/-- One turn of the loop of `fsi_unlink`. -/
theorem unlinkBlocks_succ (reader : Reader) (server : Server) {fuel block : ℕ}
    (hblock : block < ndirect) :
    unlinkBlocks node name (fuel + 1) block (reader.before server.image node block).buffer
        (server.at (reader.before server.image node block)) =
      match Scan.first (entryNamed (delivered server.image node reader block) name) dirEntries with
      | some slot => some (some (setEntryInum (delivered server.image node reader block) slot (-1),
          some (block, slot)), server.at (reader.before server.image node (block + 1)))
      | none => unlinkBlocks node name fuel (block + 1)
          (reader.before server.image node (block + 1)).buffer
          (server.at (reader.before server.image node (block + 1))) := by
  obtain ⟨count, hrun⟩ := getBlock_delivers server node (reader.before server.image node block)
    ⟨block, hblock⟩
  have hstep := reader.before_succ server.image node ⟨block, hblock⟩
  rw [← hstep] at hrun
  have hcount : ¬ (count : ℤ) = -1 := by omega
  rw [unlinkBlocks, bind_run hrun]
  dsimp only
  rw [if_neg hcount]
  unfold delivered
  cases Scan.first (entryNamed (reader.before server.image node (block + 1)).buffer name)
    dirEntries with
  | none => rfl
  | some slot => rfl

/-- A block that is delivered with the name ends the search there or before. -/
theorem unlinkBlocks_finds (reader : Reader) (server : Server) {fuel block k slot : ℕ}
    (hfuel : block + fuel = ndirect) (hlow : block ≤ k) (hhigh : k < ndirect)
    (hslot : slot < dirEntries)
    (hnamed : entryNamed (delivered server.image node reader k) name slot = true) :
    ∃ dirBlock found last, unlinkBlocks node name fuel block
        (reader.before server.image node block).buffer
        (server.at (reader.before server.image node block)) =
      some (some (dirBlock, some found), server.at last) := by
  induction fuel generalizing block with
  | zero => omega
  | succ fuel ih =>
    rw [unlinkBlocks_succ reader server (by omega)]
    cases hfirst : Scan.first (entryNamed (delivered server.image node reader block) name)
        dirEntries with
    | some first => exact ⟨_, _, _, rfl⟩
    | none =>
      have hne : block ≠ k := by
        rintro rfl
        have hmiss := Scan.first_eq_none_iff.mp hfirst slot hslot
        simp [hnamed] at hmiss
      exact ih (by omega) (by omega)

/-! ## Creating an absent name -/

/-- The search for a free slot starts where the lookup of the name has left the file. -/
theorem creatProbe_lookup {parent : Fin 4096} {frame : CreatFrame} {found : ℤ} {looked : Server}
    (hnode : InodeIs server parent node) (hname : name.Fits)
    (hlookup : fsiLookup ((parent : ℕ) : ℤ) name frame.lookup server = some (found, looked)) :
    creatProbe ((parent : ℕ) : ℤ) name frame server =
      some (some (node, found), server.at ⟨looked.offset, frame.dirBlock⟩) := by
  have hlooked : looked = server.seek looked.offset := readOnly_fsiLookup _ _ _ _ _ _ hlookup
  apply creatProbe_run hnode hname
  rw [fsiLookup_seek hnode, hlookup]
  exact congrArg some (Prod.ext rfl hlooked)

end OS537.LFS
