import OS537.LFS.Log
import OS537.Base.Run

/-!
# Names left behind in a directory block

`fsi_unlink` frees a slot by setting its inode number to -1 and leaves the name where it is, and
`fsi_build` puts no name into the slots it frees. The search of `fsi_lookup` compares names only,
so it also stops at such a slot. A block still answers like a finite map from names to inode
numbers: an insertion takes the first free slot, so every slot before it is in use, by another
name.
-/

namespace OS537.LFS

open Bytes Code Run

/-! ## The three scans of one block -/

/-- The scan of `fsi_lookup`. -/
def lookupEntry (dirBlock : Store) (name : CString) : ℤ :=
  match Scan.first (entryNamed dirBlock name) dirEntries with
  | some i => (entryInum dirBlock i).toInt
  | none => -1

/-- The scan of `fsi_creat`, `none` when no slot is free. -/
def insertEntry (dirBlock : Store) (name : CString) (inum : Word) : Option Store :=
  match Scan.first (fun i ↦ entryInum dirBlock i = -1) dirEntries with
  | some i => some (setEntry dirBlock i name inum)
  | none => none

/-- The scan of `fsi_unlink`. -/
def removeEntry (dirBlock : Store) (name : CString) : Store :=
  match Scan.first (entryNamed dirBlock name) dirEntries with
  | some i => setEntryInum dirBlock i (-1)
  | none => dirBlock

section Loops

variable {node : Inode} {name : CString} {server next : Server} {buffer dirBlock : Store}
  {block : ℕ} {rc : ℤ}

/-- On the last block the loop of `fsi_lookup` is its scan of that block. -/
theorem lookupBlocks_last
    (hblock : getBlock node buffer block server = some ((rc, dirBlock), next)) (hrc : rc ≠ -1) :
    lookupBlocks node name 1 block buffer server = some (lookupEntry dirBlock name, next) := by
  unfold lookupEntry
  cases hslot : Scan.first (entryNamed dirBlock name) dirEntries with
  | some slot => exact lookupBlocks_found hblock hrc hslot
  | none =>
    rw [lookupBlocks, bind_run hblock]
    dsimp only
    rw [if_neg hrc, hslot]
    rfl

theorem creatBlocks_last {inum : Word}
    (hblock : getBlock node buffer block server = some ((rc, dirBlock), next)) (hrc : rc ≠ -1) :
    creatBlocks node name inum 1 block buffer server =
      some ((insertEntry dirBlock name inum).map (·, block), next) := by
  unfold insertEntry
  cases hslot : Scan.first (fun i ↦ entryInum dirBlock i = -1) dirEntries with
  | some slot => exact creatBlocks_found hblock hrc hslot
  | none =>
    rw [creatBlocks, bind_run hblock]
    dsimp only
    rw [if_neg hrc, hslot]
    rfl

theorem unlinkBlocks_last
    (hblock : getBlock node buffer block server = some ((rc, dirBlock), next)) (hrc : rc ≠ -1) :
    unlinkBlocks node name 1 block buffer server =
      some (some (removeEntry dirBlock name,
        (Scan.first (entryNamed dirBlock name) dirEntries).map (block, ·)), next) := by
  unfold removeEntry
  cases hslot : Scan.first (entryNamed dirBlock name) dirEntries with
  | some slot => exact unlinkBlocks_found hblock hrc hslot
  | none =>
    rw [unlinkBlocks, bind_run hblock]
    dsimp only
    rw [if_neg hrc, hslot]
    rfl

end Loops

/-! ## Calls on a block and what they mean -/

/-- An entry made by `fsi_creat` or removed by `fsi_unlink`. -/
inductive EntryCall where
  | insert (name : CString) (inum : Fin 4096)
  | remove (name : CString)

/-- `fsi_creat` refuses names that do not fit; an entry is made only under a name that the lookup
does not find, and only when a slot is free. -/
def entryStep (dirBlock : Store) : EntryCall → Option Store
  | .insert name inum =>
    if name.chars.length > 27 then
      none
    else if lookupEntry dirBlock name < 0 then
      insertEntry dirBlock name (BitVec.ofNat 32 inum)
    else
      none
  | .remove name => some (removeEntry dirBlock name)

instance : DecidableEq CString := fun first second ↦
  decidable_of_iff (first.chars = second.chars) (by cases first; cases second; simp)

/-- The names of a directory with their inode numbers. -/
abbrev Listing := CString → Option (Fin 4096)

/-- The names `fsi_build` puts into the root. -/
def Listing.root : Listing := fun name ↦ if name = dot ∨ name = dotDot then some 0 else none

/-- The number a name was last entered with, unless it was removed since. -/
def Listing.call (listing : Listing) : EntryCall → Listing
  | .insert name inum => Function.update listing name (some inum)
  | .remove name => Function.update listing name none

/-- The answer of a lookup. -/
def Listing.answer (listing : Listing) (name : CString) : ℤ :=
  match listing name with
  | some inum => ((inum : ℕ) : ℤ)
  | none => -1

/-! ## The first slot with a listed name is the live one -/

/-- `dirBlock` presents `listing`: the first slot with a listed name holds its number, and a slot in
use is the first one with some listed name. -/
structure Presents (dirBlock : Store) (listing : Listing) : Prop where
  listed : ∀ {name inum}, listing name = some inum → name.Fits ∧ ∃ i,
    Scan.first (entryNamed dirBlock name) dirEntries = some i ∧
      entryInum dirBlock i = BitVec.ofNat 32 inum
  live : ∀ {i}, i < dirEntries → entryInum dirBlock i ≠ -1 → ∃ name inum,
    listing name = some inum ∧ Scan.first (entryNamed dirBlock name) dirEntries = some i

section Presents

variable {dirBlock : Store} {listing : Listing} {name other : CString} {slot : ℕ}

/-- A slot holds one name. -/
theorem entryNamed_unique (hname : entryNamed dirBlock name slot = true)
    (hother : entryNamed dirBlock other slot = true) : name = other :=
  strcmpEq_unique hname hother

/-- A slot with a name that is not listed is free. -/
theorem Presents.free (h : Presents dirBlock listing) (hlisting : listing name = none)
    (hslot : slot < dirEntries) (hname : entryNamed dirBlock name slot = true) :
    entryInum dirBlock slot = -1 := by
  by_contra hlive
  obtain ⟨other, inum, hother, hfirst⟩ := h.live hslot hlive
  have heq : name = other := entryNamed_unique hname (Scan.first_eq_some_iff.mp hfirst).2.1
  rw [heq, hother] at hlisting
  cases hlisting

/-- The lookup gives what the listing says, whatever names the free slots hold. -/
theorem Presents.lookupEntry_eq (h : Presents dirBlock listing) (name : CString) :
    lookupEntry dirBlock name = listing.answer name := by
  unfold lookupEntry Listing.answer
  cases hlisting : listing name with
  | some inum =>
    obtain ⟨-, i, hfirst, hinum⟩ := h.listed hlisting
    rw [hfirst]
    dsimp only
    rw [hinum, toInt_ofNat_fin]
  | none =>
    cases hfirst : Scan.first (entryNamed dirBlock name) dirEntries with
    | none => rfl
    | some i =>
      obtain ⟨hi, hnamed, -⟩ := Scan.first_eq_some_iff.mp hfirst
      dsimp only
      rw [h.free hlisting hi hnamed]
      decide

theorem Presents.not_listed (h : Presents dirBlock listing)
    (hlookup : lookupEntry dirBlock name < 0) :
    listing name = none := by
  rw [h.lookupEntry_eq, Listing.answer] at hlookup
  cases hlisting : listing name with
  | none => rfl
  | some inum =>
    rw [hlisting] at hlookup
    exact absurd hlookup (by simp)

/-! ## Insertion -/

/-- A name that is not listed does not stand before the first free slot. -/
theorem Presents.first_setEntry_same (h : Presents dirBlock listing) (hname : name.Fits)
    (hlisting : listing name = none) (inum : Word)
    (hslot : Scan.first (fun i ↦ entryInum dirBlock i = -1) dirEntries = some slot) :
    Scan.first (entryNamed (setEntry dirBlock slot name inum) name) dirEntries = some slot := by
  obtain ⟨hlt, -, hbefore⟩ := Scan.first_eq_some_iff.mp hslot
  rw [Scan.first_eq_some_iff]
  refine ⟨hlt, (entryNamed_setEntry_same _ _ hname _).mpr rfl, fun j hj ↦ ?_⟩
  rw [entryNamed_setEntry_other _ hname hname _ hj.ne]
  by_contra hnamed
  have hfree := h.free hlisting (hj.trans hlt) (Bool.not_eq_false _ ▸ hnamed)
  have hused := hbefore j hj
  simp [hfree] at hused

theorem Presents.insertEntry (h : Presents dirBlock listing) (hname : name.Fits)
    (hlisting : listing name = none) {inum : Fin 4096} {next : Store}
    (hnext : LFS.insertEntry dirBlock name (BitVec.ofNat 32 inum) = some next) :
    Presents next (Function.update listing name (some inum)) := by
  unfold LFS.insertEntry at hnext
  cases hslot : Scan.first (fun i ↦ entryInum dirBlock i = -1) dirEntries with
  | none =>
    rw [hslot] at hnext
    cases hnext
  | some slot =>
    rw [hslot] at hnext
    cases hnext
    have hfree : entryInum dirBlock slot = -1 := by
      simpa using (Scan.first_eq_some_iff.mp hslot).2.1
    have hothers {other : CString} {number : Fin 4096} (hlisted : listing other = some number) :
        other ≠ name := by
      intro heq
      rw [heq, hlisting] at hlisted
      cases hlisted
    have hkeeps {other : CString} {number : Fin 4096} (hlisted : listing other = some number)
        {i : ℕ} (hfirst : Scan.first (entryNamed dirBlock other) dirEntries = some i)
        (hi : i ≠ slot) :
        Scan.first (entryNamed (setEntry dirBlock slot name (BitVec.ofNat 32 inum)) other)
          dirEntries = some i :=
      first_setEntry_other hname (h.listed hlisted).1 (hothers hlisted) hi _ hfirst
    constructor
    · intro other number hlisted
      by_cases hother : other = name
      · rw [hother, Function.update_self, Option.some.injEq] at hlisted
        rw [hother, ← hlisted]
        exact ⟨hname, slot, h.first_setEntry_same hname hlisting _ hslot,
          entryInum_setEntry_same _ _ _ _⟩
      · rw [Function.update_of_ne hother] at hlisted
        obtain ⟨hfits, i, hfirst, hnumber⟩ := h.listed hlisted
        have hi : i ≠ slot := by
          intro heq
          rw [heq, hfree] at hnumber
          exact ofNat_fin_ne_neg_one number hnumber.symm
        exact ⟨hfits, i, hkeeps hlisted hfirst hi, by
          rw [entryInum_setEntry_other _ hname _ hi, hnumber]⟩
    · intro i hi hlive
      by_cases hislot : i = slot
      · exact ⟨name, inum, Function.update_self .., by
          rw [hislot]
          exact h.first_setEntry_same hname hlisting _ hslot⟩
      · rw [entryInum_setEntry_other _ hname _ hislot] at hlive
        obtain ⟨other, number, hlisted, hfirst⟩ := h.live hi hlive
        exact ⟨other, number, by rw [Function.update_of_ne (hothers hlisted), hlisted],
          hkeeps hlisted hfirst hislot⟩

/-! ## Removal -/

/-- Freeing a slot moves no name. -/
theorem first_setEntryInum (hname : name.Fits) (inum : Word) :
    Scan.first (entryNamed (setEntryInum dirBlock slot inum) name) dirEntries =
      Scan.first (entryNamed dirBlock name) dirEntries := by
  apply Scan.first_congr
  intro j _
  exact entryNamed_setEntryInum dirBlock hname slot j inum

theorem Presents.removeEntry (h : Presents dirBlock listing) (name : CString) :
    Presents (LFS.removeEntry dirBlock name) (Function.update listing name none) := by
  unfold LFS.removeEntry
  cases hslot : Scan.first (entryNamed dirBlock name) dirEntries with
  | none =>
    have hlisting : listing name = none := by
      cases hlisting : listing name with
      | none => rfl
      | some inum =>
        obtain ⟨-, i, hfirst, -⟩ := h.listed hlisting
        rw [hslot] at hfirst
        cases hfirst
    rw [← hlisting, Function.update_eq_self]
    exact h
  | some slot =>
    have hnamed := (Scan.first_eq_some_iff.mp hslot).2.1
    constructor
    · intro other number hlisted
      have hother : other ≠ name := by
        intro heq
        rw [heq, Function.update_self] at hlisted
        cases hlisted
      rw [Function.update_of_ne hother] at hlisted
      obtain ⟨hfits, i, hfirst, hnumber⟩ := h.listed hlisted
      have hi : i ≠ slot := by
        intro heq
        rw [heq] at hfirst
        exact hother (entryNamed_unique (Scan.first_eq_some_iff.mp hfirst).2.1 hnamed)
      exact ⟨hfits, i, by rw [first_setEntryInum hfits, hfirst], by
        rw [entryInum_setEntryInum_other _ _ hi, hnumber]⟩
    · intro i hi hlive
      have hislot : i ≠ slot := by
        intro heq
        rw [heq, entryInum_setEntryInum_same] at hlive
        exact hlive rfl
      rw [entryInum_setEntryInum_other _ _ hislot] at hlive
      obtain ⟨other, number, hlisted, hfirst⟩ := h.live hi hlive
      have hother : other ≠ name := by
        intro heq
        rw [heq, hslot, Option.some.injEq] at hfirst
        exact hislot hfirst.symm
      exact ⟨other, number, by rw [Function.update_of_ne hother, hlisted], by
        rw [first_setEntryInum (h.listed hlisted).1, hfirst]⟩

theorem Presents.entryStep {call : EntryCall} {next : Store} (h : Presents dirBlock listing)
    (hstep : LFS.entryStep dirBlock call = some next) : Presents next (listing.call call) := by
  cases call with
  | insert name inum =>
    simp only [LFS.entryStep] at hstep
    split at hstep
    case isTrue => cases hstep
    case isFalse hfits =>
      split at hstep
      case isTrue hlookup =>
        exact h.insertEntry (Nat.le_of_not_lt hfits) (h.not_listed hlookup) hstep
      case isFalse => cases hstep
  | remove name =>
    cases hstep
    exact h.removeEntry name

end Presents

/-! ## Whole runs -/

/-- The root as `fsi_build` writes it, with any bytes of the stack in the free slots. -/
theorem presents_rootBlock (stack : Store) : Presents (rootBlock stack) Listing.root := by
  have hdot : Scan.first (entryNamed (rootBlock stack) dot) dirEntries = some 0 := by
    rw [Scan.first_eq_some_iff, entryNamed_rootBlock _ dot_fits,
      entryNamed_childBlock_self _ _ _ dot_fits]
    exact ⟨by decide, rfl, fun j hj ↦ absurd hj (Nat.not_lt_zero j)⟩
  have hdotDot : Scan.first (entryNamed (rootBlock stack) dotDot) dirEntries = some 1 := by
    rw [Scan.first_eq_some_iff, entryNamed_rootBlock _ dotDot_fits,
      entryNamed_childBlock_parent _ _ _ dotDot_fits]
    refine ⟨by decide, rfl, fun j hj ↦ ?_⟩
    rw [Nat.lt_one_iff.mp hj, entryNamed_rootBlock _ dotDot_fits, ← Bool.not_eq_true,
      entryNamed_childBlock_self _ _ _ dotDot_fits]
    decide
  constructor
  · intro name inum hlisted
    unfold Listing.root at hlisted
    split at hlisted
    case isTrue hname =>
      cases hlisted
      obtain rfl | rfl := hname
      · exact ⟨dot_fits, 0, hdot, entryInum_rootBlock_dots stack (by decide)⟩
      · exact ⟨dotDot_fits, 1, hdotDot, entryInum_rootBlock_dots stack (by decide)⟩
    case isFalse => cases hlisted
  · intro i hi hlive
    have hlow : i < 2 := by
      by_contra hge
      exact hlive (entryInum_rootBlock_free stack (Nat.le_of_not_lt hge) hi)
    obtain hzero | hone : i = 0 ∨ i = 1 := by omega
    · rw [hzero]
      exact ⟨dot, 0, if_pos (Or.inl rfl), hdot⟩
    · rw [hone]
      exact ⟨dotDot, 0, if_pos (Or.inr rfl), hdotDot⟩

theorem Presents.of_run {dirBlock next : Store} {listing : Listing} {calls : List EntryCall}
    (h : Presents dirBlock listing) (hrun : run LFS.entryStep dirBlock calls = some next) :
    Presents next (calls.foldl Listing.call listing) := by
  induction calls generalizing dirBlock listing with
  | nil =>
    cases hrun
    exact h
  | cons call rest ih =>
    rw [run, Option.bind_eq_some_iff] at hrun
    obtain ⟨middle, hstep, hrest⟩ := hrun
    exact ih (h.entryStep hstep) hrest

/-- After any run of insertions and removals on the block of a new file system, the scan of
`fsi_lookup` gives the inode number last entered under a name and not removed since, and -1 for
every other name. -/
theorem lookup_after_entries (stack : Store) {calls : List EntryCall} {dirBlock : Store}
    (hrun : run entryStep (rootBlock stack) calls = some dirBlock) (name : CString) :
    lookupEntry dirBlock name = (calls.foldl Listing.call Listing.root).answer name :=
  ((presents_rootBlock stack).of_run hrun).lookupEntry_eq name

/-- The stack leaves an "a" in every slot; "a" is made, removed and made again behind another entry,
and "b" is removed. -/
theorem reentered_name_found :
    let a : CString := ⟨[97], by decide⟩
    let b : CString := ⟨[98], by decide⟩
    let calls : List EntryCall := [.insert a 7, .remove a, .insert b 9, .insert a 5, .remove b]
    ∃ dirBlock,
      run entryStep (rootBlock fun i ↦ if i % 32 = 0 then 97 else 0) calls = some dirBlock ∧
        lookupEntry dirBlock a = 5 ∧ lookupEntry dirBlock b = -1 := by
  intro a b calls
  have hdefined :
      (run entryStep (rootBlock fun i ↦ if i % 32 = 0 then 97 else 0) calls).isSome = true := by
    decide +kernel
  obtain ⟨dirBlock, hrun⟩ := Option.isSome_iff_exists.mp hdefined
  refine ⟨dirBlock, hrun, ?_, ?_⟩
  · rw [lookup_after_entries _ hrun a]
    decide
  · rw [lookup_after_entries _ hrun b]
    decide

end OS537.LFS
