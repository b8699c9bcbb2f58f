import Mathlib.Data.List.GetD
import OS537.LFS.Server

/-!
# Directory blocks

A directory block is 128 slots of 28 bytes of name and an inode number. The lemmas say what the
slots hold after the writes the server makes, and that names of at most 27 bytes stay inside their
slot, so that `strcmp` on one slot never depends on another.
-/

namespace OS537.LFS

open Bytes

/-! ## Strings -/

/-- `strcmp` finds the characters and the terminating NUL. -/
theorem strcmpEq_iff (store : Store) (addr : ℕ) (chars : List Byte) :
    strcmpEq store addr chars = true ↔
      ∀ i ≤ chars.length, store (addr + i) = chars.getD i 0 := by
  induction chars generalizing addr with
  | nil => simp [strcmpEq]
  | cons char rest ih =>
    rw [strcmpEq, Bool.and_eq_true, beq_iff_eq, ih]
    constructor
    · intro h i hi
      cases i with
      | zero => exact h.1
      | succ i =>
        have hi' : i ≤ rest.length := Nat.le_of_succ_le_succ hi
        rw [Nat.add_comm i 1, ← Nat.add_assoc, h.2 i hi', Nat.add_comm 1 i]
        rfl
    · intro h
      refine ⟨h 0 (Nat.zero_le _), fun i hi ↦ ?_⟩
      rw [Nat.add_assoc, Nat.add_comm 1 i]
      exact h (i + 1) (Nat.succ_le_succ hi)

theorem strcmpEq_congr {first second : Store} {addr : ℕ} (chars : List Byte)
    (h : AgreeOn first second addr (addr + chars.length + 1)) :
    strcmpEq first addr chars = strcmpEq second addr chars := by
  rw [Bool.eq_iff_iff, strcmpEq_iff, strcmpEq_iff]
  have hbyte (i : ℕ) (hi : i ≤ chars.length) : first (addr + i) = second (addr + i) :=
    h _ (Nat.le_add_right _ _) (by omega)
  constructor
  · intro hfirst i hi
    rw [← hbyte i hi, hfirst i hi]
  · intro hsecond i hi
    rw [hbyte i hi, hsecond i hi]

/-- A place in memory holds one string at most. -/
theorem strcmpEq_length_le {store : Store} {addr : ℕ} {first second : CString}
    (hfirst : strcmpEq store addr first.chars = true)
    (hsecond : strcmpEq store addr second.chars = true) :
    first.chars.length ≤ second.chars.length := by
  rw [strcmpEq_iff] at hfirst hsecond
  by_contra hlt
  have hlt' : second.chars.length < first.chars.length := by omega
  have hnul : first.chars.getD second.chars.length 0 = 0 := by
    rw [← hfirst _ hlt'.le, hsecond _ le_rfl]
    exact List.getD_eq_default _ _ le_rfl
  rw [List.getD_eq_getElem _ _ hlt'] at hnul
  exact first.no_nul _ (List.getElem_mem hlt') hnul

theorem strcmpEq_unique {store : Store} {addr : ℕ} {first second : CString}
    (hfirst : strcmpEq store addr first.chars = true)
    (hsecond : strcmpEq store addr second.chars = true) : first = second := by
  have hlength : first.chars.length = second.chars.length :=
    le_antisymm (strcmpEq_length_le hfirst hsecond) (strcmpEq_length_le hsecond hfirst)
  have hchars : first.chars = second.chars := by
    rw [strcmpEq_iff] at hfirst hsecond
    apply List.ext_getElem hlength
    intro i hi hi'
    rw [← List.getD_eq_getElem _ 0 hi, ← List.getD_eq_getElem _ 0 hi', ← hfirst i hi.le,
      hsecond i hi'.le]
  cases first
  cases second
  simpa using hchars

theorem strcmpEq_strcpy (store : Store) (addr : ℕ) (name : CString) :
    strcmpEq (strcpy store addr name) addr name.chars = true := by
  rw [strcmpEq_iff]
  intro i hi
  exact splice_apply_inside store _ (Nat.lt_succ_of_le hi)

/-! ## Slots -/

/-- A name that fits its slot. -/
def CString.Fits (name : CString) : Prop := name.chars.length ≤ 27

instance (name : CString) : Decidable name.Fits := inferInstanceAs (Decidable (_ ≤ _))

theorem entryInum_congr {first second : Store} {i : ℕ}
    (h : AgreeOn first second (dirEntSize * i) (dirEntSize * i + 32)) :
    entryInum first i = entryInum second i :=
  h.load32_eq (Nat.le_add_right _ _) (Nat.add_assoc _ 28 4).le

theorem entryNamed_congr {first second : Store} {name : CString} (hname : name.Fits) {i : ℕ}
    (h : AgreeOn first second (dirEntSize * i) (dirEntSize * i + 28)) :
    entryNamed first name i = entryNamed second name i := by
  apply strcmpEq_congr
  apply h.mono le_rfl
  unfold CString.Fits at hname
  omega

/-- The slots of a block lie inside it. -/
theorem AgreeOn.slot {first second : Store} (h : AgreeOn first second 0 lfsBlockSize) {i : ℕ}
    (hi : i < dirEntries) : AgreeOn first second (dirEntSize * i) (dirEntSize * i + 32) := by
  apply h.mono (Nat.zero_le _)
  simp only [dirEntries, dirEntSize, lfsBlockSize] at hi ⊢
  omega

theorem first_entryNamed_congr {first second : Store} (h : AgreeOn first second 0 lfsBlockSize)
    {name : CString} (hname : name.Fits) :
    Scan.first (entryNamed first name) dirEntries =
      Scan.first (entryNamed second name) dirEntries := by
  apply Scan.first_congr
  intro i hi
  exact entryNamed_congr hname ((AgreeOn.slot h hi).mono le_rfl (by omega))

theorem first_free_congr {first second : Store} (h : AgreeOn first second 0 lfsBlockSize) :
    Scan.first (fun i ↦ entryInum first i = -1) dirEntries =
      Scan.first (fun i ↦ entryInum second i = -1) dirEntries := by
  apply Scan.first_congr
  intro i hi
  rw [entryInum_congr (AgreeOn.slot h hi)]

/-! ## Writing a slot -/

theorem entryInum_setEntryInum_same (dirBlock : Store) (i : ℕ) (inum : Word) :
    entryInum (setEntryInum dirBlock i inum) i = inum :=
  load32_store32_same _ _ _

theorem entryInum_setEntryInum_other (dirBlock : Store) {i j : ℕ} (inum : Word) (h : j ≠ i) :
    entryInum (setEntryInum dirBlock i inum) j = entryInum dirBlock j := by
  apply load32_store32_other
  simp only [dirEntSize]
  omega

theorem entryNamed_setEntryInum (dirBlock : Store) {name : CString} (hname : name.Fits)
    (i j : ℕ) (inum : Word) :
    entryNamed (setEntryInum dirBlock i inum) name j = entryNamed dirBlock name j := by
  apply entryNamed_congr hname
  apply agreeOn_store32
  simp only [dirEntSize]
  omega

theorem entryInum_setEntry_same (dirBlock : Store) (i : ℕ) (name : CString) (inum : Word) :
    entryInum (setEntry dirBlock i name inum) i = inum :=
  entryInum_setEntryInum_same _ _ _

theorem agreeOn_strcpy (dirBlock : Store) {name : CString} (hname : name.Fits) {i lo hi : ℕ}
    (h : hi ≤ dirEntSize * i ∨ dirEntSize * i + 28 ≤ lo) :
    AgreeOn (strcpy dirBlock (dirEntSize * i) name) dirBlock lo hi := by
  apply agreeOn_splice
  unfold CString.Fits at hname
  omega

theorem entryInum_setEntry_other (dirBlock : Store) {i j : ℕ} {name : CString}
    (hname : name.Fits) (inum : Word) (h : j ≠ i) :
    entryInum (setEntry dirBlock i name inum) j = entryInum dirBlock j := by
  unfold setEntry
  rw [entryInum_setEntryInum_other _ _ h]
  apply entryInum_congr
  apply agreeOn_strcpy dirBlock hname
  simp only [dirEntSize]
  omega

theorem entryNamed_setEntry_same (dirBlock : Store) (i : ℕ) {name other : CString}
    (hother : other.Fits) (inum : Word) :
    entryNamed (setEntry dirBlock i name inum) other i = true ↔ other = name := by
  unfold setEntry
  rw [entryNamed_setEntryInum _ hother]
  constructor
  · intro h
    exact strcmpEq_unique h (strcmpEq_strcpy _ _ _)
  · intro h
    rw [h]
    exact strcmpEq_strcpy _ _ _

theorem entryNamed_setEntry_other (dirBlock : Store) {i j : ℕ} {name other : CString}
    (hname : name.Fits) (hother : other.Fits) (inum : Word) (h : j ≠ i) :
    entryNamed (setEntry dirBlock i name inum) other j = entryNamed dirBlock other j := by
  unfold setEntry
  rw [entryNamed_setEntryInum _ hother]
  apply entryNamed_congr hother
  apply agreeOn_strcpy dirBlock hname
  simp only [dirEntSize]
  omega

/-- A new entry takes its slot from other names and leaves them the rest. -/
theorem entryNamed_entered (dirBlock : Store) {name other : CString} (hname : name.Fits)
    (hother : other.Fits) (hne : other ≠ name) (inum : Word) (free slot : ℕ) :
    entryNamed (setEntry dirBlock free name inum) other slot = true ↔
      entryNamed dirBlock other slot = true ∧ slot ≠ free := by
  by_cases hslot : slot = free
  · rw [hslot, entryNamed_setEntry_same dirBlock free hother inum]
    simp [hne]
  · rw [entryNamed_setEntry_other dirBlock hname hother inum hslot]
    simp [hslot]

/-- The first entry with another name stays the first, unless it was in that slot. -/
theorem first_setEntry_other {dirBlock : Store} {name other : CString} (hname : name.Fits)
    (hother : other.Fits) (hne : other ≠ name) {i slot : ℕ} (hi : i ≠ slot) (inum : Word)
    (hfirst : Scan.first (entryNamed dirBlock other) dirEntries = some i) :
    Scan.first (entryNamed (setEntry dirBlock slot name inum) other) dirEntries = some i := by
  rw [Scan.first_eq_some_iff] at hfirst ⊢
  obtain ⟨hlt, hhit, hbefore⟩ := hfirst
  have hiff := entryNamed_entered dirBlock hname hother hne inum slot
  refine ⟨hlt, (hiff i).mpr ⟨hhit, hi⟩, fun j hj ↦ ?_⟩
  have hmiss := hbefore j hj
  rw [Bool.eq_false_iff] at hmiss ⊢
  exact fun hhit ↦ hmiss ((hiff j).mp hhit).1

/-! ## The first block of a directory -/

theorem dot_fits : dot.Fits := by decide

theorem dotDot_fits : dotDot.Fits := by decide

/-- The loop that frees slots leaves the names and the other inode numbers. -/
theorem entryInum_free (dirBlock : Store) (slots : List ℕ) (j : ℕ) :
    entryInum (slots.foldl (fun block i ↦ setEntryInum block i (-1)) dirBlock) j =
      if j ∈ slots then -1 else entryInum dirBlock j := by
  induction slots generalizing dirBlock with
  | nil => rfl
  | cons i rest ih =>
    rw [List.foldl_cons, ih]
    by_cases hrest : j ∈ rest
    · rw [if_pos hrest, if_pos (List.mem_cons_of_mem i hrest)]
    · rw [if_neg hrest]
      by_cases hj : j = i
      · rw [hj, if_pos List.mem_cons_self, entryInum_setEntryInum_same]
      · have hmem : j ∉ i :: rest := by simp [hj, hrest]
        rw [if_neg hmem, entryInum_setEntryInum_other _ _ hj]

theorem entryNamed_free (dirBlock : Store) (slots : List ℕ) {name : CString} (hname : name.Fits)
    (j : ℕ) :
    entryNamed (slots.foldl (fun block i ↦ setEntryInum block i (-1)) dirBlock) name j =
      entryNamed dirBlock name j := by
  induction slots generalizing dirBlock with
  | nil => rfl
  | cons i rest ih => rw [List.foldl_cons, ih, entryNamed_setEntryInum _ hname]

/-- The root's block before its free slots are marked is a new directory's block. -/
theorem rootBlock_eq (dirBlock : Store) :
    rootBlock dirBlock = (List.range' 2 126).foldl (fun block i ↦ setEntryInum block i (-1))
      (childBlock dirBlock 0 0) := rfl

theorem entryInum_childBlock_self (dirBlock : Store) (inum pinum : Word) :
    entryInum (childBlock dirBlock inum pinum) 0 = inum := by
  unfold childBlock
  rw [entryInum_setEntry_other _ dotDot_fits _ Nat.zero_ne_one, entryInum_setEntry_same]

theorem entryInum_childBlock_parent (dirBlock : Store) (inum pinum : Word) :
    entryInum (childBlock dirBlock inum pinum) 1 = pinum :=
  entryInum_setEntry_same _ _ _ _

theorem entryInum_childBlock_other (dirBlock : Store) (inum pinum : Word) {i : ℕ} (hi : 2 ≤ i) :
    entryInum (childBlock dirBlock inum pinum) i = entryInum dirBlock i := by
  unfold childBlock
  rw [entryInum_setEntry_other _ dotDot_fits _ (by omega),
    entryInum_setEntry_other _ dot_fits _ (by omega)]

theorem entryNamed_childBlock_self (dirBlock : Store) (inum pinum : Word) {name : CString}
    (hname : name.Fits) :
    entryNamed (childBlock dirBlock inum pinum) name 0 = true ↔ name = dot := by
  unfold childBlock
  rw [entryNamed_setEntry_other _ dotDot_fits hname _ Nat.zero_ne_one,
    entryNamed_setEntry_same _ _ hname]

theorem entryNamed_childBlock_parent (dirBlock : Store) (inum pinum : Word) {name : CString}
    (hname : name.Fits) :
    entryNamed (childBlock dirBlock inum pinum) name 1 = true ↔ name = dotDot := by
  unfold childBlock
  rw [entryNamed_setEntry_same _ _ hname]

theorem entryNamed_childBlock_other (dirBlock : Store) (inum pinum : Word) {name : CString}
    (hname : name.Fits) {i : ℕ} (hi : 2 ≤ i) :
    entryNamed (childBlock dirBlock inum pinum) name i = entryNamed dirBlock name i := by
  unfold childBlock
  rw [entryNamed_setEntry_other _ dotDot_fits hname _ (by omega),
    entryNamed_setEntry_other _ dot_fits hname _ (by omega)]

theorem entryInum_rootBlock_free (dirBlock : Store) {i : ℕ} (hlow : 2 ≤ i) (hi : i < dirEntries) :
    entryInum (rootBlock dirBlock) i = -1 := by
  rw [rootBlock_eq, entryInum_free, if_pos]
  rw [List.mem_range'_1]
  exact ⟨hlow, hi⟩

theorem entryInum_rootBlock_dots (dirBlock : Store) {i : ℕ} (hi : i < 2) :
    entryInum (rootBlock dirBlock) i = 0 := by
  have hmem : i ∉ List.range' 2 126 := by
    rw [List.mem_range'_1]
    omega
  rw [rootBlock_eq, entryInum_free, if_neg hmem]
  match i, hi with
  | 0, _ => exact entryInum_childBlock_self _ _ _
  | 1, _ => exact entryInum_childBlock_parent _ _ _

theorem entryNamed_rootBlock (dirBlock : Store) {name : CString} (hname : name.Fits) (i : ℕ) :
    entryNamed (rootBlock dirBlock) name i = entryNamed (childBlock dirBlock 0 0) name i := by
  rw [rootBlock_eq, entryNamed_free _ _ hname]

end OS537.LFS
