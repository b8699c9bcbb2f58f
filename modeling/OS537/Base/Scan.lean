import Mathlib.Data.Nat.Basic
import Mathlib.Tactic.Ring

/-!
# First-match scans

The loops of the repository that look through a table from its start and stop at the first hit
(directory slots, the inode map, the block bitmap, the process table) are one function, with
one characterisation of a hit and one of a miss.
-/

namespace OS537.Scan

/-- The least index among `start, start + 1, ..., start + fuel - 1` that satisfies `hit`. -/
def firstFrom (hit : ℕ → Bool) : (fuel start : ℕ) → Option ℕ
  | 0, _ => none
  | fuel + 1, start => if hit start then some start else firstFrom hit fuel (start + 1)

/-- The least index below `bound` that satisfies `hit`. -/
def first (hit : ℕ → Bool) (bound : ℕ) : Option ℕ := firstFrom hit bound 0

theorem firstFrom_eq_some_iff {hit : ℕ → Bool} {fuel start index : ℕ} :
    firstFrom hit fuel start = some index ↔
      start ≤ index ∧ index < start + fuel ∧ hit index = true ∧
        ∀ j, start ≤ j → j < index → hit j = false := by
  induction fuel generalizing start with
  | zero =>
    simp only [firstFrom, reduceCtorEq, false_iff]
    omega
  | succ fuel ih =>
    rw [firstFrom]
    cases hhit : hit start with
    | true =>
      simp only [if_true, Option.some.injEq]
      constructor
      · rintro rfl
        exact ⟨le_rfl, by omega, hhit, fun j hj hlt ↦ by omega⟩
      · rintro ⟨hle, -, -, hbefore⟩
        by_contra hne
        have hfalse := hbefore start le_rfl (by omega)
        simp [hhit] at hfalse
    | false =>
      simp only [Bool.false_eq_true, if_false, ih]
      constructor
      · rintro ⟨hle, hlt, htrue, hbefore⟩
        refine ⟨by omega, by omega, htrue, fun j hj hjlt ↦ ?_⟩
        rcases Nat.eq_or_lt_of_le hj with rfl | hj
        · exact hhit
        · exact hbefore j hj hjlt
      · rintro ⟨hle, hlt, htrue, hbefore⟩
        have hne : start ≠ index := by
          rintro rfl
          simp [hhit] at htrue
        exact ⟨by omega, by omega, htrue, fun j hj hjlt ↦ hbefore j (by omega) hjlt⟩

theorem firstFrom_eq_none_iff {hit : ℕ → Bool} {fuel start : ℕ} :
    firstFrom hit fuel start = none ↔ ∀ j, start ≤ j → j < start + fuel → hit j = false := by
  induction fuel generalizing start with
  | zero =>
    simp only [firstFrom, true_iff]
    omega
  | succ fuel ih =>
    rw [firstFrom]
    cases hhit : hit start with
    | true =>
      simp only [if_true, reduceCtorEq, false_iff, not_forall]
      exact ⟨start, le_rfl, by omega, by simp [hhit]⟩
    | false =>
      simp only [Bool.false_eq_true, if_false, ih]
      constructor
      · intro h j hj hlt
        rcases Nat.eq_or_lt_of_le hj with rfl | hj
        · exact hhit
        · exact h j hj (by omega)
      · intro h j hj hlt
        exact h j (by omega) (by omega)

/-- A scan in two parts goes on where the first part ended. -/
theorem firstFrom_add (hit : ℕ → Bool) (fuel more start : ℕ) :
    firstFrom hit (fuel + more) start =
      (firstFrom hit fuel start).or (firstFrom hit more (start + fuel)) := by
  induction fuel generalizing start with
  | zero => simp [firstFrom]
  | succ fuel ih =>
    rw [Nat.succ_add_eq_add_succ, Nat.add_succ, firstFrom, firstFrom]
    cases hit start with
    | true => simp
    | false => simp [ih, Nat.add_assoc, Nat.add_comm 1 fuel]

theorem first_eq_some_iff {hit : ℕ → Bool} {bound index : ℕ} :
    first hit bound = some index ↔
      index < bound ∧ hit index = true ∧ ∀ j < index, hit j = false := by
  simp [first, firstFrom_eq_some_iff]

theorem first_eq_none_iff {hit : ℕ → Bool} {bound : ℕ} :
    first hit bound = none ↔ ∀ j < bound, hit j = false := by
  simp [first, firstFrom_eq_none_iff]

theorem exists_first_of_hit {hit : ℕ → Bool} {bound index : ℕ} (hlt : index < bound)
    (hhit : hit index = true) : ∃ found, first hit bound = some found ∧ found ≤ index := by
  cases hfirst : first hit bound with
  | none =>
    rw [first_eq_none_iff.mp hfirst index hlt] at hhit
    contradiction
  | some found =>
    refine ⟨found, rfl, ?_⟩
    by_contra hle
    rw [(first_eq_some_iff.mp hfirst).2.2 index (by omega)] at hhit
    contradiction

theorem first_congr {hit other : ℕ → Bool} {bound : ℕ} (h : ∀ j < bound, hit j = other j) :
    first hit bound = first other bound := by
  cases hfirst : first other bound with
  | none =>
    rw [first_eq_none_iff] at hfirst ⊢
    intro j hj
    rw [h j hj, hfirst j hj]
  | some found =>
    rw [first_eq_some_iff] at hfirst ⊢
    obtain ⟨hlt, hhit, hbefore⟩ := hfirst
    refine ⟨hlt, by rw [h found hlt, hhit], ?_⟩
    intro j hj
    rw [h j (hj.trans hlt), hbefore j hj]

end OS537.Scan
