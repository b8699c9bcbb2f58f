import OS537.Threads.Table

/-!
# The loops over pages

`allocuvm` maps the pages between two sizes and `deallocuvm` unmaps them. If no page above the size
is present, none is mapped twice, and no page above the size that is returned is present afterwards.
-/

namespace OS537.Threads

open Bytes

variable {present : ℕ → Bool} {oldsz newsz : Word}

/-- The loop maps pages in its range only, and none of them twice. -/
theorem mapLoop_spec (round : ℕ → Round) (count : ℕ) {first : ℕ}
    (habsent : ∀ page, first ≤ page → present page = false) :
    ∃ done after, mapLoop round count first present = some (done, after) ∧
      ∀ page, after page = true → present page = true ∨ page < first + count := by
  induction count generalizing first present with
  | zero => exact ⟨true, present, rfl, fun page hpage ↦ Or.inl hpage⟩
  | succ count ih =>
    have hnext : ∀ page, first + 1 ≤ page → present page = false :=
      fun page hpage ↦ habsent page (by omega)
    unfold mapLoop
    cases round first with
    | noPage => exact ⟨false, present, rfl, fun page hpage ↦ Or.inl hpage⟩
    | noTable =>
      obtain ⟨done, after, hloop, hafter⟩ := ih hnext
      exact ⟨done, after, hloop, fun page hpage ↦ (hafter page hpage).imp_right (by omega)⟩
    | mapped =>
      have hupdated :
          ∀ page, first + 1 ≤ page → Function.update present first true page = false := by
        intro page hpage
        rw [Function.update_of_ne (by omega)]
        exact hnext page hpage
      obtain ⟨done, after, hloop, hafter⟩ := ih hupdated
      refine ⟨done, after, ?_, fun page hpage ↦ ?_⟩
      · rw [habsent first le_rfl]
        exact hloop
      · rcases hafter page hpage with hold | hlt
        · by_cases hfirst : page = first
          · right
            omega
          · rw [Function.update_of_ne hfirst] at hold
            exact Or.inl hold
        · right
          omega

/-- All pages of the size or below it. -/
def Below (present : ℕ → Bool) (size : Word) : Prop :=
  ∀ page, present page = true → page < pageCount size.toNat

theorem pageCount_mono {first second : ℕ} (h : first ≤ second) :
    pageCount first ≤ pageCount second := by
  unfold pageCount
  omega

/-- `deallocuvm` returns the size that bounds the pages, and the new pages are among the old. -/
theorem deallocuvm_below (newsz : Word) (h : Below present oldsz) :
    Below (deallocuvm present oldsz newsz).2 (deallocuvm present oldsz newsz).1 ∧
      Below (deallocuvm present oldsz newsz).2 oldsz := by
  unfold deallocuvm
  split
  · exact ⟨h, h⟩
  · have hkept (page : ℕ) (hpage : unmap present oldsz.toNat newsz.toNat page = true) :
        page < pageCount newsz.toNat ∧ page < pageCount oldsz.toNat := by
      simp only [unmap, Bool.and_eq_true, Bool.not_eq_true', Bool.and_eq_false_iff,
        decide_eq_false_iff_not, not_le, not_lt] at hpage
      have hold := h page hpage.1
      omega
    exact ⟨fun page hpage ↦ (hkept page hpage).1, fun page hpage ↦ (hkept page hpage).2⟩

/-- `allocuvm` maps no page twice. It returns the size that bounds the pages, or 0 with pages
below the old size. -/
theorem allocuvm_below (round : ℕ → Round) (newsz : Word) (h : Below present oldsz) :
    ∃ size after, allocuvm round present oldsz newsz = some (size, after) ∧
      (size ≠ 0 → Below after size) ∧ (size = 0 → Below after oldsz) := by
  unfold allocuvm
  split
  · exact ⟨0, present, rfl, fun hne ↦ absurd rfl hne, fun _ ↦ h⟩
  · split
    · exact ⟨oldsz, present, rfl, fun _ ↦ h, fun _ ↦ h⟩
    next hle =>
      have hcount := pageCount_mono (not_lt.mp hle)
      have habsent : ∀ page, pageCount oldsz.toNat ≤ page → present page = false := by
        intro page hpage
        by_contra hpresent
        have hlt := h page (Bool.eq_true_of_not_eq_false hpresent)
        omega
      obtain ⟨done, after, hloop, hafter⟩ := mapLoop_spec round
        (pageCount newsz.toNat - pageCount oldsz.toNat) habsent
      have hgrown : Below after newsz := by
        intro page hpage
        rcases hafter page hpage with hold | hlt
        · exact (h page hold).trans_le hcount
        · omega
      dsimp only
      rw [hloop]
      cases done with
      | true =>
        refine ⟨newsz, after, rfl, fun _ ↦ hgrown, fun hzero ↦ ?_⟩
        intro page hpage
        have hlt := hgrown page hpage
        rw [hzero] at hlt
        simp [pageCount] at hlt
      | false =>
        have hback : Below (deallocuvm after newsz oldsz).2 oldsz := by
          by_cases heq : newsz.toNat = oldsz.toNat
          · have hsame : newsz = oldsz := BitVec.eq_of_toNat_eq heq
            rw [hsame] at hgrown ⊢
            exact (deallocuvm_below _ hgrown).2
          · have hback := (deallocuvm_below oldsz hgrown).1
            have hsize : (deallocuvm after newsz oldsz).1 = oldsz := by
              unfold deallocuvm
              rw [if_neg (by omega)]
            rwa [hsize] at hback
        exact ⟨0, _, rfl, fun hne ↦ absurd rfl hne, fun _ ↦ hback⟩

end OS537.Threads
