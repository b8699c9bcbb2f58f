import OS537.Threads.Ownership

/-!
# Making an entry

The parts of `fork` and `clone` change the entry `np` and the place in the call. `np` becomes a
member of the family with its parent and its directory, in the group of the caller for `clone` and
in a new group for `fork`.
-/

namespace OS537.Threads

open Bytes Families

variable {system next : System} {slot np p : ℕ} {activity : Activity} {entry : Proc}

/-- What all these parts have in common. -/
theorem Owned.edit (h : Owned system) (hedit : Edit next system slot np activity entry)
    (hactive : (system.proc slot).state.active = true)
    (hinactive : (system.proc np).state.active = false) (htable : np < nproc)
    (hothers : ∀ x, x ≠ slot → (system.proc x).activity.target ≠ some np)
    (htarget : ∀ other, activity.target = some other → other = np ∧ entry.state = .embryo)
    (hparent : ∀ q, entry.parent = some q → (system.proc q).state.active = true)
    (hfamily : Family next.initproc next.Member (fun s ↦ (next.proc s).parent)
      (fun s ↦ (next.proc s).pgdir))
    (hallocated : ∀ s, next.Member s → (next.proc s).pgdir ∈ next.allocated)
    (hleftover : ∀ x other, (next.proc x).activity.raw = some other →
      (next.proc other).pgdir = (next.proc x).pgdir ∨
        ∀ s, next.Member s → (next.proc s).pgdir ≠ (next.proc other).pgdir) : Owned next := by
  have hkept {q : ℕ} (hq : (system.proc q).state.active = true) :
      (next.proc q).state.active = true := by
    rw [(hedit.proc_of_ne (System.ne_of_active hq hinactive).symm).2.2]
    exact hq
  refine ⟨h.toControl.edit hedit hactive hinactive htable hothers htarget, hfamily, ?_, ?_,
    hallocated, hleftover⟩
  · rw [hedit.initproc]
    exact hkept h.init_active
  · intro s q hq
    by_cases hs : s = np
    · rw [hs, hedit.np_proc] at hq
      exact hkept (hparent q hq)
    · rw [(hedit.proc_of_ne hs).2.1] at hq
      exact hkept (h.parent_active s q hq)

/-- An edit after which the members are the same keeps the invariant. -/
theorem Owned.edit_members (h : Owned system)
    (hedit : Edit next system slot np activity entry)
    (hactive : (system.proc slot).state.active = true)
    (hothers : ∀ x, x ≠ slot → (system.proc x).activity.target ≠ some np)
    (hold : ∀ other, (system.proc slot).activity.raw = some other → other = np)
    (htarget : ∀ other, activity.target = some other → other = np ∧ entry.state = .embryo)
    (hinactive : (system.proc np).state.active = false) (htable : np < nproc)
    (hnp : next.Member np ↔ system.Member np)
    (hpgdir : system.Member np → entry.pgdir = (system.proc np).pgdir)
    (hparent : entry.parent = (system.proc np).parent)
    (hallocated : next.allocated = system.allocated)
    (hleftover : activity.raw = some np → entry.pgdir = (system.proc slot).pgdir ∨
      ∀ s, system.Member s → (system.proc s).pgdir ≠ entry.pgdir) : Owned next := by
  have hnew (other : ℕ) (hraw : activity.raw = some other) : other = np :=
    (htarget other (Activity.target_of_raw hraw)).1
  have hmember (s : ℕ) : next.Member s ↔ system.Member s := by
    by_cases hs : s = np
    · rw [hs]
      exact hnp
    · exact hedit.member_iff hs hnew hold
  have hdir {s : ℕ} (hmem : system.Member s) : (next.proc s).pgdir = (system.proc s).pgdir := by
    by_cases hs : s = np
    · rw [hs] at hmem ⊢
      rw [hedit.np_proc, hpgdir hmem]
    · exact (hedit.proc_of_ne hs).1
  apply h.edit hedit hactive hinactive htable hothers htarget
  · intro q hq
    rw [hparent] at hq
    exact h.parent_active np q hq
  · have hparents : (fun s ↦ (next.proc s).parent) = fun s ↦ (system.proc s).parent := by
      funext s
      by_cases hs : s = np
      · rw [hs, hedit.np_proc, hparent]
      · exact (hedit.proc_of_ne hs).2.1
    have hmembers : next.Member = system.Member := funext fun s ↦ propext (hmember s)
    rw [hparents, hmembers, hedit.initproc]
    exact h.family.congr_group fun s hs ↦ hdir hs
  · intro s hs
    rw [hmember] at hs
    rw [hdir hs, hallocated]
    exact h.member_allocated s hs
  · intro x other hx
    rcases hedit.raw_iff.mp hx with ⟨rfl, hraw⟩ | ⟨hslot, hraw⟩
    · obtain rfl : other = np := hnew other hraw
      rw [hedit.np_proc, (hedit.proc_of_ne hedit.ne.symm).1]
      refine (hleftover hraw).imp_right fun hall s hs ↦ ?_
      rw [hdir ((hmember s).mp hs)]
      exact hall s ((hmember s).mp hs)
    · have htargetOther := Activity.target_of_raw hraw
      have hother : other ≠ np := by
        rintro rfl
        exact hothers x hslot htargetOther
      have hx : x ≠ np := by
        rintro rfl
        rw [h.target_active x other htargetOther] at hinactive
        cases hinactive
      rw [(hedit.proc_of_ne hother).1, (hedit.proc_of_ne hx).1]
      refine (h.leftover x other hraw).imp_right fun hall s hs ↦ ?_
      rw [hdir ((hmember s).mp hs)]
      exact hall s ((hmember s).mp hs)

/-- `allocproc` takes an entry whose directory is the caller's or nobody's. -/
theorem Owned.begin (h : Owned system) (hcalls : system.Calls slot) {make : ℕ → Activity}
    (hraw : ∀ np, (make np).raw = some np)
    (hleftover : ∀ np, system.unusedSlot = some np →
      (system.proc np).pgdir = (system.proc slot).pgdir ∨ ∀ s < nproc,
        (system.proc s).state ≠ .unused → (system.proc s).pgdir ≠ (system.proc np).pgdir) :
    Owned (system.begin slot make) := by
  unfold System.begin
  split
  · exact h
  next np hfound =>
    obtain ⟨htable, hunused⟩ := unusedSlot_spec hfound
    have hactive := active_of_running hcalls.1
    have hinactive : (system.proc np).state.active = false := by
      rw [hunused]
      rfl
    have hne := System.ne_of_active hactive hinactive
    have hedit : Edit ((system.allocproc np).setActivity slot (make np)) system slot np (make np)
        { system.proc np with state := .embryo, pid := system.nextpid } :=
      (edit_set { system.proc np with state := .embryo, pid := system.nextpid } hne rfl).of_proc
        rfl rfl
    have hnotMember : ¬ system.Member np := fun hmember ↦ hmember.1 hunused
    have hnoRaw (other : ℕ) (hold : (system.proc slot).activity.raw = some other) : other = np := by
      rw [hcalls.2] at hold
      cases hold
    have hmade := hraw np
    apply h.edit_members hedit hactive _ hnoRaw _ hinactive htable
    · refine iff_of_false (fun hmember ↦ hmember.2 ?_) hnotMember
      exact (hedit.member_raw_iff np).mpr (Or.inl hmade)
    · intro hmember
      exact absurd hmember hnotMember
    · rfl
    · rfl
    · intro _
      exact (hleftover np hfound).imp_right fun hall s hs ↦ hall s (h.in_table s hs.1) hs.1
    · intro x _ htarget
      rw [h.target_embryo x np htarget] at hunused
      cases hunused
    · intro other htarget
      rw [Activity.target_of_raw hmade] at htarget
      cases htarget
      exact ⟨rfl, rfl⟩

/-- The entry that a call makes, as long as it is not set up. -/
theorem Owned.raw_spec (h : Owned system) (hraw : (system.proc slot).activity.raw = some np) :
    np ≠ slot ∧ (system.proc np).state.active = false ∧ np < nproc ∧ ¬ system.Member np ∧
      ∀ x, x ≠ slot → (system.proc x).activity.target ≠ some np := by
  obtain ⟨hne, hinactive, htable, hothers⟩ := h.target_spec (Activity.target_of_raw hraw)
  exact ⟨hne, hinactive, htable, fun hmember ↦ hmember.2 ⟨slot, hraw⟩, hothers⟩

theorem Owned.giveUp (h : Owned system) (hraw : (system.proc slot).activity.raw = some np)
    (dir : Ptr) : Owned (system.giveUp slot np dir) := by
  obtain ⟨hne, hinactive, htable, hnotMember, hothers⟩ := h.raw_spec hraw
  have htarget := Activity.target_of_raw hraw
  have hedit : Edit (system.giveUp slot np dir) system slot np .idle
      { system.proc np with pgdir := dir, state := .unused } := edit_set _ hne rfl
  apply h.edit_members hedit (h.target_active slot np htarget) hothers _ _ hinactive
    htable
  · refine iff_of_false (fun hmember ↦ hmember.1 ?_) hnotMember
    rw [hedit.np_proc]
  · intro hmember
    exact absurd hmember hnotMember
  · rfl
  · rfl
  · intro hidle
    cases hidle
  · intro other hother
    rw [hraw] at hother
    exact (Option.some.inj hother).symm
  · intro other hidle
    cases hidle

theorem Owned.finish (h : Owned system) (hactivity : (system.proc slot).activity = .finishing np) :
    Owned (system.finish slot np) := by
  have htarget : (system.proc slot).activity.target = some np := by
    rw [hactivity]
    rfl
  have hembryo := h.target_embryo slot np htarget
  have hactive := h.target_active slot np htarget
  have hinactive : (system.proc np).state.active = false := by
    rw [hembryo]
    rfl
  have hne := System.ne_of_active hactive hinactive
  have hnoRaw {other : ℕ} (hraw : (system.proc slot).activity.raw = some other) : False := by
    rw [hactivity] at hraw
    cases hraw
  have hedit : Edit (system.finish slot np) system slot np .idle
      { system.proc np with state := .runnable } := edit_set _ hne rfl
  have hothers (x : ℕ) (hx : x ≠ slot) : (system.proc x).activity.target ≠ some np :=
    fun hother ↦ hx (h.target_unique x slot np hother htarget)
  have htable : np < nproc := h.in_table np (by rw [hembryo]; decide)
  apply h.edit_members hedit hactive hothers _ _ hinactive htable
  · have hraw : (system.finish slot np).Raw np ↔ system.Raw np := by
      rw [hedit.member_raw_iff]
      constructor
      · rintro (hidle | ⟨x, -, hraw⟩)
        · cases hidle
        · exact ⟨x, hraw⟩
      · rintro ⟨x, hraw⟩
        refine Or.inr ⟨x, ?_, hraw⟩
        rintro rfl
        exact hnoRaw hraw
    unfold System.Member
    rw [hraw, hedit.np_proc, hembryo]
    simp
  · intro _
    rfl
  · rfl
  · rfl
  · intro hidle
    cases hidle
  · intro other hraw
    exact (hnoRaw hraw).elim
  · intro other hidle
    cases hidle

/-- `np` becomes a member that hangs on the caller, in its group or in a new one. -/
theorem Owned.adopt (h : Owned system) {dir : Ptr}
    (hraw : (system.proc slot).activity.raw = some np)
    (hedit : Edit next system slot np (.finishing np) { system.proc np with
      pgdir := dir, sz := (system.proc slot).sz, parent := some slot })
    (hplace : dir = (system.proc slot).pgdir ∨
      ∀ s, system.Member s → (system.proc s).pgdir ≠ dir)
    (hallocated : ∀ made ∈ system.allocated, made ∈ next.allocated) (hdir : dir ∈ next.allocated)
    (hleftover : ∀ x other, x ≠ slot → (system.proc x).activity.raw = some other →
      (system.proc other).pgdir = (system.proc x).pgdir ∨ dir ≠ (system.proc other).pgdir) :
    Owned next := by
  obtain ⟨hne, hinactive, htable, hnotMember, hothers⟩ := h.raw_spec hraw
  have htarget := Activity.target_of_raw hraw
  have hactive := h.target_active slot np htarget
  have hslot := h.member_of_active hactive
  have hmember (s : ℕ) : next.Member s ↔ system.Member s ∨ s = np := by
    by_cases hs : s = np
    · refine iff_of_true ⟨?_, ?_⟩ (Or.inr hs)
      · rw [hs, hedit.np_proc]
        dsimp only
        rw [h.target_embryo slot np htarget]
        decide
      · rw [hedit.member_raw_iff, hs]
        rintro (hfinishing | ⟨x, hx, hother⟩)
        · cases hfinishing
        · exact hothers x hx (Activity.target_of_raw hother)
    · rw [hedit.member_iff hs (fun _ hfinishing ↦ nomatch hfinishing) fun other hother ↦
        (Option.some.inj (hraw.symm.trans hother)).symm]
      simp [hs]
  have hmemberNe {s : ℕ} (hs : system.Member s) : s ≠ np := by
    rintro rfl
    exact hnotMember hs
  have hnpDir : (next.proc np).pgdir = dir := by
    rw [hedit.np_proc]
  apply h.edit hedit hactive hinactive htable hothers
  · intro other hfinishing
    cases hfinishing
    exact ⟨rfl, h.target_embryo slot np htarget⟩
  · intro q hq
    cases hq
    exact hactive
  · rw [hedit.initproc]
    apply h.family.enter hnotMember hslot hmember
    · intro s hs
      exact (hedit.proc_of_ne hs).2.1
    · rw [hedit.np_proc]
    · intro s hs
      exact (hedit.proc_of_ne hs).1
    · rw [hnpDir]
      exact hplace
  · intro s hs
    rcases (hmember s).mp hs with hs | rfl
    · rw [(hedit.proc_of_ne (hmemberNe hs)).1]
      exact hallocated _ (h.member_allocated s hs)
    · rw [hnpDir]
      exact hdir
  · intro x other hx
    rcases hedit.raw_iff.mp hx with ⟨-, hfinishing⟩ | ⟨hslotNe, hother⟩
    · cases hfinishing
    · have htargetOther := Activity.target_of_raw hother
      have hotherNe : other ≠ np := by
        rintro rfl
        exact hothers x hslotNe htargetOther
      have hxNe : x ≠ np := hmemberNe (h.member_of_active (h.target_active x other htargetOther))
      rw [(hedit.proc_of_ne hotherNe).1, (hedit.proc_of_ne hxNe).1]
      rcases hleftover x other hslotNe hother with hmaker | hfresh
      · exact Or.inl hmaker
      · refine (h.leftover x other hother).imp_right fun hall s hs ↦ ?_
        rcases (hmember s).mp hs with hs | rfl
        · rw [(hedit.proc_of_ne (hmemberNe hs)).1]
          exact hall s hs
        · rw [hnpDir]
          exact hfresh

theorem Owned.share (h : Owned system) (hactivity : (system.proc slot).activity = .cloning np) :
    Owned (system.adopt slot np (system.proc slot).pgdir) := by
  have hraw : (system.proc slot).activity.raw = some np := by
    rw [hactivity]
    rfl
  have hslot := h.member_of_active (h.target_active slot np (Activity.target_of_raw hraw))
  apply h.adopt hraw (edit_adopt (h.raw_spec hraw).1 _) (Or.inl rfl)
  · intro made hmade
    exact hmade
  · exact h.member_allocated slot hslot
  · intro x other _ hother
    exact (h.leftover x other hother).imp_right fun hall ↦ hall slot hslot

theorem Owned.copyuvm (h : Owned system) (hactivity : (system.proc slot).activity = .forking np)
    {dir : Ptr} (hfresh : Fresh system (.copyuvm slot dir))
    (htame : Tame system (.copyuvm slot dir)) (hrun : system.copyuvm slot np dir = some next) :
    Owned next := by
  have hraw : (system.proc slot).activity.raw = some np := by
    rw [hactivity]
    rfl
  rcases copyuvm_cases hrun with rfl | rfl
  · exact h.giveUp hraw 0
  · refine h.adopt hraw ((edit_adopt (h.raw_spec hraw).1 dir).of_proc rfl rfl) ?_ ?_ ?_ ?_
    · right
      rintro s hs rfl
      exact hfresh (h.member_allocated s hs)
    · intro made hmade
      exact List.mem_cons_of_mem _ hmade
    · exact List.mem_cons_self
    · intro x other hx hother
      have htarget := Activity.target_of_raw hother
      right
      have hembryo := h.target_embryo x other htarget
      have hused : (system.proc other).state ≠ .unused := by
        rw [hembryo]
        decide
      refine (htame other (h.in_table other hused) hembryo ?_).symm
      rw [hactivity]
      rintro heq
      cases heq
      exact (h.raw_spec hraw).2.2.2.2 x hx htarget

end OS537.Threads
