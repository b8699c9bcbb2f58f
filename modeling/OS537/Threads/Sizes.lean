import OS537.Base.Run
import OS537.Threads.Pages
import OS537.Threads.Steps

/-!
# The sizes of threads

`clone` copies `sz` into the entry of the thread, and `growproc` changes the copy of the caller
only. The sizes of one address space stay equal as long as `growproc` is called where nobody shares
it; no page above the size is then present, and `mappages` finds none that it would map again.
-/

namespace OS537.Threads

open Bytes Run

/-- Entries that run, or may run, in one directory have one size. -/
def SameSizes (system : System) : Prop :=
  ∀ s t, (system.proc s).state.active = true → (system.proc t).state.active = true →
    (system.proc s).pgdir = (system.proc t).pgdir → (system.proc s).sz = (system.proc t).sz

/-- `growproc` does not run into the panic of `mappages`. -/
def NoRemap (system : System) : Call → Prop
  | .growproc slot n round => system.Calls slot → (system.growproc slot n round).isSome = true
  | _ => True

/-- The entry has its directory and its size: it is active, or a call is about to make it so. -/
def System.SetUp (system : System) (slot : ℕ) : Prop :=
  (system.proc slot).state.active = true ∨
    ∃ x < nproc, (system.proc x).activity = .finishing slot

instance (system : System) (slot : ℕ) : Decidable (system.SetUp slot) :=
  inferInstanceAs (Decidable (_ ∨ _))

/-- `growproc` is called with 0, or by the only entry with its directory; `copyuvm` returns a
directory that no entry in use has. -/
def Solitary (system : System) : Call → Prop
  | .growproc slot n _ => n = 0 ∨ ∀ s < nproc, s ≠ slot → system.SetUp s →
      (system.proc s).pgdir ≠ (system.proc slot).pgdir
  | .copyuvm _ dir => ∀ s < nproc, system.SetUp s → (system.proc s).pgdir ≠ dir
  | _ => True

instance (system : System) (call : Call) : Decidable (Solitary system call) :=
  match call with
  | .growproc slot n _ => inferInstanceAs (Decidable (n = 0 ∨ ∀ s < nproc, s ≠ slot →
      system.SetUp s → (system.proc s).pgdir ≠ (system.proc slot).pgdir))
  | .copyuvm _ dir => inferInstanceAs (Decidable (∀ s < nproc, system.SetUp s →
      (system.proc s).pgdir ≠ dir))
  | .fork _ | .clone _ | .noStack _ | .share _ | .finish _ | .exit _ | .wait _ | .schedule _
  | .yield _ | .sleep _ _ | .wakeup _ | .kill _ => inferInstanceAs (Decidable True)

/-! ## The invariant -/

/-- Sizes agree where directories do, and bound the pages of the directory. -/
structure Sized (system : System) : Prop extends Control system where
  same : ∀ s t, system.SetUp s → system.SetUp t → (system.proc s).pgdir = (system.proc t).pgdir →
    (system.proc s).sz = (system.proc t).sz
  below : ∀ s, system.SetUp s → Below (system.pages (system.proc s).pgdir) (system.proc s).sz

variable {system next : System} {slot np : ℕ}

theorem Sized.sameSizes (h : Sized system) : SameSizes system :=
  fun s t hs ht ↦ h.same s t (Or.inl hs) (Or.inl ht)

theorem Control.setUp_iff (h : Control system) (s : ℕ) : system.SetUp s ↔
    (system.proc s).state.active = true ∨ ∃ x, (system.proc x).activity = .finishing s := by
  refine or_congr_right ⟨fun ⟨x, _, hx⟩ ↦ ⟨x, hx⟩, fun ⟨x, hx⟩ ↦ ⟨x, ?_, hx⟩⟩
  apply h.in_table
  intro hunused
  have hactive := h.target_active x s (by rw [hx]; rfl)
  rw [hunused] at hactive
  cases hactive

theorem Control.setUp_lt (h : Control system) {s : ℕ} (hs : system.SetUp s) : s < nproc := by
  apply h.in_table
  intro hunused
  rcases hs with hactive | ⟨x, -, hx⟩
  · rw [hunused] at hactive
    cases hactive
  · rw [h.target_embryo x s (by rw [hx]; rfl)] at hunused
    cases hunused

/-- A step after which no other entry is set up, and no other page is present. -/
theorem Sized.of_frame (h : Sized system) (hcontrol : Control next)
    (hframe : ∀ s, next.SetUp s → system.SetUp s ∧
      (next.proc s).pgdir = (system.proc s).pgdir ∧ (next.proc s).sz = (system.proc s).sz)
    (hpages : ∀ dir page, next.pages dir page = true → system.pages dir page = true) :
    Sized next where
  toControl := hcontrol
  same s t hs ht heq := by
    obtain ⟨hs, hpgdir, hsz⟩ := hframe s hs
    obtain ⟨ht, hpgdir', hsz'⟩ := hframe t ht
    rw [hpgdir, hpgdir'] at heq
    rw [hsz, hsz', h.same s t hs ht heq]
  below s hs page hpage := by
    obtain ⟨hs, hpgdir, hsz⟩ := hframe s hs
    rw [hpgdir] at hpage
    rw [hsz]
    exact h.below s hs page (hpages _ page hpage)

/-- The frame of a step that changes states between active states. -/
theorem Sized.alike (h : Sized system) (halike : Alike next system)
    (hsz : ∀ s, (next.proc s).sz = (system.proc s).sz) (hpages : next.pages = system.pages) :
    Sized next := by
  apply h.of_frame (h.toControl.alike halike)
  · intro s hs
    refine ⟨?_, halike.pgdir s, hsz s⟩
    unfold System.SetUp at hs
    simp only [halike.active, halike.activity] at hs
    exact hs
  · intro dir page hpage
    rw [hpages] at hpage
    exact hpage

/-! ## Making an entry -/

variable {activity : Activity} {entry : Proc}

theorem Edit.sz_of_ne (h : Edit next system slot np activity entry) {s : ℕ} (hs : s ≠ np) :
    (next.proc s).sz = (system.proc s).sz := by
  by_cases hslot : s = slot
  · rw [hslot, h.slot_proc]
  · rw [h.other_proc s hslot hs]

/-- An entry other than `np` that is set up was so before. -/
theorem Edit.setUp_of_ne (h : Edit next system slot np activity entry) {s : ℕ} (hs : s ≠ np)
    (hactivity : activity ≠ .finishing s) (hsetUp : next.SetUp s) : system.SetUp s := by
  rcases hsetUp with hactive | ⟨x, hlt, hx⟩
  · rw [(h.proc_of_ne hs).2.2] at hactive
    exact Or.inl hactive
  · by_cases hslot : x = slot
    · rw [hslot, h.activity_slot] at hx
      exact absurd hx hactivity
    · rw [h.activity_of_ne hslot] at hx
      exact Or.inr ⟨x, hlt, hx⟩

/-- `np` is not set up if it is not active and its maker is not about to finish it. -/
theorem Edit.not_setUp (h : Edit next system slot np activity entry)
    (hinactive : entry.state.active = false) (hactivity : activity ≠ .finishing np)
    (hothers : ∀ x, x ≠ slot → (system.proc x).activity.target ≠ some np) : ¬ next.SetUp np := by
  rintro (hactive | ⟨x, -, hx⟩)
  · rw [h.np_proc, hinactive] at hactive
    cases hactive
  · by_cases hslot : x = slot
    · rw [hslot, h.activity_slot] at hx
      exact hactivity hx
    · rw [h.activity_of_ne hslot] at hx
      exact hothers x hslot (by rw [hx]; rfl)

/-- A part after which `np` is not set up. -/
theorem Sized.edit_frame (h : Sized system) (hcontrol : Control next)
    (hedit : Edit next system slot np activity entry) (hnp : ¬ next.SetUp np)
    (hactivity : ∀ s, activity ≠ .finishing s) (hpages : next.pages = system.pages) :
    Sized next := by
  apply h.of_frame hcontrol
  · intro s hs
    have hne : s ≠ np := by
      rintro rfl
      exact hnp hs
    exact ⟨hedit.setUp_of_ne hne (hactivity s) hs, (hedit.proc_of_ne hne).1, hedit.sz_of_ne hne⟩
  · intro dir page hpage
    rw [hpages] at hpage
    exact hpage

theorem Sized.begin (h : Sized system) (hcalls : system.Calls slot) {make : ℕ → Activity}
    (hmake : ∀ np, (make np).raw = some np) : Sized (system.begin slot make) := by
  have hcontrol := h.toControl.begin hcalls fun np ↦ Activity.target_of_raw (hmake np)
  unfold System.begin at hcontrol ⊢
  split at hcontrol
  next hnone => exact h
  next np hfound =>
    obtain ⟨-, hunused⟩ := unusedSlot_spec hfound
    have hinactive : (system.proc np).state.active = false := by
      rw [hunused]
      rfl
    have hedit : Edit ((system.allocproc np).setActivity slot (make np)) system slot np (make np)
        { system.proc np with state := .embryo, pid := system.nextpid } :=
      (edit_set { system.proc np with state := .embryo, pid := system.nextpid }
        (System.ne_of_active (active_of_running hcalls.1) hinactive) rfl).of_proc rfl rfl
    have hfinishing (s : ℕ) : make np ≠ .finishing s := by
      intro heq
      have hraw := hmake np
      rw [heq] at hraw
      cases hraw
    apply h.edit_frame hcontrol hedit _ hfinishing rfl
    apply hedit.not_setUp rfl (hfinishing np)
    intro x _ htarget
    rw [h.target_embryo x np htarget] at hunused
    cases hunused

theorem Sized.giveUp (h : Sized system) (hraw : (system.proc slot).activity.raw = some np)
    (dir : Ptr) : Sized (system.giveUp slot np dir) := by
  obtain ⟨hne, -, -, hothers⟩ := h.target_spec (Activity.target_of_raw hraw)
  have hedit : Edit (system.giveUp slot np dir) system slot np .idle
      { system.proc np with pgdir := dir, state := .unused } := edit_set _ hne rfl
  apply h.edit_frame (h.toControl.giveUp hraw dir) hedit _ (fun s hidle ↦ nomatch hidle) rfl
  exact hedit.not_setUp rfl (fun hidle ↦ nomatch hidle) hothers

theorem Sized.finish (h : Sized system) (hactivity : (system.proc slot).activity = .finishing np)
    (hcontrol : Control (system.finish slot np)) : Sized (system.finish slot np) := by
  have htarget : (system.proc slot).activity.target = some np := by
    rw [hactivity]
    rfl
  have hedit : Edit (system.finish slot np) system slot np .idle
      { system.proc np with state := .runnable } := edit_set _ (h.target_spec htarget).1 rfl
  apply h.of_frame hcontrol
  · intro s hs
    by_cases hne : s = np
    · rw [hne, hedit.np_proc]
      exact ⟨(h.setUp_iff np).mpr (Or.inr ⟨slot, hactivity⟩), rfl, rfl⟩
    · exact ⟨hedit.setUp_of_ne hne (fun hidle ↦ nomatch hidle) hs, (hedit.proc_of_ne hne).1,
        hedit.sz_of_ne hne⟩
  · intro dir page hpage
    exact hpage

/-- `np` gets the size of its maker, with the directory of the maker or with a new one. -/
theorem Sized.adopt (h : Sized system) {dir : Ptr} (hcontrol : Control next)
    (hedit : Edit next system slot np (.finishing np) { system.proc np with
      pgdir := dir, sz := (system.proc slot).sz, parent := some slot })
    (hplace : ∀ s, system.SetUp s → (system.proc s).pgdir = dir →
      (system.proc s).sz = (system.proc slot).sz)
    (hothers : ∀ s, system.SetUp s → (system.proc s).pgdir ≠ dir →
      next.pages (system.proc s).pgdir = system.pages (system.proc s).pgdir)
    (hbelow : Below (next.pages dir) (system.proc slot).sz) : Sized next := by
  have hold {s : ℕ} (hne : s ≠ np) (hs : next.SetUp s) : system.SetUp s :=
    hedit.setUp_of_ne hne (fun heq ↦ hne (Activity.finishing.inj heq).symm) hs
  have hsize {s : ℕ} (hs : next.SetUp s) (hdir : (next.proc s).pgdir = dir) :
      (next.proc s).sz = (system.proc slot).sz := by
    by_cases hne : s = np
    · rw [hne, hedit.np_proc]
    · rw [(hedit.proc_of_ne hne).1] at hdir
      rw [hedit.sz_of_ne hne]
      exact hplace s (hold hne hs) hdir
  have hnpDir : (next.proc np).pgdir = dir := by
    rw [hedit.np_proc]
  refine ⟨hcontrol, fun s t hs ht heq ↦ ?_, fun s hs ↦ ?_⟩
  · by_cases hdir : (next.proc s).pgdir = dir
    · rw [hsize hs hdir, hsize ht (heq.symm.trans hdir)]
    · have hsNe : s ≠ np := by
        rintro rfl
        exact hdir hnpDir
      have htNe : t ≠ np := by
        rintro rfl
        exact hdir (heq.trans hnpDir)
      rw [(hedit.proc_of_ne hsNe).1, (hedit.proc_of_ne htNe).1] at heq
      rw [hedit.sz_of_ne hsNe, hedit.sz_of_ne htNe]
      exact h.same s t (hold hsNe hs) (hold htNe ht) heq
  · by_cases hdir : (next.proc s).pgdir = dir
    · rw [hsize hs hdir, hdir]
      exact hbelow
    · have hne : s ≠ np := by
        rintro rfl
        exact hdir hnpDir
      rw [(hedit.proc_of_ne hne).1] at hdir ⊢
      rw [hedit.sz_of_ne hne, hothers s (hold hne hs) hdir]
      exact h.below s (hold hne hs)

/-! ## Growing -/

/-- The caller gets the size that bounds its pages; nobody else has its directory. -/
theorem Sized.grown (h : Sized system) {size : Word} {after : ℕ → Bool}
    (halone : ∀ s, s ≠ slot → system.SetUp s →
      (system.proc s).pgdir ≠ (system.proc slot).pgdir)
    (halike : Alike next system)
    (hsize : (next.proc slot).sz = size)
    (hothers : ∀ s, s ≠ slot → (next.proc s).sz = (system.proc s).sz)
    (hpages : next.pages = Function.update system.pages (system.proc slot).pgdir after)
    (hbelow : Below after size) : Sized next := by
  have hsetUp (s : ℕ) : next.SetUp s ↔ system.SetUp s := by
    unfold System.SetUp
    simp only [halike.active, halike.activity]
  have hne {s : ℕ} (hs : next.SetUp s) (hother : s ≠ slot) :
      (system.proc s).pgdir ≠ (system.proc slot).pgdir :=
    halone s hother ((hsetUp s).mp hs)
  refine ⟨h.toControl.alike halike, fun s t hs ht heq ↦ ?_, fun s hs ↦ ?_⟩
  · rw [halike.pgdir, halike.pgdir] at heq
    by_cases hsSlot : s = slot
    · by_cases htSlot : t = slot
      · rw [hsSlot, htSlot]
      · rw [hsSlot] at heq
        exact absurd heq.symm (hne ht htSlot)
    · by_cases htSlot : t = slot
      · rw [htSlot] at heq
        exact absurd heq (hne hs hsSlot)
      · rw [hothers s hsSlot, hothers t htSlot]
        exact h.same s t ((hsetUp s).mp hs) ((hsetUp t).mp ht) heq
  · rw [halike.pgdir, hpages]
    by_cases hsSlot : s = slot
    · rw [hsSlot, Function.update_self, hsize]
      exact hbelow
    · rw [Function.update_of_ne (hne hs hsSlot), hothers s hsSlot]
      exact h.below s ((hsetUp s).mp hs)

theorem Sized.setUp_of_calls (hcalls : system.Calls slot) : system.SetUp slot :=
  Or.inl (active_of_running hcalls.1)

/-- `growproc` by the only entry with its directory. -/
theorem Sized.growproc (h : Sized system) (hcalls : system.Calls slot) {n : Word}
    {round : ℕ → Round}
    (halone : ∀ s, s ≠ slot → system.SetUp s →
      (system.proc s).pgdir ≠ (system.proc slot).pgdir)
    (hgrow : system.growproc slot n round = some next) : Sized next := by
  have hslot := Sized.setUp_of_calls hcalls
  have hold := h.below slot hslot
  have halike := alike_growproc hgrow
  -- what `growproc` does with the result of `allocuvm` or `deallocuvm`
  have hresult (size : Word) (after : ℕ → Bool) (hsome : size ≠ 0 → Below after size)
      (hzero : size = 0 → Below after (system.proc slot).sz)
      (hnext : next = if size = 0 then system.setPages (system.proc slot).pgdir after
        else (system.setPages (system.proc slot).pgdir after).set slot
          { system.proc slot with sz := size }) : Sized next := by
    by_cases hsize : size = 0
    · rw [if_pos hsize] at hnext
      subst hnext
      exact h.grown halone halike rfl (fun _ _ ↦ rfl) rfl (hzero hsize)
    · rw [if_neg hsize] at hnext
      subst hnext
      apply h.grown halone halike _ _ rfl (hsome hsize)
      · simp [System.set]
      · intro s hs
        simp [System.set, hs, System.setPages]
  unfold System.growproc at hgrow
  dsimp only at hgrow
  split at hgrow
  · obtain ⟨size, after, halloc, hsome, hzero⟩ :=
      allocuvm_below round ((system.proc slot).sz + n) hold
    rw [halloc, Option.map_some] at hgrow
    exact hresult size after hsome hzero (Option.some.inj hgrow).symm
  · split at hgrow
    · obtain ⟨hsome, hzero⟩ := deallocuvm_below ((system.proc slot).sz + n) hold
      exact hresult _ _ (fun _ ↦ hsome) (fun _ ↦ hzero) (Option.some.inj hgrow).symm
    · cases hgrow
      exact h

theorem growproc_zero (round : ℕ → Round) : system.growproc slot 0 round = some system := rfl

/-- No page above the size is present, so `mappages` does not panic. -/
theorem Sized.noRemap (h : Sized system) (call : Call) : NoRemap system call := by
  cases call with
  | growproc slot n round =>
    intro hcalls
    unfold System.growproc
    dsimp only
    split
    · obtain ⟨size, after, halloc, -⟩ := allocuvm_below round ((system.proc slot).sz + n)
        (h.below slot (Sized.setUp_of_calls hcalls))
      rw [halloc]
      rfl
    · split
      · rfl
      · rfl
  | _ => trivial

/-! ## Exit and wait -/

theorem passChildren_sz (system : System) (slot s : ℕ) :
    ((system.passChildren slot).proc s).sz = (system.proc s).sz := by
  have hreparent : ((system.reparent slot).proc s).sz = (system.proc s).sz := by
    rw [reparent_proc]
    split
    · rfl
    · rfl
  unfold System.passChildren
  dsimp only
  split
  · rw [wakeup1_sz, hreparent]
  · exact hreparent

theorem exit_sz (system : System) (slot s : ℕ) :
    ((system.exit slot).proc s).sz = (system.proc s).sz := by
  unfold System.exit System.setState
  dsimp only
  refine (set_sz _ ?_ s).trans ?_
  · rfl
  · rw [passChildren_sz, wakeup1_sz]

theorem exit_pages (system : System) (slot : ℕ) : (system.exit slot).pages = system.pages := by
  unfold System.exit System.passChildren
  dsimp only
  split
  · rfl
  · rfl

theorem Sized.exit (h : Sized system) (hcalls : system.Calls slot) : Sized (system.exit slot) := by
  have halike := alike_wakeup1 system ((system.proc slot).parent.map Chan.proc)
  have hpassed :=
    alike_passChildren (system.wakeup1 ((system.proc slot).parent.map Chan.proc)) slot
  have hsame (s : ℕ) :=
    reparent_same (system.wakeup1 ((system.proc slot).parent.map Chan.proc)) slot s
  have hset (s : ℕ) := setState_same
    ((system.wakeup1 ((system.proc slot).parent.map Chan.proc)).passChildren slot) slot .zombie s
  have hactivity (s : ℕ) : ((system.exit slot).proc s).activity = (system.proc s).activity := by
    calc ((system.exit slot).proc s).activity
        = (((system.wakeup1 ((system.proc slot).parent.map Chan.proc)).passChildren slot).proc
            s).activity := (hset s).2.2
      _ = (((system.wakeup1 ((system.proc slot).parent.map Chan.proc)).reparent slot).proc
            s).activity := hpassed.activity s
      _ = (system.proc s).activity := (hsame s).2.1.trans (halike.activity s)
  have hpgdir (s : ℕ) : ((system.exit slot).proc s).pgdir = (system.proc s).pgdir :=
    (hset s).1.trans ((hpassed.pgdir s).trans ((hsame s).1.trans (halike.pgdir s)))
  have hactive (s : ℕ) (hs : ((system.exit slot).proc s).state.active = true) :
      (system.proc s).state.active = true := by
    have hne : s ≠ slot := by
      rintro rfl
      unfold System.exit at hs
      rw [setState_proc, if_pos rfl] at hs
      cases hs
    unfold System.exit at hs
    rw [setState_proc, if_neg hne, hpassed.active, (hsame s).2.2, halike.active] at hs
    exact hs
  apply h.of_frame (h.toControl.exit hcalls)
  · intro s hs
    refine ⟨?_, hpgdir s, exit_sz system slot s⟩
    rcases hs with hs | ⟨x, hlt, hx⟩
    · exact Or.inl (hactive s hs)
    · exact Or.inr ⟨x, hlt, (hactivity x).symm.trans hx⟩
  · intro dir page hpage
    rw [exit_pages] at hpage
    exact hpage

theorem Sized.reap (h : Sized system) {p : ℕ} (hzombie : (system.proc p).state = .zombie) :
    Sized (system.reap slot p) := by
  apply h.of_frame (h.toControl.reap hzombie slot)
  · intro s hs
    have hsetUp : system.SetUp s := by
      rcases hs with hactive | ⟨x, hlt, hx⟩
      · rw [reap_proc] at hactive
        split at hactive
        · cases hactive
        · exact Or.inl hactive
      · rw [reap_activity] at hx
        exact Or.inr ⟨x, hlt, hx⟩
    refine ⟨hsetUp, ?_, ?_⟩
    all_goals
      rw [reap_proc]
      split
      next heq => rw [heq]
      next => rfl
  · intro dir page hpage
    change (system.freevm slot p).pages dir page = true at hpage
    unfold System.freevm at hpage
    split at hpage
    · simp only [System.setPages, Function.update_apply] at hpage
      split at hpage
      · cases hpage
      · exact hpage
    · exact hpage

theorem Sized.wait (h : Sized system) (hcalls : system.Calls slot) : Sized (system.wait slot) := by
  unfold System.wait
  split
  next p hfound => exact h.reap (zombieChild_spec hfound).2
  next =>
    split
    · exact h
    · exact h.alike (alike_set _ rfl rfl rfl (Or.inr ⟨rfl, active_of_running hcalls.1⟩))
        (set_sz _ rfl) rfl

/-! ## Runs -/

theorem Sized.step (h : Sized system) {call : Call} (hsolitary : Solitary system call)
    (hstep : system.step call = some next) : Sized next := by
  have hcontrol := h.toControl.step hstep
  cases call with
  | fork slot | clone slot =>
    obtain ⟨hcalls, hnext⟩ := Option.ite_none_right_eq_some.mp hstep
    cases hnext
    exact h.begin hcalls fun _ ↦ rfl
  | noStack slot =>
    obtain ⟨np, hraw, rfl⟩ := step_noStack hstep
    exact h.giveUp hraw _
  | copyuvm slot dir =>
    obtain ⟨np, hactivity, hrun⟩ := step_copyuvm hstep
    have hraw : (system.proc slot).activity.raw = some np := by
      rw [hactivity]
      rfl
    rcases copyuvm_cases hrun with rfl | rfl
    · exact h.giveUp hraw 0
    · have hfresh {s : ℕ} (hs : system.SetUp s) : (system.proc s).pgdir ≠ dir :=
        hsolitary s (h.setUp_lt hs) hs
      refine h.adopt hcontrol ((edit_adopt
        (h.target_spec (Activity.target_of_raw hraw)).1 dir).of_proc rfl rfl) ?_ ?_ ?_
      · intro s hs heq
        exact absurd heq (hfresh hs)
      · intro s _ hne
        exact Function.update_of_ne hne _ _
      · intro page hpage
        simp only [System.setPages, Function.update_self] at hpage
        exact of_decide_eq_true hpage
  | share slot =>
    obtain ⟨np, hactivity, rfl⟩ := step_share hstep
    have htarget : (system.proc slot).activity.target = some np := by
      rw [hactivity]
      rfl
    have hslot : system.SetUp slot := Or.inl (h.target_active slot np htarget)
    refine h.adopt hcontrol (edit_adopt (h.target_spec htarget).1 _) ?_ ?_ ?_
    · intro s hs heq
      exact h.same s slot hs hslot heq
    · intro s _ _
      rfl
    · exact h.below slot hslot
  | growproc slot n round =>
    obtain ⟨hcalls, hgrow⟩ := Option.ite_none_right_eq_some.mp hstep
    rcases hsolitary with rfl | halone
    · rw [growproc_zero] at hgrow
      cases hgrow
      exact h
    · exact h.growproc hcalls (fun s hne hs ↦ halone s (h.setUp_lt hs) hne hs) hgrow
  | finish slot =>
    obtain ⟨np, hactivity, rfl⟩ := step_finish hstep
    exact h.finish hactivity hcontrol
  | exit slot =>
    obtain ⟨⟨hcalls, -⟩, hnext⟩ := Option.ite_none_right_eq_some.mp hstep
    cases hnext
    exact h.exit hcalls
  | wait slot =>
    obtain ⟨hcalls, hnext⟩ := Option.ite_none_right_eq_some.mp hstep
    cases hnext
    exact h.wait hcalls
  | schedule | yield | sleep | wakeup | kill =>
    obtain ⟨halike, hsz, hpages⟩ := step_quiet rfl hstep
    exact h.alike halike hsz hpages

theorem userinit_sized (dir : Ptr) : Sized (userinit dir) := by
  have hsetUp {s : ℕ} (hs : (userinit dir).SetUp s) : s = 0 := by
    by_contra hne
    rcases hs with hactive | ⟨x, -, hx⟩
    · rw [userinit_proc, if_neg hne] at hactive
      cases hactive
    · rw [userinit_idle] at hx
      cases hx
  refine ⟨userinit_control dir, fun s t hs ht _ ↦ ?_, fun s hs page hpage ↦ ?_⟩
  · rw [hsetUp hs, hsetUp ht]
  · rw [hsetUp hs] at hpage ⊢
    simp only [userinit, Function.update_self, decide_eq_true_eq] at hpage
    rw [hpage, userinit_proc, if_pos rfl]
    change 0 < pageCount (4096 : Word).toNat
    decide

/-- In every run in which `growproc` is called where nobody shares the directory, threads have
one size and no page is mapped again. -/
theorem sameSizes_of_run (dir : Ptr) {calls : List Call}
    (hguarded : Guarded System.step Solitary (userinit dir) calls) :
    (∀ final, run System.step (userinit dir) calls = some final → SameSizes final) ∧
      Guarded System.step NoRemap (userinit dir) calls := by
  have hstep (system : System) (call : Call) (next : System) (h : Sized system)
      (hok : Solitary system call) (hnext : system.step call = some next) : Sized next :=
    h.step hok hnext
  constructor
  · intro final hrun
    exact (hguarded.invariant_of_run hstep (userinit_sized dir) hrun).sameSizes
  · exact hguarded.mono_of_invariant hstep (fun _ call h _ ↦ h.noRemap call) (userinit_sized dir)

/-- `initproc` grows, makes a thread, and grows again when the thread is gone. -/
def growAlone : List Call :=
  [.schedule 0, .growproc 0 5000 (fun _ ↦ .mapped), .clone 0, .share 0, .finish 0, .schedule 1,
    .exit 1, .wait 0, .growproc 0 4096 (fun _ ↦ .mapped)]

theorem growAlone_sameSizes :
    (∀ final, run System.step (userinit 1) growAlone = some final → SameSizes final) ∧
      Guarded System.step NoRemap (userinit 1) growAlone :=
  sameSizes_of_run 1 (by decide +kernel)

/-- `initproc` grows while it has a thread. -/
def growShared : List Call :=
  [.schedule 0, .clone 0, .share 0, .finish 0, .growproc 0 4096 (fun _ ↦ .mapped), .schedule 1]

/-- The sizes differ, and the thread maps the new page again when it grows. -/
theorem growShared_not_sameSizes :
    ∃ final, run System.step (userinit 1) growShared = some final ∧ ¬ SameSizes final ∧
      ¬ NoRemap final (.growproc 1 4096 fun _ ↦ .mapped) := by
  have hrun : (run System.step (userinit 1) growShared).map (fun final ↦ decide
      ((final.proc 0).state.active = true ∧ (final.proc 1).state.active = true ∧
        (final.proc 0).pgdir = (final.proc 1).pgdir ∧ (final.proc 0).sz = 8192 ∧
        (final.proc 1).sz = 4096 ∧ final.Calls 1 ∧
        (final.growproc 1 4096 fun _ ↦ .mapped).isSome = false)) = some true := by
    decide +kernel
  obtain ⟨final, hfinal, hvalues⟩ := Option.map_eq_some_iff.mp hrun
  obtain ⟨hfirst, hsecond, hdir, hsize, hsize', hcalls, hpanic⟩ := of_decide_eq_true hvalues
  refine ⟨final, hfinal, fun hsame ↦ ?_, fun hremap ↦ ?_⟩
  · have heq := hsame 0 1 hfirst hsecond hdir
    rw [hsize, hsize'] at heq
    exact absurd heq (by decide)
  · have hsome := hremap hcalls
    rw [hpanic] at hsome
    cases hsome

end OS537.Threads
