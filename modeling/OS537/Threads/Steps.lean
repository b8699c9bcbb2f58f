import OS537.Threads.Control

/-!
# The steps and the calls under way

What `exit` and `wait` do with the table, which part of a call a step is, and that every step keeps
the calls under way apart.
-/

namespace OS537.Threads

open Bytes

variable {system next : System} {slot np p : ℕ} {activity : Activity} {entry : Proc}

/-! ## Exit and wait -/

theorem alike_passChildren (system : System) (slot : ℕ) :
    Alike (system.passChildren slot) (system.reparent slot) := by
  unfold System.passChildren
  dsimp only
  split
  · exact alike_wakeup1 _ _
  · exact ⟨fun _ ↦ rfl, fun _ ↦ rfl, fun _ ↦ rfl, fun _ ↦ Or.inl rfl, rfl, rfl⟩

theorem reparent_proc (system : System) (slot s : ℕ) :
    (system.reparent slot).proc s = if (system.proc s).parent = some slot then
      { system.proc s with parent := some system.initproc } else system.proc s := rfl

/-- Apart from its parent, an entry stays as it is. -/
theorem reparent_same (system : System) (slot s : ℕ) :
    ((system.reparent slot).proc s).pgdir = (system.proc s).pgdir ∧
      ((system.reparent slot).proc s).activity = (system.proc s).activity ∧
      ((system.reparent slot).proc s).state = (system.proc s).state := by
  rw [reparent_proc]
  split
  · exact ⟨rfl, rfl, rfl⟩
  · exact ⟨rfl, rfl, rfl⟩

theorem reap_proc (system : System) (slot p s : ℕ) : (system.reap slot p).proc s =
    if s = p then { system.proc p with state := .unused, pid := 0, parent := none, killed := false }
    else system.proc s := by
  have hfreevm : (system.freevm slot p).proc = system.proc := by
    unfold System.freevm
    split
    · rfl
    · rfl
  unfold System.reap System.set
  rw [hfreevm]
  exact Function.update_apply _ _ _ _

theorem reap_activity (system : System) (slot p s : ℕ) :
    ((system.reap slot p).proc s).activity = (system.proc s).activity := by
  rw [reap_proc]
  split
  next hs => rw [hs]
  next => rfl

theorem setState_proc (system : System) (slot : ℕ) (state : ProcState) (s : ℕ) :
    (system.setState slot state).proc s =
      if s = slot then { system.proc slot with state := state } else system.proc s :=
  Function.update_apply _ _ _ _

theorem setState_same (system : System) (slot : ℕ) (state : ProcState) (s : ℕ) :
    ((system.setState slot state).proc s).pgdir = (system.proc s).pgdir ∧
      ((system.setState slot state).proc s).parent = (system.proc s).parent ∧
      ((system.setState slot state).proc s).activity = (system.proc s).activity := by
  rw [setState_proc]
  split
  next hs =>
    rw [hs]
    exact ⟨rfl, rfl, rfl⟩
  next => exact ⟨rfl, rfl, rfl⟩

/-- The activities stay, and so do the states of the entries that they need. -/
theorem Control.of_same (h : Control system)
    (hactivity : ∀ s, (next.proc s).activity = (system.proc s).activity)
    (hused : ∀ s, (next.proc s).state ≠ .unused → (system.proc s).state ≠ .unused)
    (hembryo : ∀ s, (system.proc s).state = .embryo → (next.proc s).state = .embryo)
    (hactive : ∀ s np, (system.proc s).activity.target = some np →
      (next.proc s).state.active = true) : Control next where
  in_table s hs := h.in_table s (hused s hs)
  target_embryo x np hx := by
    rw [hactivity] at hx
    exact hembryo np (h.target_embryo x np hx)
  target_active x np hx := by
    rw [hactivity] at hx
    exact hactive x np hx
  target_unique x y np hx hy := by
    rw [hactivity] at hx hy
    exact h.target_unique x y np hx hy

theorem Control.reparent (h : Control system) (slot : ℕ) : Control (system.reparent slot) := by
  have hsame := reparent_same system slot
  apply h.of_same (fun s ↦ (hsame s).2.1)
  · intro s hs
    rw [(hsame s).2.2] at hs
    exact hs
  · intro s hs
    rw [(hsame s).2.2]
    exact hs
  · intro s np hs
    rw [(hsame s).2.2]
    exact h.target_active s np hs

theorem Control.becomeZombie (h : Control system)
    (hactive : (system.proc slot).state.active = true)
    (hidle : (system.proc slot).activity = .idle) : Control (system.setState slot .zombie) := by
  have hstate {s : ℕ} (hs : s ≠ slot) :
      ((system.setState slot .zombie).proc s).state = (system.proc s).state := by
    rw [setState_proc, if_neg hs]
  apply h.of_same (fun s ↦ (setState_same system slot .zombie s).2.2)
  · intro s hs hunused
    by_cases hne : s = slot
    · rw [hne] at hunused
      rw [hunused] at hactive
      cases hactive
    · rw [hstate hne] at hs
      exact hs hunused
  · intro s hs
    have hne : s ≠ slot := by
      rintro rfl
      rw [hs] at hactive
      cases hactive
    rw [hstate hne, hs]
  · intro s np hs
    have hne : s ≠ slot := by
      rintro rfl
      rw [hidle] at hs
      cases hs
    rw [hstate hne]
    exact h.target_active s np hs

theorem Control.reap (h : Control system) (hzombie : (system.proc p).state = .zombie) (slot : ℕ) :
    Control (system.reap slot p) := by
  have hother {s : ℕ} (hs : s ≠ p) : (system.reap slot p).proc s = system.proc s := by
    rw [reap_proc, if_neg hs]
  apply h.of_same (reap_activity system slot p)
  · intro s hs
    have hne : s ≠ p := by
      rintro rfl
      apply hs
      rw [reap_proc, if_pos rfl]
    rw [hother hne] at hs
    exact hs
  · intro s hs
    have hne : s ≠ p := by
      rintro rfl
      rw [hs] at hzombie
      cases hzombie
    rw [hother hne, hs]
  · intro s np hs
    have hactive := h.target_active s np hs
    have hne : s ≠ p := by
      rintro rfl
      rw [hzombie] at hactive
      cases hactive
    rw [hother hne]
    exact hactive

/-! ## One step -/

theorem Control.begin (h : Control system) (hcalls : system.Calls slot) {make : ℕ → Activity}
    (hmake : ∀ np, (make np).target = some np) : Control (system.begin slot make) := by
  unfold System.begin
  split
  · exact h
  next np hfound =>
    obtain ⟨htable, hunused⟩ := unusedSlot_spec hfound
    have hinactive : (system.proc np).state.active = false := by
      rw [hunused]
      rfl
    have hactive := active_of_running hcalls.1
    have hedit : Edit ((system.allocproc np).setActivity slot (make np)) system slot np (make np)
        { system.proc np with state := .embryo, pid := system.nextpid } :=
      (edit_set { system.proc np with state := .embryo, pid := system.nextpid }
        (System.ne_of_active hactive hinactive) rfl).of_proc rfl rfl
    apply h.edit hedit hactive hinactive htable
    · intro x _ htarget
      rw [h.target_embryo x np htarget] at hunused
      cases hunused
    · intro other htarget
      rw [hmake] at htarget
      cases htarget
      exact ⟨rfl, rfl⟩

/-- A part that goes on with `np` as it is, or ends the call. -/
theorem Control.edit_target (h : Control system)
    (htarget : (system.proc slot).activity.target = some np)
    (hedit : Edit next system slot np activity entry)
    (hafter : activity.target = none ∨
      activity.target = some np ∧ entry.state = (system.proc np).state) : Control next := by
  obtain ⟨-, hinactive, htable, hothers⟩ := h.target_spec htarget
  apply h.edit hedit (h.target_active slot np htarget) hinactive htable hothers
  intro other hother
  rcases hafter with hnone | ⟨hsome, hstate⟩
  · rw [hnone] at hother
    cases hother
  · rw [hsome] at hother
    exact ⟨(Option.some.inj hother).symm, hstate.trans (h.target_embryo slot np htarget)⟩

theorem Control.exit (h : Control system) (hcalls : system.Calls slot) :
    Control (system.exit slot) := by
  have halike := alike_wakeup1 system ((system.proc slot).parent.map Chan.proc)
  have hpassed :=
    alike_passChildren (system.wakeup1 ((system.proc slot).parent.map Chan.proc)) slot
  have hsame :=
    reparent_same (system.wakeup1 ((system.proc slot).parent.map Chan.proc)) slot slot
  apply Control.becomeZombie (((h.alike halike).reparent slot).alike hpassed)
  · rw [hpassed.active, hsame.2.2, halike.active]
    exact active_of_running hcalls.1
  · rw [hpassed.activity, hsame.2.1, halike.activity]
    exact hcalls.2

theorem Control.wait (h : Control system) (hcalls : system.Calls slot) :
    Control (system.wait slot) := by
  unfold System.wait
  split
  next p hfound => exact h.reap (zombieChild_spec hfound).2 slot
  next =>
    split
    · exact h
    · exact h.alike (alike_set _ rfl rfl rfl (Or.inr ⟨rfl, active_of_running hcalls.1⟩))

/-- The part of the call that the step is in. -/
theorem step_noStack (hstep : system.step (.noStack slot) = some next) :
    ∃ np, (system.proc slot).activity.raw = some np ∧
      next = system.giveUp slot np (system.proc np).pgdir := by
  simp only [System.step] at hstep
  split at hstep
  next np _ hactivity =>
    cases hstep
    exact ⟨np, by rw [hactivity]; rfl, rfl⟩
  next np _ hactivity =>
    cases hstep
    exact ⟨np, by rw [hactivity]; rfl, rfl⟩
  next => cases hstep

theorem step_copyuvm {dir : Ptr} (hstep : system.step (.copyuvm slot dir) = some next) :
    ∃ np, (system.proc slot).activity = .forking np ∧
      system.copyuvm slot np dir = some next := by
  simp only [System.step] at hstep
  split at hstep
  next np _ hactivity => exact ⟨np, hactivity, hstep⟩
  next => cases hstep

theorem step_share (hstep : system.step (.share slot) = some next) :
    ∃ np, (system.proc slot).activity = .cloning np ∧
      next = system.adopt slot np (system.proc slot).pgdir := by
  simp only [System.step] at hstep
  split at hstep
  next np _ hactivity =>
    cases hstep
    exact ⟨np, hactivity, rfl⟩
  next => cases hstep

theorem step_finish (hstep : system.step (.finish slot) = some next) :
    ∃ np, (system.proc slot).activity = .finishing np ∧ next = system.finish slot np := by
  simp only [System.step] at hstep
  split at hstep
  next np _ hactivity =>
    cases hstep
    exact ⟨np, hactivity, rfl⟩
  next => cases hstep

/-- `copyuvm` fails, or makes a directory with the pages of the caller. -/
theorem copyuvm_cases {dir : Ptr} (hrun : system.copyuvm slot np dir = some next) :
    next = system.giveUp slot np 0 ∨
      next = { system.adopt slot np dir with allocated := dir :: system.allocated }.setPages dir
        fun page ↦ decide (page < pageCount (system.proc slot).sz.toNat) := by
  unfold System.copyuvm at hrun
  dsimp only at hrun
  split at hrun
  · exact Or.inl (Option.some.inj hrun).symm
  · split at hrun
    · exact Or.inr (Option.some.inj hrun).symm
    · cases hrun

theorem set_sz (entry : Proc) (hsz : entry.sz = (system.proc slot).sz) (s : ℕ) :
    ((system.set slot entry).proc s).sz = (system.proc s).sz := by
  have hproc : (system.set slot entry).proc s = if s = slot then entry else system.proc s :=
    Function.update_apply _ _ _ _
  rw [hproc]
  split
  next hs => rw [hs, hsz]
  next => rfl

theorem wakeup1_sz (system : System) (chan : Option Chan) (s : ℕ) :
    ((system.wakeup1 chan).proc s).sz = (system.proc s).sz := by
  change (if _ then _ else _ : Proc).sz = _
  split
  · rfl
  · rfl

/-- The calls that only change which processes run. -/
def Call.quiet : Call → Bool
  | .schedule _ | .yield _ | .sleep _ _ | .wakeup _ | .kill _ => true
  | _ => false

theorem step_quiet {call : Call} (hquiet : call.quiet = true)
    (hstep : system.step call = some next) :
    Alike next system ∧ (∀ s, (next.proc s).sz = (system.proc s).sz) ∧
      next.pages = system.pages := by
  cases call with
  | schedule slot =>
    obtain ⟨hstate, hnext⟩ := Option.ite_none_right_eq_some.mp hstep
    cases hnext
    exact ⟨alike_set _ rfl rfl rfl (Or.inr ⟨rfl, by rw [hstate]; rfl⟩), set_sz _ rfl, rfl⟩
  | yield slot | sleep slot addr =>
    obtain ⟨hstate, hnext⟩ := Option.ite_none_right_eq_some.mp hstep
    cases hnext
    exact ⟨alike_set _ rfl rfl rfl (Or.inr ⟨rfl, active_of_running hstate⟩), set_sz _ rfl, rfl⟩
  | wakeup chan =>
    cases hstep
    exact ⟨alike_wakeup1 _ _, wakeup1_sz _ _, rfl⟩
  | kill pid =>
    cases hstep
    refine ⟨alike_kill _ _, ?_⟩
    unfold System.kill
    split
    · exact ⟨fun _ ↦ rfl, rfl⟩
    · exact ⟨set_sz _ rfl, rfl⟩
  | _ => cases hquiet

theorem Control.giveUp (h : Control system) (hraw : (system.proc slot).activity.raw = some np)
    (dir : Ptr) : Control (system.giveUp slot np dir) := by
  have htarget := Activity.target_of_raw hraw
  exact h.edit_target htarget (edit_set _ (h.target_spec htarget).1 rfl) (Or.inl rfl)

theorem Control.step (h : Control system) {call : Call} (hstep : system.step call = some next) :
    Control next := by
  cases call with
  | fork slot | clone slot =>
    obtain ⟨hcalls, hnext⟩ := Option.ite_none_right_eq_some.mp hstep
    cases hnext
    exact h.begin hcalls fun _ ↦ rfl
  | noStack slot =>
    obtain ⟨np, hraw, rfl⟩ := step_noStack hstep
    exact h.giveUp hraw _
  | copyuvm slot dir =>
    obtain ⟨np, hactivity, hrun⟩ := step_copyuvm hstep
    have hraw : (system.proc slot).activity.raw = some np := by
      rw [hactivity]
      rfl
    have htarget := Activity.target_of_raw hraw
    rcases copyuvm_cases hrun with rfl | rfl
    · exact h.giveUp hraw 0
    · exact h.edit_target htarget ((edit_adopt (h.target_spec htarget).1 dir).of_proc rfl rfl)
        (Or.inr ⟨rfl, rfl⟩)
  | share slot =>
    obtain ⟨np, hactivity, rfl⟩ := step_share hstep
    have htarget : (system.proc slot).activity.target = some np := by
      rw [hactivity]
      rfl
    exact h.edit_target htarget (edit_adopt (h.target_spec htarget).1 _) (Or.inr ⟨rfl, rfl⟩)
  | growproc slot n round =>
    obtain ⟨-, hgrow⟩ := Option.ite_none_right_eq_some.mp hstep
    exact h.alike (alike_growproc hgrow)
  | finish slot =>
    obtain ⟨np, hactivity, rfl⟩ := step_finish hstep
    have htarget : (system.proc slot).activity.target = some np := by
      rw [hactivity]
      rfl
    exact h.edit_target htarget (edit_set _ (h.target_spec htarget).1 rfl) (Or.inl rfl)
  | exit slot =>
    obtain ⟨⟨hcalls, -⟩, hnext⟩ := Option.ite_none_right_eq_some.mp hstep
    cases hnext
    exact h.exit hcalls
  | wait slot =>
    obtain ⟨hcalls, hnext⟩ := Option.ite_none_right_eq_some.mp hstep
    cases hnext
    exact h.wait hcalls
  | schedule | yield | sleep | wakeup | kill => exact h.alike (step_quiet rfl hstep).1

/-! ## The first process -/

theorem userinit_proc (dir : Ptr) (s : ℕ) : (userinit dir).proc s = if s = 0 then
    { emptyProc with sz := 4096, pgdir := dir, state := .runnable, pid := 1 } else emptyProc := by
  simp only [userinit, Function.update_apply]

theorem userinit_idle (dir : Ptr) (s : ℕ) : ((userinit dir).proc s).activity = .idle := by
  rw [userinit_proc]
  split
  · rfl
  · rfl

theorem userinit_control (dir : Ptr) : Control (userinit dir) := by
  have hidle {x np : ℕ} (hx : ((userinit dir).proc x).activity.target = some np) : False := by
    rw [userinit_idle] at hx
    cases hx
  refine ⟨fun s hs ↦ ?_, fun x np hx ↦ (hidle hx).elim, fun x np hx ↦ (hidle hx).elim,
    fun x y np hx _ ↦ (hidle hx).elim⟩
  have hzero : s = 0 := by
    by_contra hne
    rw [userinit_proc, if_neg hne] at hs
    exact hs rfl
  rw [hzero]
  decide

end OS537.Threads
