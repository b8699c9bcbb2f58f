import OS537.Base.Run
import OS537.Threads.Making

/-!
# Exit, wait and whole runs

A process that exits hangs its children on `initproc`; a zombie leaves the family when it is
reaped. In runs in which nobody exits before its threads, every directory is freed once and by
the last entry that has it.
-/

namespace OS537.Threads

open Bytes Families Run

variable {system next : System} {slot np p : ℕ}

/-! ## Exit and wait -/

/-- The children of an entry are hung on `initproc`. -/
theorem Owned.reparent (h : Owned system) (htame : Tame system (.exit slot)) :
    Owned (system.reparent slot) := by
  have hsame := reparent_same system slot
  have hmember (s : ℕ) : (system.reparent slot).Member s ↔ system.Member s := by
    have hraw : (system.reparent slot).Raw s ↔ system.Raw s :=
      exists_congr fun x ↦ by rw [(hsame x).2.1]
    unfold System.Member
    rw [hraw, (hsame s).2.2]
  have hparent (s : ℕ) : ((system.reparent slot).proc s).parent =
      if (system.proc s).parent = some slot then some system.initproc
      else (system.proc s).parent := by
    rw [reparent_proc]
    split
    · rfl
    · rfl
  refine ⟨h.toControl.reparent slot, ?_, ?_, ?_, ?_, ?_⟩
  · have hmembers : (system.reparent slot).Member = system.Member :=
      funext fun s ↦ propext (hmember s)
    simp only [fun s ↦ (hsame s).1, hmembers]
    apply h.family.rehang _ hparent
    intro child hchild heq
    have hused := (h.family.parent_member child slot hchild).1.1
    exact htame child (h.in_table child hused) hchild hused heq
  · change ((system.reparent slot).proc system.initproc).state.active = true
    rw [(hsame _).2.2]
    exact h.init_active
  · intro s q hq
    rw [(hsame q).2.2]
    rw [hparent] at hq
    split at hq
    next =>
      cases hq
      exact h.init_active
    next => exact h.parent_active s q hq
  · intro s hs
    rw [(hsame s).1]
    exact h.member_allocated s ((hmember s).mp hs)
  · intro x np hx
    rw [(hsame x).2.1] at hx
    simp only [(hsame np).1, (hsame x).1, fun s ↦ (hsame s).1, hmember]
    exact h.leftover x np hx

/-- A process on which nobody hangs becomes a zombie. -/
theorem Owned.becomeZombie (h : Owned system) (hinit : slot ≠ system.initproc)
    (hactive : (system.proc slot).state.active = true)
    (hidle : (system.proc slot).activity = .idle)
    (hleaf : ∀ child, (system.proc child).parent ≠ some slot) :
    Owned (system.setState slot .zombie) := by
  have hproc := setState_proc system slot .zombie
  have hsame := setState_same system slot .zombie
  have hstate {s : ℕ} (hs : s ≠ slot) :
      ((system.setState slot .zombie).proc s).state = (system.proc s).state := by
    rw [hproc, if_neg hs]
  have hslot : system.Member slot := h.member_of_active hactive
  have hmember (s : ℕ) : (system.setState slot .zombie).Member s ↔ system.Member s := by
    have hraw : (system.setState slot .zombie).Raw s ↔ system.Raw s :=
      exists_congr fun x ↦ by rw [(hsame x).2.2]
    by_cases hs : s = slot
    · rw [hs] at hraw ⊢
      refine iff_of_true ⟨?_, mt hraw.mp hslot.2⟩ hslot
      rw [hproc, if_pos rfl]
      simp
    · unfold System.Member
      rw [hraw, hstate hs]
  refine ⟨h.toControl.becomeZombie hactive hidle, ?_, ?_, ?_, ?_, ?_⟩
  · have hmembers : (system.setState slot .zombie).Member = system.Member :=
      funext fun s ↦ propext (hmember s)
    simp only [fun s ↦ (hsame s).1, fun s ↦ (hsame s).2.1, hmembers]
    exact h.family
  · change ((system.setState slot .zombie).proc system.initproc).state.active = true
    rw [hstate hinit.symm]
    exact h.init_active
  · intro s q hq
    rw [(hsame s).2.1] at hq
    have hne : q ≠ slot := by
      rintro rfl
      exact hleaf s hq
    rw [hstate hne]
    exact h.parent_active s q hq
  · intro s hs
    rw [(hsame s).1]
    exact h.member_allocated s ((hmember s).mp hs)
  · intro x np hx
    rw [(hsame x).2.2] at hx
    simp only [(hsame np).1, (hsame x).1, fun s ↦ (hsame s).1, hmember]
    exact h.leftover x np hx

theorem Owned.exit (h : Owned system) (hcalls : system.Calls slot)
    (hinit : slot ≠ system.initproc) (htame : Tame system (.exit slot)) :
    Owned (system.exit slot) := by
  unfold System.exit
  dsimp only
  set woken := system.wakeup1 ((system.proc slot).parent.map Chan.proc) with hwoken
  have halike : Alike woken system := alike_wakeup1 _ _
  have hwokenOwned : Owned woken := h.alike halike
  have hwokenTame : Tame woken (.exit slot) := by
    intro child hlt hchild hused heq
    rw [halike.parent] at hchild
    rw [ne_eq, halike.state_iff child rfl] at hused
    rw [halike.pgdir, halike.pgdir] at heq
    rw [halike.initproc, halike.pgdir, halike.pgdir]
    exact htame child hlt hchild hused heq
  have hpassed := alike_passChildren woken slot
  have hsame := reparent_same woken slot slot
  apply ((hwokenOwned.reparent hwokenTame).alike hpassed).becomeZombie
  · rw [hpassed.initproc]
    exact hinit
  · rw [hpassed.active, hsame.2.2, halike.active]
    exact active_of_running hcalls.1
  · rw [hpassed.activity, hsame.2.1, halike.activity]
    exact hcalls.2
  · intro child hchild
    rw [hpassed.parent, reparent_proc] at hchild
    split at hchild
    next => exact hinit (Option.some.inj hchild).symm
    next hother => exact hother hchild

/-- The directories after `wait`, as far as other entries have them. -/
theorem Owned.reap_allocated (h : Owned system) (hparent : (system.proc p).parent = some slot)
    (hzombie : (system.proc p).state = .zombie) {s : ℕ} (hs : s ≠ p) (hmember : system.Member s) :
    (system.proc s).pgdir ∈ (system.reap slot p).allocated := by
  have hmade := h.member_allocated s hmember
  change (system.proc s).pgdir ∈ (system.freevm slot p).allocated
  unfold System.freevm
  split
  next hdir =>
    exact (List.mem_erase_of_ne (h.zombie_alone hzombie hparent hdir hs hmember.1)).mpr hmade
  next => exact hmade

theorem Owned.reap (h : Owned system) (hparent : (system.proc p).parent = some slot)
    (hzombie : (system.proc p).state = .zombie) : Owned (system.reap slot p) := by
  have hproc := reap_proc system slot p
  have hother {s : ℕ} (hs : s ≠ p) : (system.reap slot p).proc s = system.proc s := by
    rw [hproc, if_neg hs]
  have hgone : ((system.reap slot p).proc p).state = .unused ∧
      ((system.reap slot p).proc p).parent = none := by
    rw [hproc, if_pos rfl]
    exact ⟨rfl, rfl⟩
  have hpgdir (s : ℕ) : ((system.reap slot p).proc s).pgdir = (system.proc s).pgdir := by
    rw [hproc]
    split
    next hs => rw [hs]
    next => rfl
  have hactivity := reap_activity system slot p
  have hraw (s : ℕ) : (system.reap slot p).Raw s ↔ system.Raw s :=
    exists_congr fun x ↦ by rw [hactivity x]
  have hmember (s : ℕ) : (system.reap slot p).Member s ↔ system.Member s ∧ s ≠ p := by
    by_cases hs : s = p
    · rw [hs]
      exact iff_of_false (fun hmem ↦ hmem.1 hgone.1) fun hmem ↦ hmem.2 rfl
    · unfold System.Member
      rw [hraw, hother hs]
      simp [hs]
  have hinit : (system.reap slot p).initproc = system.initproc := by
    change (system.freevm slot p).initproc = _
    unfold System.freevm
    split
    · rfl
    · rfl
  have hactiveNe {s : ℕ} (hs : (system.proc s).state.active = true) : s ≠ p := by
    rintro rfl
    rw [hzombie] at hs
    cases hs
  have hinactive : (system.proc p).state.active = false := by
    rw [hzombie]
    rfl
  have hleaf := h.no_children hinactive
  refine ⟨h.toControl.reap hzombie slot, ?_, ?_, ?_, ?_, ?_⟩
  · rw [hinit]
    simp only [hpgdir]
    apply h.family.leave (hactiveNe h.init_active).symm hleaf hmember
    · intro s hs
      rw [hother hs]
    · exact hgone.2
  · rw [hinit, hother (hactiveNe h.init_active)]
    exact h.init_active
  · intro s q hq
    have hs : s ≠ p := by
      rintro rfl
      rw [hgone.2] at hq
      cases hq
    rw [hother hs] at hq
    have hactive := h.parent_active s q hq
    rw [hother (hactiveNe hactive)]
    exact hactive
  · intro s hs
    obtain ⟨hmem, hne⟩ := (hmember s).mp hs
    rw [hpgdir]
    exact h.reap_allocated hparent hzombie hne hmem
  · intro x np hx
    rw [hactivity] at hx
    simp only [hpgdir, hmember]
    exact (h.leftover x np hx).imp_right fun hall s hs ↦ hall s hs.1

/-! ## Runs -/

theorem Owned.wait (h : Owned system) (hcalls : system.Calls slot) :
    Owned (system.wait slot) := by
  unfold System.wait
  split
  next p hfound =>
    obtain ⟨hparent, hzombie⟩ := zombieChild_spec hfound
    exact h.reap hparent hzombie
  next =>
    split
    · exact h
    · refine h.alike (alike_set _ rfl rfl rfl (Or.inr ⟨rfl, ?_⟩))
      exact active_of_running hcalls.1

theorem userinit_owned (dir : Ptr) : Owned (userinit dir) := by
  have hproc := userinit_proc dir
  have hparent (s : ℕ) : ((userinit dir).proc s).parent = none := by
    rw [hproc]
    split
    · rfl
    · rfl
  have hnoRaw {x np : ℕ} (hx : ((userinit dir).proc x).activity.raw = some np) : False := by
    rw [userinit_idle] at hx
    cases hx
  have hmember (s : ℕ) : (userinit dir).Member s ↔ s = 0 := by
    constructor
    · intro hs
      by_contra hne
      apply hs.1
      rw [hproc, if_neg hne]
      rfl
    · rintro rfl
      exact ⟨by rw [hproc, if_pos rfl]; simp, fun ⟨x, hx⟩ ↦ hnoRaw hx⟩
  refine ⟨userinit_control dir, ?_, ?_, ?_, ?_, ?_⟩
  · constructor
    · exact (hmember 0).mpr rfl
    · exact hparent 0
    · intro child above habove
      rw [hparent] at habove
      cases habove
    · refine ⟨id, rfl, fun x hx ↦ Nat.pos_of_ne_zero hx, fun child above habove ↦ ?_⟩
      rw [hparent] at habove
      cases habove
    · intro x y hx hy _ _ _
      rw [(hmember x).mp hx, (hmember y).mp hy]
  · rfl
  · intro s q hq
    rw [hparent] at hq
    cases hq
  · intro s hs
    rw [(hmember s).mp hs]
    exact List.mem_cons_self
  · intro x np hx
    exact (hnoRaw hx).elim

/-- One step keeps the invariant. -/
theorem Owned.step (h : Owned system) {call : Call} (hfresh : Fresh system call)
    (htame : Tame system call) (hstep : system.step call = some next) : Owned next := by
  cases call with
  | fork slot | clone slot =>
    obtain ⟨hcalls, hnext⟩ := Option.ite_none_right_eq_some.mp hstep
    cases hnext
    exact h.begin hcalls (fun _ ↦ rfl) htame
  | noStack slot =>
    obtain ⟨np, hraw, rfl⟩ := step_noStack hstep
    exact h.giveUp hraw _
  | copyuvm slot dir =>
    obtain ⟨np, hactivity, hrun⟩ := step_copyuvm hstep
    exact h.copyuvm hactivity hfresh htame hrun
  | share slot =>
    obtain ⟨np, hactivity, rfl⟩ := step_share hstep
    exact h.share hactivity
  | growproc slot n round =>
    obtain ⟨-, hgrow⟩ := Option.ite_none_right_eq_some.mp hstep
    exact h.alike (alike_growproc hgrow)
  | finish slot =>
    obtain ⟨np, hactivity, rfl⟩ := step_finish hstep
    exact h.finish hactivity
  | exit slot =>
    obtain ⟨⟨hcalls, hinit⟩, hnext⟩ := Option.ite_none_right_eq_some.mp hstep
    cases hnext
    exact h.exit hcalls hinit htame
  | wait slot =>
    obtain ⟨hcalls, hnext⟩ := Option.ite_none_right_eq_some.mp hstep
    cases hnext
    exact h.wait hcalls
  | schedule | yield | sleep | wakeup | kill => exact h.alike (step_quiet rfl hstep).1

/-- `initproc` makes a process; the process makes a thread and reaps it, and is reaped itself. -/
def joinedThread : List Call :=
  [.schedule 0, .fork 0, .copyuvm 0 2, .finish 0, .schedule 1, .clone 1, .share 1, .finish 1,
    .schedule 2, .exit 2, .wait 1, .exit 1, .wait 0]

/-- The process exits before its thread. -/
def orphanedThread : List Call :=
  [.schedule 0, .fork 0, .copyuvm 0 2, .finish 0, .schedule 1, .clone 1, .share 1, .finish 1,
    .exit 1]

end OS537.Threads
