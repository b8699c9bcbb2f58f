import OS537.Threads.Table

/-!
# Calls under way

`fork` and `clone` are in several parts, between which other processes act. While a call makes an
entry, the caller is active, the entry is an embryo, and no other call makes the same entry.
-/

namespace OS537.Threads

open Bytes

/-- The entry that is not yet set up by the call. -/
def Activity.raw : Activity → Option ℕ
  | .forking np => some np
  | .cloning np => some np
  | _ => none

/-- The entry that the call makes. -/
def Activity.target : Activity → Option ℕ
  | .forking np => some np
  | .cloning np => some np
  | .finishing np => some np
  | .idle => none

def ProcState.active : ProcState → Bool
  | .sleeping => true
  | .runnable => true
  | .running => true
  | _ => false

/-- The entry still has the directory of its last use. -/
def System.Raw (system : System) (slot : ℕ) : Prop :=
  ∃ x, (system.proc x).activity.raw = some slot

def System.Member (system : System) (slot : ℕ) : Prop :=
  (system.proc slot).state ≠ .unused ∧ ¬ system.Raw slot

theorem Activity.target_of_raw {activity : Activity} {np : ℕ} (h : activity.raw = some np) :
    activity.target = some np := by
  cases activity with
  | forking _ => exact h
  | cloning _ => exact h
  | finishing _ => cases h
  | idle => cases h

/-- The calls under way make entries of their own. -/
structure Control (system : System) : Prop where
  in_table : ∀ s, (system.proc s).state ≠ .unused → s < nproc
  target_embryo : ∀ x np, (system.proc x).activity.target = some np →
    (system.proc np).state = .embryo
  target_active : ∀ x np, (system.proc x).activity.target = some np →
    (system.proc x).state.active = true
  target_unique : ∀ x y np, (system.proc x).activity.target = some np →
    (system.proc y).activity.target = some np → x = y

variable {system next : System} {slot np p : ℕ}

theorem Control.raw_embryo (h : Control system) (hraw : system.Raw slot) :
    (system.proc slot).state = .embryo := by
  obtain ⟨x, hx⟩ := hraw
  exact h.target_embryo x slot (Activity.target_of_raw hx)

theorem Control.member_of_active (h : Control system)
    (hactive : (system.proc slot).state.active = true) : system.Member slot := by
  constructor
  · intro hunused
    rw [hunused] at hactive
    cases hactive
  · intro hraw
    rw [h.raw_embryo hraw] at hactive
    cases hactive

theorem Control.member_of_zombie (h : Control system)
    (hzombie : (system.proc slot).state = .zombie) :
    system.Member slot := by
  constructor
  · rw [hzombie]
    decide
  · intro hraw
    rw [h.raw_embryo hraw] at hzombie
    cases hzombie

theorem zombieChild_spec (h : system.zombieChild slot = some p) :
    (system.proc p).parent = some slot ∧ (system.proc p).state = .zombie := by
  obtain ⟨-, hhit, -⟩ := Scan.first_eq_some_iff.mp h
  exact of_decide_eq_true hhit

/-! ## Steps that leave directories and parents alone -/

/-- The entries differ in what does not matter here: the state changes between active states. -/
structure Alike (next system : System) : Prop where
  pgdir : ∀ s, (next.proc s).pgdir = (system.proc s).pgdir
  parent : ∀ s, (next.proc s).parent = (system.proc s).parent
  activity : ∀ s, (next.proc s).activity = (system.proc s).activity
  state : ∀ s, (next.proc s).state = (system.proc s).state ∨
    (next.proc s).state.active = true ∧ (system.proc s).state.active = true
  initproc : next.initproc = system.initproc
  allocated : next.allocated = system.allocated

theorem Alike.active (h : Alike next system) (s : ℕ) :
    (next.proc s).state.active = (system.proc s).state.active := by
  rcases h.state s with heq | ⟨hnext, hsystem⟩
  · rw [heq]
  · rw [hnext, hsystem]

theorem Alike.state_iff (h : Alike next system) (s : ℕ) {state : ProcState}
    (hinactive : state.active = false) :
    (next.proc s).state = state ↔ (system.proc s).state = state := by
  rcases h.state s with heq | ⟨hnext, hsystem⟩
  · rw [heq]
  · constructor
    · rintro rfl
      rw [hinactive] at hnext
      cases hnext
    · rintro rfl
      rw [hinactive] at hsystem
      cases hsystem

theorem Alike.member_iff (h : Alike next system) (s : ℕ) : next.Member s ↔ system.Member s := by
  have hraw : next.Raw s ↔ system.Raw s := exists_congr fun x ↦ by rw [h.activity x]
  unfold System.Member
  rw [hraw, ne_eq, ne_eq, h.state_iff s rfl]

theorem Control.alike (h : Control system) (halike : Alike next system) : Control next where
  in_table s hs := by
    rw [ne_eq, halike.state_iff s rfl] at hs
    exact h.in_table s hs
  target_embryo x np hx := by
    rw [halike.activity] at hx
    exact (halike.state_iff np rfl).mpr (h.target_embryo x np hx)
  target_active x np hx := by
    rw [halike.activity] at hx
    rw [halike.active]
    exact h.target_active x np hx
  target_unique x y np hx hy := by
    rw [halike.activity] at hx hy
    exact h.target_unique x y np hx hy

/-- One entry is replaced by one that is alike. -/
theorem alike_set (entry : Proc) (hpgdir : entry.pgdir = (system.proc slot).pgdir)
    (hparent : entry.parent = (system.proc slot).parent)
    (hactivity : entry.activity = (system.proc slot).activity)
    (hstate : entry.state = (system.proc slot).state ∨
      entry.state.active = true ∧ (system.proc slot).state.active = true) :
    Alike (system.set slot entry) system := by
  have hproc (s : ℕ) : (system.set slot entry).proc s = if s = slot then entry else system.proc s :=
    Function.update_apply _ _ _ _
  constructor <;> first | rfl | intro s
  all_goals
    by_cases hs : s = slot
    · subst hs
      rw [hproc, if_pos rfl]
      assumption
    · simp [hproc, hs]

theorem alike_wakeup1 (system : System) (chan : Option Chan) :
    Alike (system.wakeup1 chan) system := by
  have hproc (s : ℕ) : (system.wakeup1 chan).proc s =
      if (system.proc s).state = .sleeping ∧ (system.proc s).chan = chan then
        { system.proc s with state := .runnable } else system.proc s := rfl
  constructor <;> first | rfl | intro s
  all_goals
    rw [hproc]
    split
    next hsleeping => simp [hsleeping.1, ProcState.active]
    next => simp

theorem Alike.trans {first second third : System} (h : Alike first second)
    (h' : Alike second third) : Alike first third where
  pgdir s := (h.pgdir s).trans (h'.pgdir s)
  parent s := (h.parent s).trans (h'.parent s)
  activity s := (h.activity s).trans (h'.activity s)
  state s := by
    rcases h.state s with heq | ⟨hfirst, hsecond⟩
    · rw [heq]
      exact h'.state s
    · rw [h'.active s] at hsecond
      exact Or.inr ⟨hfirst, hsecond⟩
  initproc := h.initproc.trans h'.initproc
  allocated := h.allocated.trans h'.allocated

theorem alike_setPages (system : System) (dir : Ptr) (present : ℕ → Bool) :
    Alike (system.setPages dir present) system :=
  ⟨fun _ ↦ rfl, fun _ ↦ rfl, fun _ ↦ rfl, fun _ ↦ Or.inl rfl, rfl, rfl⟩

theorem alike_kill (system : System) (pid : Word) : Alike (system.kill pid) system := by
  unfold System.kill
  split
  · exact ⟨fun _ ↦ rfl, fun _ ↦ rfl, fun _ ↦ rfl, fun _ ↦ Or.inl rfl, rfl, rfl⟩
  next slot hfound =>
    dsimp only
    refine alike_set _ rfl rfl rfl ?_
    dsimp only
    split
    next hsleeping => exact Or.inr ⟨rfl, by rw [hsleeping]; rfl⟩
    next => exact Or.inl rfl

theorem alike_growproc {n : Word} {round : ℕ → Round}
    (h : system.growproc slot n round = some next) : Alike next system := by
  have hgrown (result : Word × (ℕ → Bool)) :
      Alike (if result.1 = 0 then system.setPages (system.proc slot).pgdir result.2
        else (system.setPages (system.proc slot).pgdir result.2).set slot
          { system.proc slot with sz := result.1 }) system := by
    split
    · exact alike_setPages system _ _
    · refine Alike.trans ?_ (alike_setPages system (system.proc slot).pgdir result.2)
      exact alike_set _ rfl rfl rfl (Or.inl rfl)
  unfold System.growproc at h
  dsimp only at h
  split at h
  · obtain ⟨result, -, rfl⟩ := Option.map_eq_some_iff.mp h
    exact hgrown result
  · split at h
    · cases h
      exact hgrown _
    · cases h
      exact ⟨fun _ ↦ rfl, fun _ ↦ rfl, fun _ ↦ rfl, fun _ ↦ Or.inl rfl, rfl, rfl⟩

/-! ## Making an entry -/

theorem active_of_running (hrunning : (system.proc slot).state = .running) :
    (system.proc slot).state.active = true := by
  rw [hrunning]
  rfl

theorem System.ne_of_active (hactive : (system.proc slot).state.active = true)
    (hinactive : (system.proc np).state.active = false) : np ≠ slot := by
  rintro rfl
  rw [hactive] at hinactive
  cases hinactive

/-- A part of `fork` or `clone`: the caller goes on to `activity`, and `np` becomes `entry`. -/
structure Edit (next system : System) (slot np : ℕ) (activity : Activity) (entry : Proc) :
    Prop where
  ne : np ≠ slot
  slot_proc : next.proc slot = { system.proc slot with activity := activity }
  np_proc : next.proc np = entry
  other_proc : ∀ s, s ≠ slot → s ≠ np → next.proc s = system.proc s
  initproc : next.initproc = system.initproc
  keeps : entry.activity = (system.proc np).activity

variable {activity : Activity} {entry : Proc}

theorem edit_set (entry : Proc) (hne : np ≠ slot)
    (hkeeps : entry.activity = (system.proc np).activity) :
    Edit ((system.set np entry).setActivity slot activity) system slot np activity entry where
  ne := hne
  slot_proc := by simp [System.setActivity, System.set, hne.symm]
  np_proc := by simp [System.setActivity, System.set, hne]
  other_proc s hslot hnp := by simp [System.setActivity, System.set, hslot, hnp]
  initproc := rfl
  keeps := hkeeps

theorem Edit.of_proc (h : Edit next system slot np activity entry) {final : System}
    (hproc : final.proc = next.proc) (hinit : final.initproc = next.initproc) :
    Edit final system slot np activity entry where
  ne := h.ne
  slot_proc := by rw [hproc, h.slot_proc]
  np_proc := by rw [hproc, h.np_proc]
  other_proc s hslot hnp := by rw [hproc, h.other_proc s hslot hnp]
  initproc := hinit.trans h.initproc
  keeps := h.keeps

/-- Apart from its activity, an entry other than `np` stays as it is. -/
theorem Edit.proc_of_ne (h : Edit next system slot np activity entry) {s : ℕ} (hs : s ≠ np) :
    (next.proc s).pgdir = (system.proc s).pgdir ∧ (next.proc s).parent = (system.proc s).parent ∧
      (next.proc s).state = (system.proc s).state := by
  by_cases hslot : s = slot
  · rw [hslot, h.slot_proc]
    exact ⟨rfl, rfl, rfl⟩
  · rw [h.other_proc s hslot hs]
    exact ⟨rfl, rfl, rfl⟩

theorem Edit.activity_of_ne (h : Edit next system slot np activity entry) {s : ℕ}
    (hs : s ≠ slot) : (next.proc s).activity = (system.proc s).activity := by
  by_cases hnp : s = np
  · rw [hnp, h.np_proc, h.keeps]
  · rw [h.other_proc s hs hnp]

theorem Edit.activity_slot (h : Edit next system slot np activity entry) :
    (next.proc slot).activity = activity := by
  rw [h.slot_proc]

/-- The entries that are made in the next state, if the call goes on with `np` or ends. -/
theorem Edit.target_iff (h : Edit next system slot np activity entry) {x other : ℕ} :
    (next.proc x).activity.target = some other ↔
      x = slot ∧ activity.target = some other ∨
        x ≠ slot ∧ (system.proc x).activity.target = some other := by
  by_cases hx : x = slot
  · rw [hx, h.activity_slot]
    simp
  · rw [h.activity_of_ne hx]
    simp [hx]

theorem Edit.raw_iff (h : Edit next system slot np activity entry) {x other : ℕ} :
    (next.proc x).activity.raw = some other ↔
      x = slot ∧ activity.raw = some other ∨
        x ≠ slot ∧ (system.proc x).activity.raw = some other := by
  by_cases hx : x = slot
  · rw [hx, h.activity_slot]
    simp
  · rw [h.activity_of_ne hx]
    simp [hx]

/-- The call makes no entry but `np`, which is an embryo afterwards if it still makes it, and
nobody but the caller makes `np`. -/
theorem Control.edit (h : Control system) (hedit : Edit next system slot np activity entry)
    (hactive : (system.proc slot).state.active = true)
    (hinactive : (system.proc np).state.active = false) (htable : np < nproc)
    (hothers : ∀ x, x ≠ slot → (system.proc x).activity.target ≠ some np)
    (htarget : ∀ other, activity.target = some other → other = np ∧ entry.state = .embryo) :
    Control next := by
  have hkept {q : ℕ} (hq : (system.proc q).state.active = true) :
      (next.proc q).state.active = true := by
    rw [(hedit.proc_of_ne (System.ne_of_active hq hinactive).symm).2.2]
    exact hq
  constructor
  · intro s hs
    by_cases hnp : s = np
    · rw [hnp]
      exact htable
    · rw [(hedit.proc_of_ne hnp).2.2] at hs
      exact h.in_table s hs
  · intro x other hx
    rcases hedit.target_iff.mp hx with ⟨-, hother⟩ | ⟨hslot, hother⟩
    · obtain ⟨rfl, hembryo⟩ := htarget other hother
      rw [hedit.np_proc, hembryo]
    · have hne : other ≠ np := by
        rintro rfl
        exact hothers x hslot hother
      rw [(hedit.proc_of_ne hne).2.2]
      exact h.target_embryo x other hother
  · intro x other hx
    rcases hedit.target_iff.mp hx with ⟨rfl, -⟩ | ⟨-, hother⟩
    · exact hkept hactive
    · exact hkept (h.target_active x other hother)
  · intro x y other hx hy
    rcases hedit.target_iff.mp hx with ⟨rfl, hfirst⟩ | ⟨hslotX, hfirst⟩
    · rcases hedit.target_iff.mp hy with ⟨rfl, -⟩ | ⟨hslotY, hsecond⟩
      · rfl
      · rw [(htarget other hfirst).1] at hsecond
        exact absurd hsecond (hothers y hslotY)
    · rcases hedit.target_iff.mp hy with ⟨rfl, hsecond⟩ | ⟨-, hsecond⟩
      · rw [(htarget other hsecond).1] at hfirst
        exact absurd hfirst (hothers x hslotX)
      · exact h.target_unique x y other hfirst hsecond

theorem Edit.member_raw_iff (h : Edit next system slot np activity entry) (s : ℕ) :
    next.Raw s ↔ activity.raw = some s ∨ ∃ x, x ≠ slot ∧ (system.proc x).activity.raw = some s := by
  constructor
  · rintro ⟨x, hx⟩
    rcases h.raw_iff.mp hx with ⟨-, hraw⟩ | ⟨hslot, hraw⟩
    · exact Or.inl hraw
    · exact Or.inr ⟨x, hslot, hraw⟩
  · rintro (hraw | ⟨x, hslot, hraw⟩)
    · exact ⟨slot, h.raw_iff.mpr (Or.inl ⟨rfl, hraw⟩)⟩
    · exact ⟨x, h.raw_iff.mpr (Or.inr ⟨hslot, hraw⟩)⟩

/-- An entry other than `np` is a member as before. -/
theorem Edit.member_iff (h : Edit next system slot np activity entry) {s : ℕ} (hs : s ≠ np)
    (hnew : ∀ other, activity.raw = some other → other = np)
    (hold : ∀ other, (system.proc slot).activity.raw = some other → other = np) :
    next.Member s ↔ system.Member s := by
  have hraw : next.Raw s ↔ system.Raw s := by
    rw [h.member_raw_iff]
    constructor
    · rintro (hraw | ⟨x, -, hraw⟩)
      · exact absurd (hnew s hraw) hs
      · exact ⟨x, hraw⟩
    · rintro ⟨x, hraw⟩
      refine Or.inr ⟨x, ?_, hraw⟩
      rintro rfl
      exact hs (hold s hraw)
  unfold System.Member
  rw [hraw, (h.proc_of_ne hs).2.2]

/-- The entry that a call makes, as long as it is not finished. -/
theorem Control.target_spec (h : Control system)
    (htarget : (system.proc slot).activity.target = some np) :
    np ≠ slot ∧ (system.proc np).state.active = false ∧ np < nproc ∧
      ∀ x, x ≠ slot → (system.proc x).activity.target ≠ some np := by
  have hembryo := h.target_embryo slot np htarget
  have hinactive : (system.proc np).state.active = false := by
    rw [hembryo]
    rfl
  refine ⟨System.ne_of_active (h.target_active slot np htarget) hinactive, hinactive, ?_, ?_⟩
  · apply h.in_table
    rw [hembryo]
    decide
  · intro x hx hother
    exact hx (h.target_unique x slot np hother htarget)

theorem edit_adopt (hne : np ≠ slot) (dir : Ptr) :
    Edit (system.adopt slot np dir) system slot np (.finishing np) { system.proc np with
      pgdir := dir, sz := (system.proc slot).sz, parent := some slot } :=
  edit_set _ hne rfl

end OS537.Threads
