import OS537.Base.Family
import OS537.Threads.Steps

/-!
# Who frees a page directory

The entries of the process table are a family below `initproc`: an entry hangs on its parent, and
its group is its page directory. `wait` frees the directory of a zombie that does not follow its
parent, that is, of the founder of a group. This is right as long as nobody hangs on a zombie and
the founder is the last one of its group. It goes wrong when a process exits before its threads:
`exit` hangs them on `initproc`, where each of them is taken for the founder of a group.
-/

namespace OS537.Threads

open Bytes Families

/-- A directory is freed that was made and not yet freed, and no other entry in use has it. -/
def OwnedFree (system : System) (call : Call) : Prop :=
  ∀ p dir, system.frees call = some (p, dir) → dir ∈ system.allocated ∧
    ∀ slot, slot ≠ p → (system.proc slot).state ≠ .unused → (system.proc slot).pgdir ≠ dir

/-- `kalloc` returns no page that is in use as a directory. -/
def Fresh (system : System) : Call → Prop
  | .copyuvm _ dir => dir ∉ system.allocated
  | _ => True

/-- Nobody exits before its threads, the threads of `initproc` apart; and an entry that is not yet
set up has the directory of its maker or one that nobody else has. -/
def Tame (system : System) : Call → Prop
  | .fork slot => ∀ np, system.unusedSlot = some np →
      (system.proc np).pgdir = (system.proc slot).pgdir ∨ ∀ s < nproc,
        (system.proc s).state ≠ .unused → (system.proc s).pgdir ≠ (system.proc np).pgdir
  | .clone slot => ∀ np, system.unusedSlot = some np →
      (system.proc np).pgdir = (system.proc slot).pgdir ∨ ∀ s < nproc,
        (system.proc s).state ≠ .unused → (system.proc s).pgdir ≠ (system.proc np).pgdir
  | .copyuvm slot dir => ∀ s < nproc, (system.proc s).state = .embryo →
      (system.proc slot).activity ≠ .forking s → (system.proc s).pgdir ≠ dir
  | .exit slot => ∀ child < nproc, (system.proc child).parent = some slot →
      (system.proc child).state ≠ .unused → (system.proc child).pgdir = (system.proc slot).pgdir →
        (system.proc slot).pgdir = (system.proc system.initproc).pgdir
  | _ => True

instance (system : System) (call : Call) : Decidable (Fresh system call) :=
  match call with
  | .copyuvm _ dir => inferInstanceAs (Decidable (dir ∉ system.allocated))
  | .fork _ | .clone _ | .noStack _ | .share _ | .growproc _ _ _ | .finish _ | .exit _ | .wait _
  | .schedule _ | .yield _ | .sleep _ _ | .wakeup _ | .kill _ => inferInstanceAs (Decidable True)

instance (system : System) (call : Call) : Decidable (Tame system call) :=
  match call with
  | .fork slot | .clone slot => inferInstanceAs (Decidable (∀ np, system.unusedSlot = some np →
      (system.proc np).pgdir = (system.proc slot).pgdir ∨ ∀ s < nproc,
        (system.proc s).state ≠ .unused → (system.proc s).pgdir ≠ (system.proc np).pgdir))
  | .copyuvm slot dir => inferInstanceAs (Decidable (∀ s < nproc,
      (system.proc s).state = .embryo → (system.proc slot).activity ≠ .forking s →
        (system.proc s).pgdir ≠ dir))
  | .exit slot => inferInstanceAs (Decidable (∀ child < nproc,
      (system.proc child).parent = some slot → (system.proc child).state ≠ .unused →
        (system.proc child).pgdir = (system.proc slot).pgdir →
          (system.proc slot).pgdir = (system.proc system.initproc).pgdir))
  | .noStack _ | .share _ | .growproc _ _ _ | .finish _ | .wait _ | .schedule _ | .yield _
  | .sleep _ _ | .wakeup _ | .kill _ => inferInstanceAs (Decidable True)

/-! ## The invariant -/

structure Owned (system : System) : Prop extends Control system where
  family : Family system.initproc system.Member (fun s ↦ (system.proc s).parent)
    (fun s ↦ (system.proc s).pgdir)
  init_active : (system.proc system.initproc).state.active = true
  parent_active : ∀ s q, (system.proc s).parent = some q → (system.proc q).state.active = true
  member_allocated : ∀ s, system.Member s → (system.proc s).pgdir ∈ system.allocated
  leftover : ∀ x np, (system.proc x).activity.raw = some np →
    (system.proc np).pgdir = (system.proc x).pgdir ∨
      ∀ s, system.Member s → (system.proc s).pgdir ≠ (system.proc np).pgdir

variable {system next : System} {slot np p : ℕ}

/-- Nobody hangs on an entry that is not active. -/
theorem Owned.no_children (h : Owned system) (hinactive : (system.proc slot).state.active = false)
    (child : ℕ) : (system.proc child).parent ≠ some slot := by
  intro hparent
  rw [h.parent_active child slot hparent] at hinactive
  cases hinactive

/-- The founder of a group that is a zombie is the only entry in use with its directory. -/
theorem Owned.zombie_alone (h : Owned system) (hzombie : (system.proc p).state = .zombie)
    (hparent : (system.proc p).parent = some slot)
    (hdir : (system.proc p).pgdir ≠ (system.proc slot).pgdir) {s : ℕ} (hs : s ≠ p)
    (hused : (system.proc s).state ≠ .unused) : (system.proc s).pgdir ≠ (system.proc p).pgdir := by
  have hfounder : ¬ Follows (fun s ↦ (system.proc s).parent) (fun s ↦ (system.proc s).pgdir) p := by
    rintro ⟨above, habove, heq⟩
    have hsame : some above = some slot := habove.symm.trans hparent
    cases hsame
    exact hdir heq.symm
  have hinactive : (system.proc p).state.active = false := by
    rw [hzombie]
    rfl
  have hleaf := h.no_children hinactive
  have halone {y : ℕ} (hy : system.Member y) (heq : (system.proc y).pgdir = (system.proc p).pgdir) :
      y = p := h.family.alone (h.member_of_zombie hzombie) hfounder hleaf hy heq
  intro heq
  by_cases hraw : system.Raw s
  · obtain ⟨x, hx⟩ := hraw
    rcases h.leftover x s hx with hmaker | hothers
    · have hactive := h.target_active x s (Activity.target_of_raw hx)
      have hmakerEq := halone (h.member_of_active hactive) (hmaker.symm.trans heq)
      rw [hmakerEq, hzombie] at hactive
      cases hactive
    · exact hothers p (h.member_of_zombie hzombie) heq.symm
  · exact hs (halone ⟨hused, hraw⟩ heq)

/-- What `wait` frees is owned by the zombie alone. -/
theorem Owned.ownedFree (h : Owned system) (call : Call) : OwnedFree system call := by
  intro p dir hfrees
  cases call with
  | wait slot =>
    rw [System.frees] at hfrees
    split at hfrees
    next hcalls =>
      obtain ⟨zombie, hchild, hdir⟩ := Option.bind_eq_some_iff.mp hfrees
      obtain ⟨hparent, hzombie⟩ := zombieChild_spec hchild
      split at hdir
      next hne =>
        cases hdir
        exact ⟨h.member_allocated _ (h.member_of_zombie hzombie),
          fun s hs hused ↦ h.zombie_alone hzombie hparent hne hs hused⟩
      next => cases hdir
    next => cases hfrees
  | _ => cases hfrees

/-! ## Steps that leave directories and parents alone -/

theorem Owned.alike (h : Owned system) (halike : Alike next system) : Owned next where
  toControl := h.toControl.alike halike
  family := by
    have hmember : next.Member = system.Member := funext fun s ↦ propext (halike.member_iff s)
    simp only [halike.pgdir, halike.parent, halike.initproc, hmember]
    exact h.family
  init_active := by
    rw [halike.initproc, halike.active]
    exact h.init_active
  parent_active s q hq := by
    rw [halike.parent] at hq
    rw [halike.active]
    exact h.parent_active s q hq
  member_allocated s hs := by
    rw [halike.pgdir, halike.allocated]
    exact h.member_allocated s ((halike.member_iff s).mp hs)
  leftover x np hx := by
    rw [halike.activity] at hx
    simp only [halike.pgdir, halike.member_iff]
    exact h.leftover x np hx

end OS537.Threads
