import OS537.Base.Bytes
import OS537.Base.Scan

/-!
# The process table with threads

`4/xv6/change/proc.c`: `fork`, `clone`, `exit` and `wait` over the process table, with the
scheduling of the file. `fork` and `clone` hold `ptable.lock` only in `allocproc`, so calls of other
processes may come between their parts; where a process is in such a call is its `activity`. What
`exit` and `wait` do with the table, they do under the lock.

The assignments to `np->pgdir`, `np->sz` and `np->parent` are one part. No other process tells the
states between them apart: it would have to be the parent itself.
-/

namespace OS537.Threads

open Bytes

/-- `NPROC` -/
abbrev nproc : ℕ := 64

inductive ProcState where
  | unused
  | embryo
  | sleeping
  | runnable
  | running
  | zombie
deriving DecidableEq

inductive Chan where
  | proc (slot : ℕ)
  | other (addr : ℕ)
deriving DecidableEq

/-- The part of `fork` or `clone` that a process has reached, with its local `np`. -/
inductive Activity where
  | idle
  | forking (np : ℕ)
  | cloning (np : ℕ)
  | finishing (np : ℕ)
deriving DecidableEq

structure Proc where
  sz : Word
  pgdir : Ptr
  state : ProcState
  pid : Word
  parent : Option ℕ
  chan : Option Chan
  killed : Bool
  activity : Activity

/-- The table, the page directories that were made and not yet freed, and the user pages that are
present in a directory. -/
structure System where
  proc : ℕ → Proc
  initproc : ℕ
  nextpid : Word
  allocated : List Ptr
  pages : Ptr → ℕ → Bool

def System.set (system : System) (slot : ℕ) (entry : Proc) : System :=
  { system with proc := Function.update system.proc slot entry }

def System.setState (system : System) (slot : ℕ) (state : ProcState) : System :=
  system.set slot { system.proc slot with state := state }

def System.setPages (system : System) (dir : Ptr) (present : ℕ → Bool) : System :=
  { system with pages := Function.update system.pages dir present }

def System.setActivity (system : System) (slot : ℕ) (activity : Activity) : System :=
  system.set slot { system.proc slot with activity := activity }

/-! ## Sizes

`allocuvm` and `deallocuvm` are those of `2b/vm.c`, to which the files of `4/xv6/change` are added.
-/

/-- `USERTOP` -/
abbrev userTop : ℕ := 0xA0000

/-- The number of pages below a size, `PGROUNDUP(sz) / PGSIZE`. -/
def pageCount (size : ℕ) : ℕ := (size + 4095) / 4096

/-- What comes of one round of the loop of `allocuvm`: a page is mapped, there is no memory for the
page table (a failure of `mappages` that `allocuvm` ignores), or there is none for the page. -/
inductive Round where
  | mapped
  | noTable
  | noPage

/-- The pages from `page` on, `count` of them; `none` is the panic of `mappages`. The flag says
whether there was memory for all of them. -/
def mapLoop (round : ℕ → Round) : (count page : ℕ) → (ℕ → Bool) → Option (Bool × (ℕ → Bool))
  | 0, _, present => some (true, present)
  | count + 1, page, present =>
      match round page with
      | .noPage => some (false, present)
      | .noTable => mapLoop round count (page + 1) present
      | .mapped =>
          if present page then none
          else mapLoop round count (page + 1) (Function.update present page true)

/-- The loop of `deallocuvm`. -/
def unmap (present : ℕ → Bool) (oldsz newsz : ℕ) : ℕ → Bool := fun page ↦
  present page && !(decide (pageCount newsz ≤ page) && decide (page < pageCount oldsz))

def deallocuvm (present : ℕ → Bool) (oldsz newsz : Word) : Word × (ℕ → Bool) :=
  if newsz.toNat ≥ oldsz.toNat then (oldsz, present)
  else (newsz, unmap present oldsz.toNat newsz.toNat)

def allocuvm (round : ℕ → Round) (present : ℕ → Bool) (oldsz newsz : Word) :
    Option (Word × (ℕ → Bool)) :=
  if newsz.toNat > userTop then some (0, present)
  else if newsz.toNat < oldsz.toNat then some (oldsz, present)
  else
    let first := pageCount oldsz.toNat
    match mapLoop round (pageCount newsz.toNat - first) first present with
    | none => none
    | some (true, present) => some (newsz, present)
    | some (false, present) => some (0, (deallocuvm present newsz oldsz).2)

/-- `growproc`; a size of 0 is a failure, which leaves `proc->sz` as it was. -/
def System.growproc (system : System) (slot : ℕ) (n : Word) (round : ℕ → Round) :
    Option System :=
  let entry := system.proc slot
  let grown (result : Word × (ℕ → Bool)) : System :=
    let system := system.setPages entry.pgdir result.2
    if result.1 = 0 then system else system.set slot { entry with sz := result.1 }
  if 0 < n.toInt then
    (allocuvm round (system.pages entry.pgdir) entry.sz (entry.sz + n)).map grown
  else if n.toInt < 0 then
    some (grown (deallocuvm (system.pages entry.pgdir) entry.sz (entry.sz + n)))
  else some system

/-! ## Making processes -/

/-- The entry that `allocproc` takes. -/
def System.unusedSlot (system : System) : Option ℕ :=
  Scan.first (fun slot ↦ (system.proc slot).state = .unused) nproc

theorem unusedSlot_spec {system : System} {np : ℕ} (h : system.unusedSlot = some np) :
    np < nproc ∧ (system.proc np).state = .unused := by
  obtain ⟨hlt, hhit, -⟩ := Scan.first_eq_some_iff.mp h
  exact ⟨hlt, of_decide_eq_true hhit⟩

/-- The part of `allocproc` under the lock. -/
def System.allocproc (system : System) (p : ℕ) : System :=
  { system.set p { system.proc p with state := .embryo, pid := system.nextpid } with
    nextpid := system.nextpid + 1 }

/-- `fork` or `clone` up to the release of the lock in `allocproc`. -/
def System.begin (system : System) (slot : ℕ) (activity : ℕ → Activity) : System :=
  match system.unusedSlot with
  | none => system
  | some np => (system.allocproc np).setActivity slot (activity np)

/-- `np->state = UNUSED` and the return of -1, with the directory that `np` has then. -/
def System.giveUp (system : System) (slot np : ℕ) (dir : Ptr) : System :=
  (system.set np { system.proc np with pgdir := dir, state := .unused }).setActivity slot .idle

/-- `np->pgdir = dir`, `np->sz = proc->sz` and `np->parent = proc`. -/
def System.adopt (system : System) (slot np : ℕ) (dir : Ptr) : System :=
  (system.set np { system.proc np with
    pgdir := dir, sz := (system.proc slot).sz, parent := some slot }).setActivity slot
      (.finishing np)

/-- The part of `fork` with `copyuvm`, which returns `dir`; `none` is its panic at a page that is
not present. -/
def System.copyuvm (system : System) (slot np : ℕ) (dir : Ptr) : Option System :=
  let entry := system.proc slot
  let count := pageCount entry.sz.toNat
  if dir = 0 then some (system.giveUp slot np 0)
  else if ∀ page < count, system.pages entry.pgdir page = true then
    some ({ system.adopt slot np dir with allocated := dir :: system.allocated }.setPages dir
      fun page ↦ decide (page < count))
  else none

/-- `np->state = RUNNABLE` -/
def System.finish (system : System) (slot np : ℕ) : System :=
  (system.setState np .runnable).setActivity slot .idle

/-! ## Sleeping -/

def System.wakeup1 (system : System) (chan : Option Chan) : System :=
  { system with proc := fun slot ↦
      let entry := system.proc slot
      if entry.state = .sleeping ∧ entry.chan = chan then { entry with state := .runnable }
      else entry }

def System.sleep (system : System) (slot : ℕ) (chan : Chan) : System :=
  system.set slot { system.proc slot with chan := some chan, state := .sleeping }

def System.kill (system : System) (pid : Word) : System :=
  match Scan.first (fun slot ↦ (system.proc slot).pid = pid) nproc with
  | none => system
  | some slot =>
    let entry := system.proc slot
    system.set slot { entry with
      killed := true
      state := if entry.state = .sleeping then .runnable else entry.state }

/-! ## Exit and wait -/

/-- `p->parent = initproc` for the children of `slot`. -/
def System.reparent (system : System) (slot : ℕ) : System :=
  { system with proc := fun p ↦
      let entry := system.proc p
      if entry.parent = some slot then { entry with parent := some system.initproc } else entry }

/-- The loop of `exit`; the wakeups in it neither change parents nor zombies. -/
def System.passChildren (system : System) (slot : ℕ) : System :=
  let abandoned := Scan.first (fun p ↦
    (system.proc p).parent = some slot ∧ (system.proc p).state = .zombie) nproc
  if abandoned.isSome then (system.reparent slot).wakeup1 (some (.proc system.initproc))
  else system.reparent slot

def System.exit (system : System) (slot : ℕ) : System :=
  let woken := system.wakeup1 ((system.proc slot).parent.map Chan.proc)
  (woken.passChildren slot).setState slot .zombie

/-- The zombie that `wait` finds. -/
def System.zombieChild (system : System) (slot : ℕ) : Option ℕ :=
  Scan.first (fun p ↦ (system.proc p).parent = some slot ∧ (system.proc p).state = .zombie) nproc

def System.haveKids (system : System) (slot : ℕ) : Bool :=
  (Scan.first (fun p ↦ (system.proc p).parent = some slot) nproc).isSome

/-- `freevm` of the zombie's directory unless the zombie is a thread of the process. -/
def System.freevm (system : System) (slot p : ℕ) : System :=
  if (system.proc p).pgdir ≠ (system.proc slot).pgdir then
    { system with allocated := system.allocated.erase (system.proc p).pgdir }.setPages
      (system.proc p).pgdir fun _ ↦ false
  else system

def System.reap (system : System) (slot p : ℕ) : System :=
  (system.freevm slot p).set p { system.proc p with
    state := .unused, pid := 0, parent := none, killed := false }

/-- One scan of `wait`. -/
def System.wait (system : System) (slot : ℕ) : System :=
  match system.zombieChild slot with
  | some p => system.reap slot p
  | none =>
    if !system.haveKids slot || (system.proc slot).killed then system
    else system.sleep slot (.proc slot)

/-! ## Steps -/

inductive Call where
  | fork (slot : ℕ)
  | clone (slot : ℕ)
  | noStack (slot : ℕ)
  | copyuvm (slot : ℕ) (dir : Ptr)
  | share (slot : ℕ)
  | growproc (slot : ℕ) (n : Word) (round : ℕ → Round)
  | finish (slot : ℕ)
  | exit (slot : ℕ)
  | wait (slot : ℕ)
  | schedule (slot : ℕ)
  | yield (slot : ℕ)
  | sleep (slot addr : ℕ)
  | wakeup (chan : Chan)
  | kill (pid : Word)

/-- The process runs and is not inside `fork` or `clone`. -/
def System.Calls (system : System) (slot : ℕ) : Prop :=
  (system.proc slot).state = .running ∧ (system.proc slot).activity = .idle

instance (system : System) (slot : ℕ) : Decidable (system.Calls slot) :=
  inferInstanceAs (Decidable (_ ∧ _))

/-- One step of a process; `none` if the process is not at that place. -/
def System.step (system : System) : Call → Option System
  | .fork slot => if system.Calls slot then some (system.begin slot .forking) else none
  | .clone slot => if system.Calls slot then some (system.begin slot .cloning) else none
  -- `kalloc` finds no page for the stack
  | .noStack slot =>
      match (system.proc slot).state, (system.proc slot).activity with
      | .running, .forking np => some (system.giveUp slot np (system.proc np).pgdir)
      | .running, .cloning np => some (system.giveUp slot np (system.proc np).pgdir)
      | _, _ => none
  | .copyuvm slot dir =>
      match (system.proc slot).state, (system.proc slot).activity with
      | .running, .forking np => system.copyuvm slot np dir
      | _, _ => none
  | .share slot =>
      match (system.proc slot).state, (system.proc slot).activity with
      | .running, .cloning np => some (system.adopt slot np (system.proc slot).pgdir)
      | _, _ => none
  | .growproc slot n round =>
      if system.Calls slot then system.growproc slot n round else none
  | .finish slot =>
      match (system.proc slot).state, (system.proc slot).activity with
      | .running, .finishing np => some (system.finish slot np)
      | _, _ => none
  | .exit slot =>
      if system.Calls slot ∧ slot ≠ system.initproc then some (system.exit slot) else none
  | .wait slot => if system.Calls slot then some (system.wait slot) else none
  | .schedule slot =>
      if (system.proc slot).state = .runnable then some (system.setState slot .running) else none
  | .yield slot =>
      if (system.proc slot).state = .running then some (system.setState slot .runnable) else none
  | .sleep slot addr =>
      if (system.proc slot).state = .running then some (system.sleep slot (.other addr)) else none
  | .wakeup chan => some (system.wakeup1 (some chan))
  | .kill pid => some (system.kill pid)

/-- The entry that a step reaps with `freevm`, and the directory that it frees. -/
def System.frees (system : System) : Call → Option (ℕ × Ptr)
  | .wait slot =>
      if system.Calls slot then
        (system.zombieChild slot).bind fun p ↦
          if (system.proc p).pgdir ≠ (system.proc slot).pgdir then some (p, (system.proc p).pgdir)
          else none
      else none
  | _ => none

/-- The table before `userinit`. -/
def emptyProc : Proc := ⟨0, 0, .unused, 0, none, none, false, .idle⟩

/-- The table after `userinit`, with the directory of `setupkvm`. -/
def userinit (dir : Ptr) : System where
  proc := Function.update (fun _ ↦ emptyProc) 0
    { emptyProc with sz := 4096, pgdir := dir, state := .runnable, pid := 1 }
  initproc := 0
  nextpid := 2
  allocated := [dir]
  pages := Function.update (fun _ _ ↦ false) dir fun page ↦ page = 0

end OS537.Threads
