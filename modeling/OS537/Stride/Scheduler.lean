import OS537.Threads.Table

/-!
# The stride scheduler

`2b/proc.c` and `sys_settickets`, on one processor. `scheduler` scans the table for the process
with the least pass, adds its stride to its pass and runs it until it gives up the processor. The
local `current` of `scheduler` keeps its value from one round to the next, and is used again if no
process is `RUNNABLE`. `int` is 32 bits wide and wraps around.
-/

namespace OS537.Stride

open Bytes Threads

structure Proc where
  state : ProcState
  pid : Word
  parent : Option ℕ
  chan : Option Chan
  killed : Bool
  tickets : Word
  usage : Word
  stride : Word
  pass : Word

/-- The table, the local of `scheduler`, and the process that has the processor. -/
structure System where
  proc : ℕ → Proc
  initproc : ℕ
  nextpid : Word
  current : Option ℕ
  running : Option ℕ

def System.set (system : System) (slot : ℕ) (entry : Proc) : System :=
  { system with proc := Function.update system.proc slot entry }

/-! ## The scheduler -/

/-- `minPass` and `current` after the first `count` entries of the table. -/
def System.scan (system : System) : (count : ℕ) → Word × Option ℕ
  | 0 => (-1, system.current)
  | p + 1 =>
    let (minPass, current) := system.scan p
    if (system.proc p).state = .runnable ∧
        (minPass.toInt < 0 ∨ (system.proc p).pass.toInt < minPass.toInt) then
      ((system.proc p).pass, some p)
    else (minPass, current)

/-- The process that the next round of the loop runs. -/
def System.chosen (system : System) : Option ℕ := (system.scan nproc).2

/-- The round of the loop up to `swtch`. -/
def System.dispatch (system : System) (slot : ℕ) : System :=
  let entry := system.proc slot
  { system.set slot { entry with
      pass := entry.pass + entry.stride
      state := .running
      usage := entry.usage + 1 } with
    current := some slot
    running := some slot }

/-! ## Processes -/

def System.unusedSlot (system : System) : Option ℕ :=
  Scan.first (fun slot ↦ (system.proc slot).state = .unused) nproc

def System.allocproc (system : System) (p : ℕ) : System :=
  { system.set p { system.proc p with
      state := .embryo
      pid := system.nextpid
      tickets := 1
      pass := 0
      stride := (10000 : Word).sdiv 1 } with
    nextpid := system.nextpid + 1 }

/-- The end of `fork`. -/
def System.start (system : System) (slot np : ℕ) : System :=
  system.set np { system.proc np with parent := some slot, state := .runnable }

/-- `allocproc` finds no stack, or `fork` no memory. -/
def System.giveUp (system : System) (np : ℕ) : System :=
  system.set np { system.proc np with state := .unused }

def System.settickets (system : System) (slot : ℕ) (tix : Word) : System :=
  system.set slot { system.proc slot with tickets := tix, stride := (10000 : Word).sdiv tix }

def System.wakeup1 (system : System) (chan : Option Chan) : System :=
  { system with proc := fun slot ↦
      let entry := system.proc slot
      if entry.state = .sleeping ∧ entry.chan = chan then { entry with state := .runnable }
      else entry }

/-- The process gives up the processor in the given state. -/
def System.leave (system : System) (slot : ℕ) (entry : Proc) : System :=
  { system.set slot entry with running := none }

def System.yield (system : System) (slot : ℕ) : System :=
  system.leave slot { system.proc slot with state := .runnable }

def System.sleep (system : System) (slot : ℕ) (chan : Chan) : System :=
  system.leave slot { system.proc slot with chan := some chan, state := .sleeping }

def System.kill (system : System) (pid : Word) : System :=
  match Scan.first (fun slot ↦ (system.proc slot).pid = pid) nproc with
  | none => system
  | some slot =>
    let entry := system.proc slot
    system.set slot { entry with
      killed := true
      state := if entry.state = .sleeping then .runnable else entry.state }

def System.reparent (system : System) (slot : ℕ) : System :=
  { system with proc := fun p ↦
      let entry := system.proc p
      if entry.parent = some slot then { entry with parent := some system.initproc } else entry }

def System.passChildren (system : System) (slot : ℕ) : System :=
  let abandoned := Scan.first (fun p ↦
    (system.proc p).parent = some slot ∧ (system.proc p).state = .zombie) nproc
  if abandoned.isSome then (system.reparent slot).wakeup1 (some (.proc system.initproc))
  else system.reparent slot

def System.exit (system : System) (slot : ℕ) : System :=
  let system := (system.wakeup1 ((system.proc slot).parent.map Chan.proc)).passChildren slot
  system.leave slot { system.proc slot with state := .zombie }

def System.zombieChild (system : System) (slot : ℕ) : Option ℕ :=
  Scan.first (fun p ↦ (system.proc p).parent = some slot ∧ (system.proc p).state = .zombie) nproc

def System.haveKids (system : System) (slot : ℕ) : Bool :=
  (Scan.first (fun p ↦ (system.proc p).parent = some slot) nproc).isSome

def System.reap (system : System) (p : ℕ) : System :=
  system.set p { system.proc p with state := .unused, pid := 0, parent := none, killed := false }

def System.wait (system : System) (slot : ℕ) : System :=
  match system.zombieChild slot with
  | some p => system.reap p
  | none =>
    if !system.haveKids slot || (system.proc slot).killed then system
    else system.sleep slot (.proc slot)

/-! ## Steps -/

inductive Call where
  | dispatch
  | allocproc
  | start (np : ℕ)
  | giveUp (np : ℕ)
  | settickets (tix : Word)
  | yield
  | sleep (addr : ℕ)
  | exit
  | wait
  | kill (pid : Word)
  | wakeup (chan : Chan)
deriving DecidableEq

/-- One step. All but the scheduler and the wakeups of interrupts are made by the process that has
the processor; `none` is a step that is not possible, a division by zero, the panic of `initproc`
exiting, or the use of `current` before it has a value. -/
def System.step (system : System) (call : Call) : Option System :=
  match call, system.running with
  | .dispatch, none => system.chosen.map system.dispatch
  | .wakeup chan, _ => some (system.wakeup1 (some chan))
  | .allocproc, some _ => some (system.unusedSlot.elim system system.allocproc)
  | .start np, some slot =>
      if (system.proc np).state = .embryo then some (system.start slot np) else none
  | .giveUp np, some _ =>
      if (system.proc np).state = .embryo then some (system.giveUp np) else none
  | .settickets tix, some slot =>
      if tix = 0 then none else some (system.settickets slot tix)
  | .yield, some slot => some (system.yield slot)
  | .sleep addr, some slot => some (system.sleep slot (.other addr))
  | .exit, some slot => if slot = system.initproc then none else some (system.exit slot)
  | .wait, some slot => some (system.wait slot)
  | .kill pid, some _ => some (system.kill pid)
  | _, _ => none

def emptyProc : Proc := ⟨.unused, 0, none, none, false, 0, 0, 0, 0⟩

/-- The table after `userinit`. -/
def userinit : System where
  proc := Function.update (fun _ ↦ emptyProc) 0
    { emptyProc with state := .runnable, pid := 1, tickets := 1, stride := 10000 }
  initproc := 0
  nextpid := 2
  current := none
  running := none

end OS537.Stride
