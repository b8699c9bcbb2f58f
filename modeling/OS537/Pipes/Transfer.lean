import OS537.Base.Bytes
import OS537.Base.Interleave

/-!
# Pipes

Processes share a pipe of xv6. `pipewrite` and `piperead` hold the lock of the pipe from one `sleep`
to the next, so a step is what a process does from a call or a wakeup to its next `sleep` or its
return. The counters are 32-bit words that run around, and the bytes stand in a ring of 512.
-/

namespace OS537.Pipes

open Bytes Run Interleave

/-! ## The code -/

structure Pipe where
  data : ℕ → Byte
  nread : Word
  nwrite : Word
  readopen : Bool
  writeopen : Bool

/-- What a process does in the pipe. A writer is at index `i` and has `bytes` left. -/
inductive Task where
  | idle
  | write (i : ℕ) (bytes : List Byte)
  | read (n : ℕ)
deriving DecidableEq

/-- The task is at the write end, or at the read end. -/
def Task.uses (writable : Bool) : Task → Bool
  | .idle => false
  | .write _ _ => writable
  | .read _ => !writable

/-- `result` is what the last call returned. -/
structure Proc where
  task : Task
  sleeping : Bool
  killed : Bool
  result : ℤ

/-- One of the `NPROC` processes. -/
abbrev Slot := Fin 64

/-- The last two fields are the history: the bytes that were written and that were read. -/
structure System where
  pipe : Pipe
  procs : Slot → Proc
  written : List Byte
  taken : List Byte

def Pipe.full (p : Pipe) : Bool := p.nwrite = p.nread + 512

def Pipe.empty (p : Pipe) : Bool := p.nread = p.nwrite

def Pipe.isOpen (p : Pipe) (writable : Bool) : Bool := if writable then p.writeopen else p.readopen

def Pipe.put (p : Pipe) (byte : Byte) : Pipe :=
  { p with data := Function.update p.data (p.nwrite.toNat % 512) byte, nwrite := p.nwrite + 1 }

/-- The loop of `pipewrite` up to where it finds the pipe full; the result has the bytes left. -/
def fill : List Byte → Pipe → Pipe × List Byte
  | [], p => (p, [])
  | byte :: rest, p => if p.full then (p, byte :: rest) else fill rest (p.put byte)

/-- The second loop of `piperead`. -/
def drain : ℕ → Pipe → Pipe × List Byte
  | 0, p => (p, [])
  | n + 1, p =>
    if p.empty then (p, [])
    else
      let result := drain n { p with nread := p.nread + 1 }
      (result.1, p.data (p.nread.toNat % 512) :: result.2)

/-- `wakeup(&p->nwrite)` for the write end and `wakeup(&p->nread)` for the read end. -/
def wakeup (writable : Bool) (procs : Slot → Proc) : Slot → Proc := fun slot ↦
  if (procs slot).task.uses writable then { procs slot with sleeping := false } else procs slot

def sleep (procs : Slot → Proc) (slot : Slot) (task : Task) : Slot → Proc :=
  Function.update procs slot { procs slot with task, sleeping := true }

def finish (procs : Slot → Proc) (slot : Slot) (result : ℤ) : Slot → Proc :=
  Function.update procs slot { procs slot with task := .idle, sleeping := false, result }

def pipewrite (s : System) (slot : Slot) (i : ℕ) (bytes : List Byte) : System :=
  let result := fill bytes s.pipe
  { s with
    pipe := result.1
    written := s.written ++ bytes.take (bytes.length - result.2.length)
    procs :=
      if result.2 = [] then finish (wakeup false s.procs) slot (i + bytes.length)
      else if ¬ s.pipe.readopen ∨ (s.procs slot).killed then finish s.procs slot (-1)
      else sleep (wakeup false s.procs) slot
        (.write (i + bytes.length - result.2.length) result.2) }

def piperead (s : System) (slot : Slot) (n : ℕ) : System :=
  if s.pipe.empty ∧ s.pipe.writeopen then
    { s with procs :=
        if (s.procs slot).killed then finish s.procs slot (-1)
        else sleep s.procs slot (.read n) }
  else
    let result := drain n s.pipe
    { s with
      pipe := result.1
      taken := s.taken ++ result.2
      procs := finish (wakeup true s.procs) slot result.2.length }

/-- A process goes on after a wakeup. -/
def resume (s : System) (slot : Slot) : System :=
  match (s.procs slot).task with
  | .idle => s
  | .write i bytes => pipewrite s slot i bytes
  | .read n => piperead s slot n

def pipeclose (s : System) (writable : Bool) : System :=
  if writable then
    { s with pipe := { s.pipe with writeopen := false }, procs := wakeup false s.procs }
  else { s with pipe := { s.pipe with readopen := false }, procs := wakeup true s.procs }

def kill (s : System) (slot : Slot) : System :=
  { s with
    procs := Function.update s.procs slot
      { s.procs slot with killed := true, sleeping := false } }

/-- A process calls, goes on or is killed, or the last descriptor of an end is closed. -/
inductive Action where
  | write (bytes : List Byte)
  | read (n : ℕ)
  | resume
  | kill
  | close (writable : Bool)

def perform (s : System) (slot : Slot) : Action → System
  | .write bytes => pipewrite s slot 0 bytes
  | .read n => piperead s slot n
  | .resume => resume s slot
  | .kill => kill s slot
  | .close writable => pipeclose s writable

/-- A descriptor in use is not closed. -/
def enabled (s : System) (slot : Slot) : Action → Bool
  | .write _ => (s.procs slot).task = .idle && s.pipe.writeopen
  | .read _ => (s.procs slot).task = .idle && s.pipe.readopen
  | .resume => !(s.procs slot).sleeping
  | .kill => true
  | .close writable => s.pipe.isOpen writable && ∀ slot, !(s.procs slot).task.uses writable

def step (s : System) (move : Slot × Action) : Option System :=
  if enabled s move.1 move.2 then some (perform s move.1 move.2) else none

/-- What `pipealloc` makes. -/
def System.initial (data : ℕ → Byte) : System :=
  ⟨⟨data, 0, 0, true, true⟩, fun _ ↦ ⟨.idle, false, false, 0⟩, [], []⟩

variable {p : Pipe} {s s' : System} {slot : Slot}

/-! ## The ring -/

def Pipe.count (p : Pipe) : ℕ := (p.nwrite - p.nread).toNat

/-- The bytes in the pipe, oldest first. -/
def Pipe.contents (p : Pipe) : List Byte :=
  (List.range p.count).map fun i ↦ p.data ((p.nread.toNat + i) % 512)

@[simp] theorem length_contents : p.contents.length = p.count := by simp [Pipe.contents]

theorem full_iff (h : p.count ≤ 512) : p.full ↔ p.count = 512 := by
  simp only [Pipe.full, Pipe.count, decide_eq_true_eq] at *
  bv_omega

theorem empty_iff : p.empty ↔ p.count = 0 := by
  simp only [Pipe.empty, Pipe.count, decide_eq_true_eq]
  bv_omega

theorem contents_put (h : p.count < 512) (byte : Byte) :
    (p.put byte).contents = p.contents ++ [byte] := by
  have hcount : (p.put byte).count = p.count + 1 := by
    simp only [Pipe.put, Pipe.count] at *
    bv_omega
  have hend : p.nwrite.toNat % 512 = (p.nread.toNat + p.count) % 512 := by
    simp only [Pipe.count] at *
    bv_omega
  rw [Pipe.contents, hcount, List.range_succ, List.map_append, Pipe.contents]
  congr 1
  · refine List.map_congr_left fun i hi ↦ Function.update_of_ne ?_ _ _
    have hlt := List.mem_range.mp hi
    change (p.nread.toNat + i) % 512 ≠ _
    omega
  · simp [Pipe.put, hend]

theorem contents_drop (h : ¬ p.empty) :
    p.contents = p.data (p.nread.toNat % 512) ::
      Pipe.contents { p with nread := p.nread + 1 } := by
  have hcount : p.count = Pipe.count { p with nread := p.nread + 1 } + 1 := by
    simp only [Pipe.empty, Pipe.count, decide_eq_true_eq] at *
    bv_omega
  rw [Pipe.contents, hcount, List.range_succ_eq_map, List.map_cons, List.map_map, Pipe.contents]
  refine congrArg₂ List.cons rfl (List.map_congr_left fun i _ ↦ congrArg p.data ?_)
  bv_omega

/-- The loop of `pipewrite` appends what it takes, and it stops at a full pipe only. -/
theorem fill_spec (bytes : List Byte) (h : p.count ≤ 512) :
    ∃ taken, bytes = taken ++ (fill bytes p).2 ∧
      (fill bytes p).1.contents = p.contents ++ taken ∧ (fill bytes p).1.count ≤ 512 ∧
      ((fill bytes p).2 ≠ [] → (fill bytes p).1.full) ∧
      ∀ writable, (fill bytes p).1.isOpen writable = p.isOpen writable := by
  induction bytes generalizing p with
  | nil => exact ⟨[], rfl, (List.append_nil _).symm, h, fun hne ↦ absurd rfl hne, fun _ ↦ rfl⟩
  | cons byte rest ih =>
    rw [fill]
    by_cases hfull : p.full
    · rw [if_pos hfull]
      exact ⟨[], rfl, (List.append_nil _).symm, h, fun _ ↦ hfull, fun _ ↦ rfl⟩
    · have hlt : p.count < 512 := lt_of_le_of_ne h (mt (full_iff h).mpr hfull)
      have hput := contents_put hlt byte
      have hcount : (p.put byte).count ≤ 512 := by
        rw [← length_contents, hput, List.length_append, length_contents]
        exact hlt
      obtain ⟨taken, hbytes, hcontents, hrest⟩ := ih hcount
      rw [if_neg hfull]
      refine ⟨byte :: taken, congrArg (List.cons byte) hbytes, ?_, hrest⟩
      rw [hcontents, hput, List.append_assoc]
      rfl

theorem drain_spec (n : ℕ) (p : Pipe) :
    p.contents = (drain n p).2 ++ (drain n p).1.contents ∧ (drain n p).1.count ≤ p.count ∧
      ∀ writable, (drain n p).1.isOpen writable = p.isOpen writable := by
  induction n generalizing p with
  | zero => exact ⟨rfl, le_rfl, fun _ ↦ rfl⟩
  | succ n ih =>
    rw [drain]
    by_cases hempty : p.empty
    · rw [if_pos hempty]
      exact ⟨rfl, le_rfl, fun _ ↦ rfl⟩
    · obtain ⟨hcontents, hcount, hrest⟩ := ih { p with nread := p.nread + 1 }
      have hdrop := contents_drop hempty
      have hless : Pipe.count { p with nread := p.nread + 1 } ≤ p.count := by
        rw [← length_contents, ← length_contents, hdrop]
        exact Nat.le_succ _
      rw [if_neg hempty, hdrop, hcontents]
      exact ⟨rfl, hcount.trans hless, hrest⟩

/-! ## Order -/

/-- The bytes that were written are those that were read and those in the pipe, in this order. -/
structure Ordered (s : System) : Prop where
  count : s.pipe.count ≤ 512
  order : s.written = s.taken ++ s.pipe.contents

theorem Ordered.pipewrite (h : Ordered s) (slot : Slot) (i : ℕ) (bytes : List Byte) :
    Ordered (pipewrite s slot i bytes) := by
  obtain ⟨taken, hbytes, hcontents, hcount, -⟩ := fill_spec bytes h.count
  have htake : bytes.take (bytes.length - (fill bytes s.pipe).2.length) = taken := by
    generalize (fill bytes s.pipe).2 = rest at hbytes ⊢
    rw [hbytes]
    simp
  refine ⟨hcount, ?_⟩
  change s.written ++ bytes.take _ = s.taken ++ (fill bytes s.pipe).1.contents
  rw [htake, hcontents, h.order, List.append_assoc]

theorem Ordered.piperead (h : Ordered s) (slot : Slot) (n : ℕ) : Ordered (piperead s slot n) := by
  unfold Pipes.piperead
  split
  · exact ⟨h.count, h.order⟩
  · obtain ⟨hcontents, hcount, -⟩ := drain_spec n s.pipe
    refine ⟨hcount.trans h.count, ?_⟩
    change s.written = s.taken ++ (drain n s.pipe).2 ++ (drain n s.pipe).1.contents
    rw [h.order, hcontents, List.append_assoc]

theorem Ordered.step {move : Slot × Action} (h : Ordered s) (hstep : step s move = some s') :
    Ordered s' := by
  obtain ⟨-, hs⟩ := Option.ite_none_right_eq_some.mp hstep
  rw [← Option.some.inj hs]
  obtain ⟨slot, bytes | n | _ | _ | writable⟩ := move
  · exact h.pipewrite slot 0 bytes
  · exact h.piperead slot n
  · change Ordered (resume s slot)
    unfold resume
    split
    exacts [h, h.pipewrite slot _ _, h.piperead slot _]
  · exact ⟨h.count, h.order⟩
  · cases writable <;> exact ⟨h.count, h.order⟩

/-- No byte is lost, duplicated or overtaken, whatever the processes do and however often the
counters run around. -/
theorem bytes_in_order (data : ℕ → Byte) {moves : List (Slot × Action)}
    (hrun : run step (.initial data) moves = some s) :
    s.written = s.taken ++ s.pipe.contents ∧ s.pipe.contents.length ≤ 512 := by
  have hinit : Ordered (.initial data) := by
    constructor <;> simp [System.initial, Pipe.contents, Pipe.count]
  have hfinal := invariant_of_run (fun _ _ _ h ↦ Ordered.step h) moves hinit hrun
  exact ⟨hfinal.order, length_contents ▸ hfinal.count⟩

theorem three_bytes_in_order :
    ∃ s, run step (.initial fun _ ↦ 0) [(0, .write [1, 2, 3]), (1, .read 2)] = some s ∧
      s.written = s.taken ++ s.pipe.contents ∧ s.pipe.contents.length ≤ 512 :=
  ⟨_, rfl, @bytes_in_order _ (fun _ ↦ 0) [(0, .write [1, 2, 3]), (1, .read 2)] rfl⟩

/-! ## Sleep -/

/-- A writer waits at a full pipe and a reader at an empty one, while the other end is open. -/
def Task.Waits (p : Pipe) : Task → Prop
  | .idle => False
  | .write _ _ => p.full ∧ p.readopen
  | .read _ => p.empty ∧ p.writeopen

structure Fine (p : Pipe) (proc : Proc) : Prop where
  alive : ¬ proc.killed
  ends : ∀ writable, proc.task.uses writable → p.isOpen writable
  waits : proc.sleeping → proc.task.Waits p

def Calm (s : System) : Prop := s.pipe.count ≤ 512 ∧ ∀ slot, Fine s.pipe (s.procs slot)

theorem fine_idle {proc : Proc} {result : ℤ} (h : ¬ proc.killed) :
    Fine p { proc with task := .idle, sleeping := false, result } :=
  ⟨h, fun _ huses ↦ (by cases huses), fun hsleeping ↦ (by cases hsleeping)⟩

/-- Under a pipe with the same open ends, a process that is not woken up goes on to wait. -/
theorem Fine.wakeup {p' : Pipe} {procs : Slot → Proc} (h : Fine p (procs slot))
    (hopen : ∀ writable, p'.isOpen writable = p.isOpen writable) (writable : Bool)
    (hwaits : (procs slot).sleeping → (procs slot).task.uses !writable →
      (procs slot).task.Waits p') : Fine p' (wakeup writable procs slot) := by
  unfold Pipes.wakeup
  split
  next hwoken =>
    exact ⟨h.alive, fun w hw ↦ (hopen w).trans (h.ends w hw), fun hsleeping ↦ by cases hsleeping⟩
  next hother =>
    refine ⟨h.alive, fun w hw ↦ (hopen w).trans (h.ends w hw), fun hsleeping ↦ hwaits hsleeping ?_⟩
    have hwaiting := h.waits hsleeping
    cases htask : (procs slot).task <;> simp_all [Task.uses, Task.Waits]

theorem fill_of_full (h : p.full) (bytes : List Byte) : fill bytes p = (p, bytes) := by
  cases bytes <;> simp [fill, h]

theorem Calm.pipewrite (h : Calm s) (hend : s.pipe.writeopen) (i : ℕ) (bytes : List Byte) :
    Calm (pipewrite s slot i bytes) := by
  obtain ⟨-, -, -, hcount, hfull, hopen⟩ := fill_spec bytes h.1
  have hwoken (other : Slot) : Fine (fill bytes s.pipe).1 (wakeup false s.procs other) := by
    refine (h.2 other).wakeup hopen false fun hsleeping huses ↦ ?_
    have hwaits := (h.2 other).waits hsleeping
    cases htask : (s.procs other).task <;> simp_all [Task.Waits, Task.uses, fill_of_full]
  have halive := (h.2 slot).alive
  unfold Pipes.pipewrite
  refine ⟨hcount, ?_⟩
  dsimp only
  split
  · exact forall_update _ (fine_idle (hwoken slot).alive) fun other _ ↦ hwoken other
  · split
    next hclosed =>
      have hclosed : s.pipe.readopen = false := by simpa [halive] using hclosed
      refine forall_update _ (fine_idle halive) fun other _ ↦ ⟨(h.2 other).alive,
        fun w hw ↦ (hopen w).trans ((h.2 other).ends w hw), fun hsleeping ↦ ?_⟩
      -- nobody reads from a closed end, and nobody waits for it
      have hwaits := (h.2 other).waits hsleeping
      have hends := (h.2 other).ends false
      cases htask : (s.procs other).task <;>
        simp_all [Task.Waits, Task.uses, Pipe.isOpen]
    next hclosed =>
      have hready : s.pipe.readopen = true := by simpa [halive] using hclosed
      refine forall_update _ ⟨(hwoken slot).alive, fun w hw ↦ ?_, fun _ ↦
        ⟨hfull ‹_›, (hopen false).trans hready⟩⟩ fun other _ ↦ hwoken other
      obtain rfl : w = true := hw
      exact (hopen true).trans hend

theorem Calm.piperead (h : Calm s) (hend : s.pipe.readopen) (n : ℕ) :
    Calm (piperead s slot n) := by
  have halive := (h.2 slot).alive
  unfold Pipes.piperead
  split
  next hwait =>
    refine ⟨h.1, forall_update _ ⟨halive, fun w hw ↦ ?_, fun _ ↦ hwait⟩ fun other _ ↦ h.2 other⟩
    obtain rfl : w = false := by simpa [Task.uses] using hw
    exact hend
  next hready =>
    obtain ⟨-, hcount, hopen⟩ := drain_spec n s.pipe
    have hwoken (other : Slot) : Fine (drain n s.pipe).1 (wakeup true s.procs other) := by
      refine (h.2 other).wakeup hopen true fun hsleeping huses ↦ ?_
      have hwaits := (h.2 other).waits hsleeping
      cases htask : (s.procs other).task <;> simp_all [Task.Waits, Task.uses]
    exact ⟨hcount.trans h.1, forall_update _ (fine_idle (hwoken slot).alive)
      fun other _ ↦ hwoken other⟩

theorem Calm.pipeclose {writable : Bool} (h : Calm s)
    (hunused : ∀ slot, ¬ (s.procs slot).task.uses writable) : Calm (pipeclose s writable) := by
  cases writable <;> refine ⟨h.1, fun other ↦ ?_⟩ <;>
    have ⟨halive, hends, hwaits⟩ := h.2 other <;> have hnot := hunused other <;>
    cases htask : (s.procs other).task <;> constructor <;>
    simp_all [Pipes.pipeclose, wakeup, Task.uses, Task.Waits, Pipe.isOpen]

theorem Calm.step {move : Slot × Action} (h : Calm s) (hkill : move.2 ≠ .kill)
    (hstep : step s move = some s') : Calm s' := by
  obtain ⟨henabled, hs⟩ := Option.ite_none_right_eq_some.mp hstep
  rw [← Option.some.inj hs]
  obtain ⟨slot, bytes | n | _ | _ | writable⟩ := move
  · exact h.pipewrite (Bool.and_eq_true_iff.mp henabled).2 0 bytes
  · exact h.piperead (Bool.and_eq_true_iff.mp henabled).2 n
  · have hends := (h.2 slot).ends
    change Calm (resume s slot)
    unfold resume
    split
    next => exact h
    next htask => exact h.pipewrite (hends true (htask ▸ rfl)) _ _
    next htask => exact h.piperead (hends false (htask ▸ rfl)) _
  · exact absurd rfl hkill
  · exact h.pipeclose (by simpa [enabled] using (Bool.and_eq_true_iff.mp henabled).2)

/-- As long as nobody is killed no wakeup is lost: who sleeps has to wait. -/
theorem sleepers_wait (data : ℕ → Byte) {moves : List (Slot × Action)}
    (hguarded : Guarded step (fun _ move ↦ move.2 ≠ .kill) (.initial data) moves)
    (hrun : run step (.initial data) moves = some s) (hsleeping : (s.procs slot).sleeping) :
    (s.procs slot).task.Waits s.pipe := by
  have hinit : Calm (.initial data) :=
    ⟨by simp [System.initial, Pipe.count], fun slot ↦
      fine_idle (show ¬ (⟨.idle, false, false, 0⟩ : Proc).killed by simp)⟩
  exact ((hguarded.invariant_of_run (fun _ _ _ h ↦ h.step) hinit hrun).2 slot).waits hsleeping

/-- A reader of an empty pipe waits. -/
theorem reader_waits : ∃ s, run step (.initial fun _ ↦ 0) [(0, .read 10)] = some s ∧
    (s.procs 0).task.Waits s.pipe := by
  have hrun : run step (.initial fun _ ↦ 0) [(0, .read 10)] =
      some (piperead (.initial fun _ ↦ 0) 0 10) := rfl
  have hguarded : Guarded step (fun _ move ↦ move.2 ≠ .kill) (.initial fun _ ↦ 0)
      [(0, .read 10)] := ⟨by simp, fun _ _ ↦ trivial⟩
  exact ⟨_, hrun, sleepers_wait _ hguarded hrun rfl⟩

/-- A writer that was killed leaves a full pipe and does not wake up the reader. -/
theorem killed_writer_strands {other : Slot} {i : ℕ} {bytes : List Byte} (hempty : s.pipe.empty)
    (hkilled : (s.procs slot).killed) (hlong : 512 < bytes.length) (hother : other ≠ slot)
    (hwrite : pipewrite s slot i bytes = s') :
    s'.pipe.full ∧ (s'.procs slot).result = -1 ∧ s'.procs other = s.procs other := by
  have hzero := empty_iff.mp hempty
  obtain ⟨taken, hbytes, hcontents, hcount, hfull, -⟩ := fill_spec bytes (p := s.pipe) (by omega)
  have hleft : (fill bytes s.pipe).2 ≠ [] := by
    intro hnil
    rw [hnil, List.append_nil] at hbytes
    rw [← length_contents, hcontents, List.length_append, length_contents, ← hbytes] at hcount
    omega
  subst hwrite
  refine ⟨hfull hleft, ?_⟩
  unfold pipewrite
  simp only [if_neg hleft, hkilled, or_true, if_true]
  exact ⟨by simp [finish], Function.update_of_ne hother _ _⟩

theorem reader_stranded : ∃ s s', run step (.initial fun _ ↦ 0) [(0, .read 10), (1, .kill)] =
    some s ∧ (s.procs 0).sleeping ∧ pipewrite s 1 0 (List.replicate 513 7) = s' ∧
    s'.pipe.full ∧ (s'.procs 1).result = -1 ∧ s'.procs 0 = s.procs 0 :=
  ⟨_, _, rfl, rfl, rfl, killed_writer_strands rfl rfl
    (by rw [List.length_replicate]; decide) (by decide) rfl⟩

end OS537.Pipes
