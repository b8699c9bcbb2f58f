import OS537.Base.Move
import OS537.Base.Run
import OS537.Threads.Table

/-!
# The stack of a new thread

`sys_clone` and `clone` of `4/xv6/change` with the trap frames and the memory of the processes: the
checks of the arguments, the two registers of the child and the copy of the caller's frame. What
`clone` does to the process table is `System.begin`, `System.adopt` and `System.finish`.

A memory belongs to a page directory, so that threads that share the directory share the memory.
Addresses are those of 32-bit code and wrap around.
-/

namespace OS537.Threads

open Bytes Move

/-- `struct trapframe` -/
structure Trapframe where
  edi : Word
  esi : Word
  ebp : Word
  oesp : Word
  ebx : Word
  edx : Word
  ecx : Word
  eax : Word
  gs : BitVec 16
  padding1 : BitVec 16
  fs : BitVec 16
  padding2 : BitVec 16
  es : BitVec 16
  padding3 : BitVec 16
  ds : BitVec 16
  padding4 : BitVec 16
  trapno : Word
  err : Word
  eip : Word
  cs : BitVec 16
  padding5 : BitVec 16
  eflags : Word
  esp : Word
  ss : BitVec 16
  padding6 : BitVec 16
deriving DecidableEq

/-- The process table, the trap frames of the processes and the memory of each directory. -/
structure Machine where
  system : System
  tf : ℕ → Trapframe
  memory : Ptr → Move.Memory

/-- `proc->sz` -/
def Machine.sz (machine : Machine) (slot : ℕ) : Word := (machine.system.proc slot).sz

def Machine.pgdir (machine : Machine) (slot : ℕ) : Ptr := (machine.system.proc slot).pgdir

/-- The byte that the process sees at an address. -/
def Machine.byte (machine : Machine) (slot : ℕ) (addr : Word) : Byte :=
  machine.memory (machine.pgdir slot) addr

/-- `*(uint *)addr` in the memory of the process. -/
def Machine.word (machine : Machine) (slot : ℕ) (addr : Word) : Word :=
  machine.byte slot (addr + 3) ++ machine.byte slot (addr + 2) ++
    machine.byte slot (addr + 1) ++ machine.byte slot addr

/-! ## The arguments -/

def Machine.fetchint (machine : Machine) (slot : ℕ) (addr : Word) : Option Word :=
  if addr.toNat ≥ (machine.sz slot).toNat ∨ (addr + 4).toNat > (machine.sz slot).toNat then none
  else some (machine.word slot addr)

def Machine.argint (machine : Machine) (slot : ℕ) (n : Word) : Option Word :=
  machine.fetchint slot ((machine.tf slot).esp + 4 + 4 * n)

def Machine.argptr (machine : Machine) (slot : ℕ) (n size : Word) : Option Word :=
  (machine.argint slot n).bind fun i ↦
    if i.toNat ≥ (machine.sz slot).toNat ∨ (i + size).toNat > (machine.sz slot).toNat then none
    else some i

/-- The stack and the size that the checks of `sys_clone` accept. -/
def Machine.cloneArgs (machine : Machine) (slot : ℕ) : Option (Word × Word) :=
  (machine.argint slot 1).bind fun size ↦
    (machine.argptr slot 0 size).map fun stack ↦ (stack, size)

/-! ## The call -/

/-- What a call returns, the machine that it leaves, and the bytes that its `memmove` moved. -/
structure Cloned where
  value : Word
  machine : Machine
  moves : List (Word × Word)

/-- `stackSize` -/
def Machine.stackSize (machine : Machine) (slot : ℕ) : Word :=
  machine.word slot (machine.tf slot).ebp - (machine.tf slot).esp

/-- `topSize` -/
def Machine.topSize (machine : Machine) (slot : ℕ) : Word :=
  machine.word slot (machine.tf slot).ebp - (machine.tf slot).ebp

/-- `*np->tf` -/
def Machine.childFrame (machine : Machine) (slot : ℕ) (stack size : Word) : Trapframe :=
  { machine.tf slot with
    eax := 0
    esp := stack + size - machine.stackSize slot
    ebp := stack + size - machine.topSize slot }

/-- The copy of the caller's frame. -/
def Machine.copyFrame (machine : Machine) (slot : ℕ) (stack size : Word) : Traced :=
  memmove (machine.childFrame slot stack size).esp (machine.tf slot).esp (machine.stackSize slot)
    ⟨machine.memory (machine.pgdir slot), []⟩

/-- `clone`; `kstack` says whether `kalloc` finds a page in `allocproc`. -/
def Machine.clone (machine : Machine) (slot : ℕ) (kstack : Bool) (stack size : Word) : Cloned :=
  match machine.system.unusedSlot with
  | none => ⟨-1, machine, []⟩
  | some np =>
    let begun := machine.system.begin slot .cloning
    if kstack then
      let copy := machine.copyFrame slot stack size
      { value := (begun.proc np).pid
        machine :=
          { system := (begun.adopt slot np (begun.proc slot).pgdir).finish slot np
            tf := Function.update machine.tf np (machine.childFrame slot stack size)
            memory := Function.update machine.memory (machine.pgdir slot) copy.memory }
        moves := copy.moves }
    else ⟨-1, { machine with system := begun.giveUp slot np (begun.proc np).pgdir }, []⟩

def Machine.sysClone (machine : Machine) (slot : ℕ) (kstack : Bool) : Cloned :=
  match machine.cloneArgs slot with
  | none => ⟨-1, machine, []⟩
  | some (stack, size) => machine.clone slot kstack stack size

variable {machine : Machine} {slot np : ℕ} {kstack : Bool} {stack size : Word}

/-! ## The process table -/

theorem clone_of_unusedSlot (hnp : machine.system.unusedSlot = some np) :
    machine.clone slot true stack size =
      { value := machine.system.nextpid
        machine :=
          { system := ((machine.system.begin slot .cloning).adopt slot np
              (machine.pgdir slot)).finish slot np
            tf := Function.update machine.tf np (machine.childFrame slot stack size)
            memory := Function.update machine.memory (machine.pgdir slot)
              (machine.copyFrame slot stack size).memory }
        moves := (machine.copyFrame slot stack size).moves } := by
  have hbegin : machine.system.begin slot .cloning =
      (machine.system.allocproc np).setActivity slot (.cloning np) := by
    rw [System.begin, hnp]
  have hpid : ((machine.system.begin slot .cloning).proc np).pid = machine.system.nextpid := by
    rw [hbegin]
    by_cases hsame : np = slot <;>
      simp [System.setActivity, System.set, System.allocproc, hsame]
  have hdir : ((machine.system.begin slot .cloning).proc slot).pgdir = machine.pgdir slot := by
    rw [hbegin]
    by_cases hsame : slot = np <;>
      simp [System.setActivity, System.set, System.allocproc, Machine.pgdir, hsame]
  rw [Machine.clone, hnp]
  simp only [if_true, hpid, hdir]

/-- A call of `clone` that is not interrupted takes the steps of the process table. -/
theorem clone_system_run (hcalls : machine.system.Calls slot)
    (hnp : machine.system.unusedSlot = some np) :
    Run.run System.step machine.system [.clone slot, .share slot, .finish slot] =
      some (machine.clone slot true stack size).machine.system := by
  have hne : slot ≠ np := by
    intro hsame
    have hunused := (unusedSlot_spec hnp).2
    rw [← hsame, hcalls.1] at hunused
    cases hunused
  have hbegin : machine.system.begin slot .cloning =
      (machine.system.allocproc np).setActivity slot (.cloning np) := by
    rw [System.begin, hnp]
  have hslot : (machine.system.begin slot .cloning).proc slot =
      { machine.system.proc slot with activity := .cloning np } := by
    rw [hbegin]
    simp [System.setActivity, System.set, System.allocproc, hne]
  have hclone : machine.system.step (.clone slot) = some (machine.system.begin slot .cloning) :=
    if_pos hcalls
  rw [Run.run_cons_of_step _ hclone]
  generalize hbegun : machine.system.begin slot .cloning = begun at *
  have hshare : begun.step (.share slot) = some (begun.adopt slot np (begun.proc slot).pgdir) := by
    simp [System.step, hslot, hcalls.1]
  rw [Run.run_cons_of_step _ hshare]
  have hadopted : (begun.adopt slot np (begun.proc slot).pgdir).proc slot =
      { machine.system.proc slot with activity := .finishing np } := by
    simp [System.adopt, System.setActivity, System.set, hslot, hne]
  have hfinish : (begun.adopt slot np (begun.proc slot).pgdir).step (.finish slot) =
      some ((begun.adopt slot np (begun.proc slot).pgdir).finish slot np) := by
    simp [System.step, hadopted, hcalls.1]
  rw [Run.run_cons_of_step _ hfinish, Run.run_nil, Machine.clone, hnp]
  simp [hbegun]

/-- The child runs in the memory of its parent. -/
theorem clone_child (hnp : machine.system.unusedSlot = some np) :
    (machine.clone slot true stack size).machine.pgdir np = machine.pgdir slot ∧
      ((machine.clone slot true stack size).machine.system.proc np).state = .runnable := by
  rw [clone_of_unusedSlot hnp]
  by_cases hsame : np = slot <;>
    simp [System.finish, System.setState, System.setActivity, System.set, System.adopt,
      Machine.pgdir, hsame]

/-! ## The addresses of the copy -/

theorem mem_copyFrame_moves (move : Word × Word) :
    move ∈ (machine.copyFrame slot stack size).moves ↔
      ∃ i < (machine.stackSize slot).toNat, move =
        (byteAt (machine.tf slot).esp i, byteAt (stack + size - machine.stackSize slot) i) := by
  rw [Machine.copyFrame, mem_memmove_moves]
  simp [Machine.childFrame]

/-- No address is above the last one, so a copy that reads only below `sz` does not wrap around. -/
theorem reads_below_iff {src sz : Word} {n : ℕ} (hn : 0 < n) :
    (∀ i < n, (byteAt src i).toNat < sz.toNat) ↔ src.toNat + n ≤ sz.toNat := by
  have hsz := sz.isLt
  constructor
  · intro hreads
    by_contra hover
    have hfirst := hreads 0 hn
    rw [byteAt_zero] at hfirst
    have hlast := hreads (sz.toNat - src.toNat) (by omega)
    rw [byteAt_toNat src (by omega)] at hlast
    omega
  · intro hbound i hi
    rw [byteAt_toNat src (by omega)]
    omega

/-- The last byte written is the one below `stack + size`. -/
theorem writes_within_iff {n : Word} (hn : 0 < n.toNat) :
    (∀ i < n.toNat, stack.toNat ≤ (byteAt (stack + size - n) i).toNat ∧
        ((byteAt (stack + size - n) i).toNat : ℤ) < stack.toNat + size.toInt) ↔
      (n.toNat : ℤ) ≤ size.toInt ∧ stack.toNat + size.toInt ≤ 2 ^ 32 := by
  have haddr (i : ℕ) : (byteAt (stack + size - n) i).toNat =
      (stack.toNat + size.toNat + (2 ^ 32 - n.toNat) + i) % 2 ^ 32 := by
    unfold byteAt
    rw [BitVec.toNat_add, BitVec.toNat_sub, BitVec.toNat_add, BitVec.toNat_ofNat]
    omega
  have hstack := stack.isLt
  have hsize := size.isLt
  have hword := n.isLt
  have hsigned := BitVec.toInt_eq_toNat_cond size
  constructor
  · intro hwrites
    have hlast := hwrites (n.toNat - 1) (by omega)
    rw [haddr] at hlast
    have hfits : (n.toNat : ℤ) ≤ size.toInt := by
      by_contra hover
      have hbelow := hwrites (n.toNat - size.toNat - 1) (by split at hsigned <;> omega)
      rw [haddr] at hbelow
      split at hsigned <;> omega
    refine ⟨hfits, ?_⟩
    split at hsigned <;> omega
  · intro hfits i hi
    rw [haddr]
    split at hsigned <;> omega

/-- The copy reads below `proc->sz` and writes in `[stack, stack + size)`. -/
def Cloned.Inside (result : Cloned) (sz stack size : Word) : Prop :=
  ∀ move ∈ result.moves, move.1.toNat < sz.toNat ∧ stack.toNat ≤ move.2.toNat ∧
    (move.2.toNat : ℤ) < stack.toNat + size.toInt

/-- The call returned -1 and made no process `RUNNABLE`. -/
def Cloned.Refused (result : Cloned) (before : Machine) : Prop :=
  result.value = -1 ∧ ∀ p, (result.machine.system.proc p).state = .runnable →
    (before.system.proc p).state = .runnable

/-- The caller's frame, up to the word at its base pointer, is empty, or it lies below `proc->sz`
and is not larger than the new stack. -/
def Machine.FrameFits (machine : Machine) (slot : ℕ) (stack size : Word) : Prop :=
  let frame := machine.word slot (machine.tf slot).ebp - (machine.tf slot).esp
  frame.toNat = 0 ∨ (machine.tf slot).esp.toNat + frame.toNat ≤ (machine.sz slot).toNat ∧
    (frame.toNat : ℤ) ≤ size.toInt ∧ stack.toNat + size.toInt ≤ 2 ^ 32

theorem inside_copyFrame_iff (value : Word) (after : Machine) :
    Cloned.Inside ⟨value, after, (machine.copyFrame slot stack size).moves⟩ (machine.sz slot) stack
      size ↔ machine.FrameFits slot stack size := by
  have hmoves : Cloned.Inside ⟨value, after, (machine.copyFrame slot stack size).moves⟩
      (machine.sz slot) stack size ↔
      (∀ i < (machine.stackSize slot).toNat,
        (byteAt (machine.tf slot).esp i).toNat < (machine.sz slot).toNat) ∧
      (∀ i < (machine.stackSize slot).toNat,
        stack.toNat ≤ (byteAt (stack + size - machine.stackSize slot) i).toNat ∧
          ((byteAt (stack + size - machine.stackSize slot) i).toNat : ℤ) <
            stack.toNat + size.toInt) := by
    unfold Cloned.Inside
    constructor
    · intro hinside
      have hmove (i : ℕ) (hi : i < (machine.stackSize slot).toNat) :=
        hinside _ (mem_copyFrame_moves _ |>.mpr ⟨i, hi, rfl⟩)
      exact ⟨fun i hi ↦ (hmove i hi).1, fun i hi ↦ (hmove i hi).2⟩
    · rintro ⟨hreads, hwrites⟩ move hmove
      obtain ⟨i, hi, rfl⟩ := (mem_copyFrame_moves move).mp hmove
      exact ⟨hreads i hi, hwrites i hi⟩
  rw [hmoves]
  unfold Machine.FrameFits
  rw [← Machine.stackSize]
  rcases Nat.eq_zero_or_pos (machine.stackSize slot).toNat with hzero | hpos
  · simp [hzero]
  · rw [reads_below_iff hpos, writes_within_iff hpos]
    exact (or_iff_right hpos.ne').symm

theorem clone_refused (hfails : machine.system.unusedSlot = none ∨ kstack = false) :
    (machine.clone slot kstack stack size).Refused machine := by
  unfold Machine.clone
  cases hnp : machine.system.unusedSlot with
  | none => exact ⟨rfl, fun p hp ↦ hp⟩
  | some np =>
    have hkstack : kstack = false := hfails.resolve_left (by simp [hnp])
    subst hkstack
    refine ⟨rfl, fun p hp ↦ ?_⟩
    by_cases hsame : p = np <;> by_cases hslot : p = slot <;>
      simp_all [System.giveUp, System.begin, System.setActivity, System.set, System.allocproc]

/-- A call that gets a table entry and a stack makes a process `RUNNABLE` that was not. -/
theorem not_clone_refused (hnp : machine.system.unusedSlot = some np) :
    ¬ (machine.clone slot true stack size).Refused machine := by
  rintro ⟨-, hrunnable⟩
  have hold := hrunnable np (clone_child hnp).2
  rw [(unusedSlot_spec hnp).2] at hold
  cases hold

/-- The checks of `sys_clone` say nothing of the frame that `clone` copies: the copy stays inside
the given stack exactly if that frame fits. -/
theorem sysClone_inside_iff (hargs : machine.cloneArgs slot = some (stack, size)) :
    (machine.sysClone slot kstack).Inside (machine.sz slot) stack size ∨
        (machine.sysClone slot kstack).Refused machine ↔
      machine.system.unusedSlot = none ∨ kstack = false ∨ machine.FrameFits slot stack size := by
  have hcall : machine.sysClone slot kstack = machine.clone slot kstack stack size := by
    rw [Machine.sysClone, hargs]
  rw [hcall]
  cases hnp : machine.system.unusedSlot with
  | none =>
    have hrefused : (machine.clone slot kstack stack size).Refused machine :=
      clone_refused (.inl hnp)
    simp [hrefused]
  | some np =>
    cases kstack with
    | false =>
      have hrefused : (machine.clone slot false stack size).Refused machine :=
        clone_refused (.inr rfl)
      simp [hrefused]
    | true =>
      rw [or_iff_left (not_clone_refused hnp), clone_of_unusedSlot hnp, inside_copyFrame_iff]
      simp

/-- A process whose stack pointer is `0x800` and whose base pointer is `0x810`, with the word `e`
there and the arguments of a call of `clone` on its stack. -/
def caller (e stack size : Word) : Machine where
  system := (userinit 1).setState 0 .running
  tf := fun _ ↦ ⟨0, 0, 0x810, 0, 0, 0, 0, 22, 0, 0, 0, 0, 35, 0, 35, 0, 64, 0, 0x100, 27, 0, 512,
    0x800, 35, 0⟩
  memory := fun _ addr ↦
    let byteOf (value base : Word) : Byte := (value >>> (8 * (addr - base))).setWidth 8
    if addr.toNat / 4 = 0x804 / 4 then byteOf stack 0x804
    else if addr.toNat / 4 = 0x808 / 4 then byteOf size 0x808
    else if addr.toNat / 4 = 0x810 / 4 then byteOf e 0x810
    else 0

theorem caller_sysClone_inside :
    ((caller 0x820 0x400 0x100).sysClone 0 true).Inside 4096 0x400 0x100 ∨
      ((caller 0x820 0x400 0x100).sysClone 0 true).Refused (caller 0x820 0x400 0x100) :=
  (sysClone_inside_iff (by decide)).mpr (.inr (.inr (.inr (by decide))))

/-- A stack of four bytes for a frame of 24. -/
theorem sysClone_writes_below_stack :
    (caller 0x818 0x400 4).cloneArgs 0 = some (0x400, 4) ∧
      ¬ (((caller 0x818 0x400 4).sysClone 0 true).Inside 4096 0x400 4 ∨
        ((caller 0x818 0x400 4).sysClone 0 true).Refused (caller 0x818 0x400 4)) := by
  refine ⟨by decide, ?_⟩
  rintro (hinside | hrefused)
  · have hmove := hinside (0x800, 0x3EC) (by decide)
    exact absurd hmove.2.1 (by decide)
  · exact absurd hrefused.1 (by decide)

/-! ## The frame of the child -/

/-- An address of the new stack, counted from its end. -/
theorem stackEnd_sub_toNat {n : Word} (hfits : (n.toNat : ℤ) ≤ size.toInt)
    (hspace : stack.toNat + size.toInt < 2 ^ 32) :
    ((stack + size - n).toNat : ℤ) = stack.toNat + size.toInt - n.toNat := by
  rw [BitVec.toNat_sub, BitVec.toNat_add]
  have hsigned := BitVec.toInt_eq_toNat_cond size
  have hn := n.isLt
  have hsize := size.isLt
  split at hsigned <;> omega

section Frame

variable (hbase : (machine.tf slot).esp.toNat ≤ (machine.tf slot).ebp.toNat)
  (htop : (machine.tf slot).ebp.toNat ≤ (machine.word slot (machine.tf slot).ebp).toNat)
  (hroom : ((machine.word slot (machine.tf slot).ebp).toNat : ℤ) - (machine.tf slot).esp.toNat ≤
    size.toInt)
  (hspace : stack.toNat + size.toInt ≤ (machine.sz slot).toNat)

include hbase htop

theorem stackSize_toNat : (machine.stackSize slot).toNat =
    (machine.word slot (machine.tf slot).ebp).toNat - (machine.tf slot).esp.toNat := by
  unfold Machine.stackSize
  exact BitVec.toNat_sub_of_le (BitVec.le_def.mpr (hbase.trans htop))

include hroom hspace

theorem childFrame_esp_toNat : ((machine.childFrame slot stack size).esp.toNat : ℤ) =
    stack.toNat + size.toInt -
      ((machine.word slot (machine.tf slot).ebp).toNat - (machine.tf slot).esp.toNat) := by
  have hsize := stackSize_toNat hbase htop
  have hsz := (machine.sz slot).isLt
  have haddr : ((stack + size - machine.stackSize slot).toNat : ℤ) =
      stack.toNat + size.toInt - (machine.stackSize slot).toNat :=
    stackEnd_sub_toNat (by omega) (by omega)
  unfold Machine.childFrame
  dsimp only
  omega

theorem childFrame_ebp_toNat : ((machine.childFrame slot stack size).ebp.toNat : ℤ) =
    stack.toNat + size.toInt -
      ((machine.word slot (machine.tf slot).ebp).toNat - (machine.tf slot).ebp.toNat) := by
  have hsize : (machine.topSize slot).toNat =
      (machine.word slot (machine.tf slot).ebp).toNat - (machine.tf slot).ebp.toNat :=
    BitVec.toNat_sub_of_le (BitVec.le_def.mpr htop)
  have hsz := (machine.sz slot).isLt
  have haddr : ((stack + size - machine.topSize slot).toNat : ℤ) =
      stack.toNat + size.toInt - (machine.topSize slot).toNat :=
    stackEnd_sub_toNat (by omega) (by omega)
  unfold Machine.childFrame
  dsimp only
  omega

/-- The addresses that the copy writes. -/
theorem childByte_toNat {k : ℕ} (hk : k < (machine.stackSize slot).toNat) :
    (byteAt (machine.childFrame slot stack size).esp k).toNat =
        (machine.childFrame slot stack size).esp.toNat + k ∧
      stack.toNat ≤ (byteAt (machine.childFrame slot stack size).esp k).toNat ∧
      ((byteAt (machine.childFrame slot stack size).esp k).toNat : ℤ) <
        stack.toNat + size.toInt := by
  have hesp := childFrame_esp_toNat hbase htop hroom hspace
  have hsize := stackSize_toNat hbase htop
  have hsz := (machine.sz slot).isLt
  have haddr := byteAt_toNat (machine.childFrame slot stack size).esp
    (show (machine.childFrame slot stack size).esp.toNat + k < 2 ^ 32 by omega)
  omega

/-- The bytes of the caller's frame, at their places in the child's. -/
theorem copyFrame_memory_inside
    (hapart : ∀ addr : ℕ, (machine.tf slot).esp.toNat ≤ addr →
      addr < (machine.word slot (machine.tf slot).ebp).toNat →
      ¬ (stack.toNat ≤ addr ∧ (addr : ℤ) < stack.toNat + size.toInt))
    {k : ℕ} (hk : k < (machine.stackSize slot).toNat) :
    (machine.copyFrame slot stack size).memory
        (byteAt (machine.childFrame slot stack size).esp k) =
      machine.byte slot (byteAt (machine.tf slot).esp k) := by
  have hsize := stackSize_toNat hbase htop
  have hword := (machine.word slot (machine.tf slot).ebp).isLt
  apply memmove_memory_inside _ _ _ _ _ k hk
  intro i hi j hj hsame
  have hsource := byteAt_toNat (machine.tf slot).esp
    (show (machine.tf slot).esp.toNat + i < 2 ^ 32 by omega)
  have htarget := childByte_toNat hbase htop hroom hspace hj
  rw [← hsame] at htarget
  exact hapart _ (by omega) (by omega) htarget.2

theorem copyFrame_memory_outside {addr : Word}
    (hout : ¬ (stack.toNat ≤ addr.toNat ∧ (addr.toNat : ℤ) < stack.toNat + size.toInt)) :
    (machine.copyFrame slot stack size).memory addr = machine.byte slot addr := by
  apply memmove_memory_outside
  intro i hi hsame
  have htarget := childByte_toNat hbase htop hroom hspace hi
  rw [← hsame] at htarget
  exact hout htarget.2

end Frame

/-- `e` is the word at the caller's base pointer. The child finds every byte of `[esp, e)` at the
place that it has from the child's own stack and base pointers. -/
theorem clone_reproduces_frame (machine : Machine) (slot np : ℕ) (stack size e : Word)
    (he : machine.word slot (machine.tf slot).ebp = e)
    (hnp : machine.system.unusedSlot = some np)
    (hbase : (machine.tf slot).esp.toNat ≤ (machine.tf slot).ebp.toNat)
    (htop : (machine.tf slot).ebp.toNat ≤ e.toNat) (hsz : e.toNat ≤ (machine.sz slot).toNat)
    (hroom : (e.toNat : ℤ) - (machine.tf slot).esp.toNat ≤ size.toInt)
    (hspace : stack.toNat + size.toInt ≤ (machine.sz slot).toNat)
    (hapart : ∀ addr : ℕ, (machine.tf slot).esp.toNat ≤ addr → addr < e.toNat →
      ¬ (stack.toNat ≤ addr ∧ (addr : ℤ) < stack.toNat + size.toInt)) :
    let after := (machine.clone slot true stack size).machine
    let parent := machine.tf slot
    let child := after.tf np
    child = { parent with eax := 0, esp := child.esp, ebp := child.ebp } ∧
      (child.ebp.toNat : ℤ) - child.esp.toNat = parent.ebp.toNat - parent.esp.toNat ∧
      stack.toNat ≤ child.esp.toNat ∧
      (∀ k < e.toNat - parent.esp.toNat,
        after.byte np (byteAt child.esp k) = machine.byte slot (byteAt parent.esp k)) ∧
      (∀ offset : Word, parent.esp.toNat ≤ (parent.ebp + offset).toNat →
        (parent.ebp + offset).toNat < e.toNat →
        after.byte np (child.ebp + offset) = machine.byte slot (parent.ebp + offset)) ∧
      ∀ dir addr, ¬ (dir = machine.pgdir slot ∧ stack.toNat ≤ addr.toNat ∧
        (addr.toNat : ℤ) < stack.toNat + size.toInt) →
        after.memory dir addr = machine.memory dir addr := by
  subst he
  have hdir : (machine.clone slot true stack size).machine.pgdir np = machine.pgdir slot :=
    (clone_child hnp).1
  have htf : (machine.clone slot true stack size).machine.tf np =
      machine.childFrame slot stack size := by
    rw [clone_of_unusedSlot hnp]
    exact Function.update_self _ _ _
  have hmemory : (machine.clone slot true stack size).machine.memory =
      Function.update machine.memory (machine.pgdir slot)
        (machine.copyFrame slot stack size).memory := by
    rw [clone_of_unusedSlot hnp]
  have hsize := stackSize_toNat hbase htop
  have hesp := childFrame_esp_toNat hbase htop hroom hspace
  have hebp := childFrame_ebp_toNat hbase htop hroom hspace
  have hcopied (k : ℕ) (hk : k < (machine.stackSize slot).toNat) :
      (machine.clone slot true stack size).machine.byte np
          (byteAt (machine.childFrame slot stack size).esp k) =
        machine.byte slot (byteAt (machine.tf slot).esp k) := by
    rw [Machine.byte, hdir, hmemory, Function.update_self]
    exact copyFrame_memory_inside hbase htop hroom hspace hapart hk
  dsimp only
  rw [htf]
  refine ⟨rfl, by omega, by omega, fun k hk ↦ hcopied k (by omega), ?_, ?_⟩
  · intro offset hlow hhigh
    have hindex := BitVec.toNat_sub_of_le (BitVec.le_def.mpr hlow)
    have hbyte := hcopied ((machine.tf slot).ebp + offset - (machine.tf slot).esp).toNat (by omega)
    have hchild : (machine.childFrame slot stack size).ebp + offset =
        (machine.childFrame slot stack size).esp +
          ((machine.tf slot).ebp + offset - (machine.tf slot).esp) := by
      unfold Machine.childFrame Machine.stackSize Machine.topSize
      ring
    rwa [byteAt_toNat_offset, byteAt_toNat_offset, ← hchild, add_sub_cancel] at hbyte
  · intro dir addr hout
    rw [hmemory]
    by_cases hsame : dir = machine.pgdir slot
    · rw [hsame, Function.update_self]
      exact copyFrame_memory_outside hbase htop hroom hspace fun hin ↦ hout ⟨hsame, hin⟩
    · rw [Function.update_of_ne hsame]

/-- A frame of 32 bytes in a stack of 256. -/
theorem caller_clone_reproduces_frame :
    let after := ((caller 0x820 0x400 0x100).clone 0 true 0x400 0x100).machine
    (after.tf 1).esp = 0x4E0 ∧ (after.tf 1).ebp = 0x4F0 ∧
      ∀ k < 0x820 - 0x800, after.byte 1 (byteAt (after.tf 1).esp k) =
        (caller 0x820 0x400 0x100).byte 0 (byteAt 0x800 k) := by
  have hapart : ∀ addr : ℕ, 0x800 ≤ addr → addr < 0x820 →
      ¬ (0x400 ≤ addr ∧ (addr : ℤ) < 0x400 + 0x100) := by
    intro addr hlow hhigh hin
    omega
  have hframe := clone_reproduces_frame (caller 0x820 0x400 0x100) 0 1 0x400 0x100 0x820
    (by decide) (by decide) (by decide) (by decide) (by decide) (by decide) (by decide) hapart
  exact ⟨by decide, by decide, hframe.2.2.2.1⟩

end OS537.Threads
