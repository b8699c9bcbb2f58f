import OS537.LFS.Directory

/-!
# Messages between client and server

`6/MFS_Msg.h`, the sending half of `6/libmfs.c` and the `switch` of `Server_Init` in `6/server.c`.
The client copies a name with the size of a pointer, so the server finds it in the message only if
it has at most seven characters. `MFS_Write` copies the size of a whole message into its buffer and
always runs over the end.
-/

namespace OS537.MFS

open Bytes LFS

abbrev mfsLookup : Word := 0
abbrev mfsStat : Word := 1
abbrev mfsWrite : Word := 2
abbrev mfsRead : Word := 3
abbrev mfsCreat : Word := 4
abbrev mfsUnlink : Word := 5
abbrev mfsShutdown : Word := 6
abbrev mfsError : Word := 7

abbrev bufferSize : ℕ := 4096
/-- `sizeof(MFS_Msg_t)` -/
abbrev msgSize : ℕ := 4108
/-- `sizeof(char *)` -/
abbrev pointerSize : ℕ := 8

/-- `MFS_Msg_t` -/
structure Msg where
  type : Word
  inum : Word
  block : Word
  buffer : Store

abbrev Data := Fin bufferSize → Byte

/-! ## Strings in a buffer -/

def charsFrom (store : Store) : (limit addr : ℕ) → List Byte
  | 0, _ => []
  | limit + 1, addr =>
    if store addr = 0 then [] else store addr :: charsFrom store limit (addr + 1)

theorem charsFrom_ne_zero (store : Store) (limit addr : ℕ) :
    ∀ char ∈ charsFrom store limit addr, char ≠ 0 := by
  induction limit generalizing addr with
  | zero => simp [charsFrom]
  | succ limit ih =>
    unfold charsFrom
    split
    · simp
    next hchar =>
      intro char hmem
      rcases List.mem_cons.mp hmem with rfl | htail
      · exact hchar
      · exact ih (addr + 1) char htail

/-- The string at the start of a buffer; one without NUL ends with the buffer. -/
def cstring (store : Store) : CString :=
  ⟨charsFrom store bufferSize 0, charsFrom_ne_zero store bufferSize 0⟩

theorem charsFrom_of_strcmpEq {store : Store} {limit addr : ℕ} {chars : List Byte}
    (hchars : ∀ char ∈ chars, char ≠ 0) (hlength : chars.length < limit)
    (h : strcmpEq store addr chars = true) : charsFrom store limit addr = chars := by
  induction chars generalizing limit addr with
  | nil =>
    cases limit with
    | zero => cases hlength
    | succ limit =>
      have hzero : store addr = 0 := beq_iff_eq.mp h
      rw [charsFrom, if_pos hzero]
  | cons char rest ih =>
    cases limit with
    | zero => cases hlength
    | succ limit =>
      obtain ⟨hchar, hrest⟩ := Bool.and_eq_true_iff.mp h
      have hchar' : store addr = char := beq_iff_eq.mp hchar
      have hne : store addr ≠ 0 := hchar' ▸ hchars char List.mem_cons_self
      rw [charsFrom, if_neg hne, hchar',
        ih (fun c hc ↦ hchars c (List.mem_cons_of_mem _ hc)) (Nat.lt_of_succ_lt_succ hlength) hrest]

theorem strcmpEq_charsFrom {store : Store} {limit addr : ℕ}
    (h : (charsFrom store limit addr).length < limit) :
    strcmpEq store addr (charsFrom store limit addr) = true := by
  induction limit generalizing addr with
  | zero => cases h
  | succ limit ih =>
    unfold charsFrom at h ⊢
    split
    next hzero => exact beq_iff_eq.mpr hzero
    next hne =>
      rw [if_neg hne] at h
      rw [strcmpEq, Bool.and_eq_true, beq_iff_eq]
      exact ⟨rfl, ih (Nat.lt_of_succ_lt_succ h)⟩

theorem charsFrom_length_le {store : Store} {limit addr k : ℕ} (h : store (addr + k) = 0) :
    (charsFrom store limit addr).length ≤ k := by
  induction limit generalizing addr k with
  | zero => exact Nat.zero_le k
  | succ limit ih =>
    unfold charsFrom
    split
    · exact Nat.zero_le k
    next hne =>
      cases k with
      | zero => exact absurd h hne
      | succ k =>
        rw [Nat.add_comm k 1, ← Nat.add_assoc] at h
        exact Nat.succ_le_succ (ih h)

/-- A buffer holds the string that `strcmp` finds in it. -/
theorem cstring_eq_iff {store : Store} {name : CString} (hlength : name.chars.length < bufferSize) :
    cstring store = name ↔ strcmpEq store 0 name.chars = true := by
  constructor
  · rintro rfl
    exact strcmpEq_charsFrom hlength
  · intro h
    have hchars : charsFrom store bufferSize 0 = name.chars :=
      charsFrom_of_strcmpEq name.no_nul hlength h
    unfold cstring
    cases name
    congr

/-! ## The calls on both sides -/

/-- What the server calls for a message. -/
inductive Request where
  | lookup (pinum : Word) (name : CString)
  | stat (inum : Word)
  | write (inum : Word) (data : Data) (block : Word)
  | read (inum block : Word)
  | creat (pinum type : Word) (name : CString)
  | unlink (pinum : Word) (name : CString)
  | shutdown
  | error

def Msg.name (message : Msg) : CString := cstring message.buffer

def Msg.data (message : Msg) : Data := fun i ↦ message.buffer i

/-- The `switch` of `Server_Init`. -/
def Msg.request (message : Msg) : Request :=
  if message.type = mfsLookup then .lookup message.inum message.name
  else if message.type = mfsStat then .stat message.inum
  else if message.type = mfsWrite then .write message.inum message.data message.block
  else if message.type = mfsRead then .read message.inum message.block
  else if message.type = mfsCreat then .creat message.inum message.block message.name
  else if message.type = mfsUnlink then .unlink message.inum message.name
  else if message.type = mfsShutdown then .shutdown
  else .error

/-- What becomes of a call on the client: it may return -1 at once, copy past the end of the
buffer of its message, or send the message. -/
inductive Sending where
  | refused
  | overrun
  | sent (message : Msg)

/-- `memcpy(message.buffer, source, n)`, and then `tryMessage(message)`. -/
def Msg.fillAndSend (message : Msg) (source : Store) (n : ℕ) : Sending :=
  if n ≤ bufferSize then .sent { message with buffer := splice message.buffer 0 n source }
  else .overrun

/-! `stack` is the uninitialised local `message`, and `source` the memory at the pointer that is
passed. -/

def mfsLookupSend (pinum : Word) (source : Store) (stack : Msg) : Sending :=
  { stack with type := mfsLookup, inum := pinum }.fillAndSend source pointerSize

def mfsStatSend (inum : Word) (stack : Msg) : Sending :=
  .sent { stack with type := mfsStat, inum := inum }

def mfsWriteSend (inum : Word) (source : Store) (block : Word) (stack : Msg) : Sending :=
  { stack with type := mfsWrite, inum := inum, block := block }.fillAndSend source msgSize

def mfsReadSend (inum block : Word) (stack : Msg) : Sending :=
  .sent { stack with type := mfsRead, inum := inum, block := block }

def mfsCreatSend (pinum type : Word) (name : CString) (source : Store) (stack : Msg) : Sending :=
  if name.chars.length > 27 then .refused
  else { stack with type := mfsCreat, inum := pinum, block := type }.fillAndSend source pointerSize

def mfsUnlinkSend (pinum : Word) (source : Store) (stack : Msg) : Sending :=
  { stack with type := mfsUnlink, inum := pinum }.fillAndSend source pointerSize

/-- `source` holds what the call passes by pointer. -/
def Request.PassedAt (source : Store) : Request → Prop
  | .lookup _ name | .creat _ _ name | .unlink _ name => strcmpEq source 0 name.chars = true
  | .write _ data _ => ∀ i : Fin bufferSize, source i = data i
  | .stat _ | .read _ _ | .shutdown | .error => True

/-- The client's routine for a request; there is none for `error`. -/
def Request.send (source : Store) (stack : Msg) : Request → Sending
  | .lookup pinum _ => mfsLookupSend pinum source stack
  | .stat inum => mfsStatSend inum stack
  | .write inum _ block => mfsWriteSend inum source block stack
  | .read inum block => mfsReadSend inum block stack
  | .creat pinum type name => mfsCreatSend pinum type name source stack
  | .unlink pinum _ => mfsUnlinkSend pinum source stack
  | .shutdown => .sent { stack with type := mfsShutdown }
  | .error => .refused

/-- The server makes the call that the client was asked for, whatever the client's stack holds. -/
def Request.Faithful (request : Request) : Prop :=
  ∀ source stack, request.PassedAt source →
    ∃ message, request.send source stack = .sent message ∧ message.request = request

/-! ## When a request arrives -/

/-- The name is one that the size of a pointer holds. -/
def Request.Short : Request → Prop
  | .lookup _ name | .creat _ _ name | .unlink _ name => name.chars.length < pointerSize
  | .write _ _ _ | .error => False
  | .stat _ | .read _ _ | .shutdown => True

theorem cstring_filled_of_short {name : CString} (hshort : name.chars.length < pointerSize)
    {source : Store} (hsource : strcmpEq source 0 name.chars = true) (stack : Store) :
    cstring (splice stack 0 pointerSize source) = name := by
  have hlength : name.chars.length < bufferSize := hshort.trans (by decide)
  rw [cstring_eq_iff hlength, ← hsource]
  apply strcmpEq_congr
  intro i _ hi
  exact splice_zero_apply_inside stack source (by omega)

/-- A longer name goes on with what the client's stack holds: it may end at once, or not at all. -/
theorem short_of_cstring_filled {name : CString} {source : Store}
    (h : ∀ stack, cstring (splice stack 0 pointerSize source) = name) :
    name.chars.length < pointerSize := by
  by_contra hlong
  have hlong' : pointerSize ≤ name.chars.length := Nat.le_of_not_lt hlong
  have hend (stack : Store) (hlength : name.chars.length < bufferSize) :
      stack name.chars.length = 0 := by
    have hname := (strcmpEq_iff _ _ _).mp ((cstring_eq_iff hlength).mp (h stack)) _ le_rfl
    rw [Nat.zero_add, List.getD_eq_default _ _ le_rfl] at hname
    rwa [splice_apply_outside stack source (Or.inr (by omega))] at hname
  have hlength : name.chars.length < bufferSize := by
    have hzero : splice (fun _ ↦ 0) 0 pointerSize source (0 + pointerSize) = 0 :=
      splice_apply_outside _ _ (Or.inr le_rfl)
    have hle : (cstring (splice (fun _ ↦ 0) 0 pointerSize source)).chars.length ≤ pointerSize :=
      charsFrom_length_le hzero
    rw [h] at hle
    exact hle.trans_lt (by decide)
  have hone := hend (fun _ ↦ 1) hlength
  cases hone

/-- The server finds a name that is copied with the size of a pointer if it is short. -/
theorem cstring_filled_iff {name : CString} :
    (∀ source stack, strcmpEq source 0 name.chars = true →
      cstring (splice stack 0 pointerSize source) = name) ↔ name.chars.length < pointerSize := by
  constructor
  · intro h
    have hsource := strcmpEq_strcpy (fun _ ↦ 0) 0 name
    exact short_of_cstring_filled fun stack ↦ h _ stack hsource
  · intro hshort source stack hsource
    exact cstring_filled_of_short hshort hsource stack

/-- Lookup, create and unlink: the message carries the name as it was copied. -/
theorem named_faithful_iff {request : Request} {name : CString} (called : CString → Request)
    (hcalled : Function.Injective called) (hrequest : request = called name)
    (hpassed : ∀ source, request.PassedAt source ↔ strcmpEq source 0 name.chars = true)
    (hsend : ∀ source stack, ∃ message, request.send source stack = .sent message ∧
      message.request = called (cstring (splice stack.buffer 0 pointerSize source))) :
    request.Faithful ↔ name.chars.length < pointerSize := by
  rw [← cstring_filled_iff]
  constructor
  · intro h source stack hsource
    obtain ⟨message, hsent, hmade⟩ := h source ⟨0, 0, 0, stack⟩ ((hpassed source).mpr hsource)
    obtain ⟨message', hsent', hmade'⟩ := hsend source ⟨0, 0, 0, stack⟩
    cases hsent.symm.trans hsent'
    exact hcalled (hmade'.symm.trans (hmade.trans hrequest))
  · intro h source stack hsource
    obtain ⟨message, hsent, hmade⟩ := hsend source stack
    refine ⟨message, hsent, ?_⟩
    rw [hmade, h source stack.buffer ((hpassed source).mp hsource), hrequest]

/-- The server makes the call that the client was asked for if and only if there is no data to send
and the name, if there is one, has at most seven characters. -/
theorem faithful_iff_short (request : Request) : request.Faithful ↔ request.Short := by
  cases request with
  | lookup pinum name =>
    have hcalled : Function.Injective (Request.lookup pinum) :=
      fun _ _ h ↦ (Request.lookup.inj h).2
    exact named_faithful_iff (Request.lookup pinum) hcalled rfl (fun _ ↦ Iff.rfl)
      fun source stack ↦ ⟨_, rfl, rfl⟩
  | stat inum => exact ⟨fun _ ↦ trivial, fun _ source stack _ ↦ ⟨_, rfl, rfl⟩⟩
  | write inum data block =>
    refine ⟨fun h ↦ ?_, False.elim⟩
    let source : Store := fun i ↦ if hi : i < bufferSize then data ⟨i, hi⟩ else 0
    have hsource : (Request.write inum data block).PassedAt source := fun i ↦ dif_pos i.isLt
    obtain ⟨message, hsent, -⟩ := h source ⟨0, 0, 0, source⟩ hsource
    cases hsent
  | read inum block => exact ⟨fun _ ↦ trivial, fun _ source stack _ ↦ ⟨_, rfl, rfl⟩⟩
  | creat pinum type name =>
    by_cases hlong : name.chars.length > 27
    · have hrefused (source : Store) (stack : Msg) :
          (Request.creat pinum type name).send source stack = .refused := if_pos hlong
      constructor
      · intro h
        obtain ⟨message, hsent, -⟩ := h _ ⟨0, 0, 0, fun _ ↦ 0⟩ (strcmpEq_strcpy (fun _ ↦ 0) 0 name)
        rw [hrefused] at hsent
        cases hsent
      · intro hshort
        have hshort' : name.chars.length < 8 := hshort
        omega
    · have hcalled : Function.Injective (Request.creat pinum type) :=
        fun _ _ h ↦ (Request.creat.inj h).2.2
      exact named_faithful_iff (Request.creat pinum type) hcalled rfl (fun _ ↦ Iff.rfl)
        fun source stack ↦ ⟨_, if_neg hlong, rfl⟩
  | unlink pinum name =>
    have hcalled : Function.Injective (Request.unlink pinum) :=
      fun _ _ h ↦ (Request.unlink.inj h).2
    exact named_faithful_iff (Request.unlink pinum) hcalled rfl (fun _ ↦ Iff.rfl)
      fun source stack ↦ ⟨_, rfl, rfl⟩
  | shutdown => exact ⟨fun _ ↦ trivial, fun _ source stack _ ↦ ⟨_, rfl, rfl⟩⟩
  | error =>
    refine ⟨fun h ↦ ?_, False.elim⟩
    obtain ⟨message, hsent, -⟩ := h (fun _ ↦ 0) ⟨0, 0, 0, fun _ ↦ 0⟩ trivial
    cases hsent

def eightChars : CString := ⟨List.replicate 8 97, by decide⟩

/-- The server looks for a name of eight characters and whatever follows it on the client's stack,
and no block of data is sent without an overrun. -/
theorem eightChars_not_faithful :
    eightChars.Fits ∧ ¬ (Request.lookup 0 eightChars).Faithful ∧
      ¬ (Request.write 1 (fun _ ↦ 0) 0).Faithful := by
  refine ⟨by decide, fun h ↦ ?_, fun h ↦ ?_⟩
  · let source : Store := fun i ↦ eightChars.chars.getD i 0
    let stack : Msg := ⟨0, 0, 0, fun i ↦ if i = 8 then 98 else 0⟩
    have hsource : (Request.lookup 0 eightChars).PassedAt source := by
      change strcmpEq source 0 eightChars.chars = true
      decide
    obtain ⟨message, hsent, hmade⟩ := h source stack hsource
    cases hsent
    have hname : cstring (splice stack.buffer 0 pointerSize source) = eightChars :=
      (Request.lookup.inj hmade).2
    have hlength := congrArg (fun name ↦ name.chars.length) hname
    have hnine : (cstring (splice stack.buffer 0 pointerSize source)).chars.length = 9 := by
      decide +kernel
    exact absurd (hnine.symm.trans hlength) (by decide)
  · obtain ⟨message, hsent, -⟩ := h (fun _ ↦ 0) ⟨0, 0, 0, fun _ ↦ 0⟩ fun _ ↦ rfl
    cases hsent

end OS537.MFS
