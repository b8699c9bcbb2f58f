import OS537.LFS.Defined
import OS537.LFS.TreeRuns
import OS537.MFS.Messages

/-!
# The server's loop

The handlers of `6/server.c` and the body of the loop in `Server_Init`, on the file system of
`6/libfsi.c`, and the receiving half of the client's routines. Each handler fills the global
`reply`. There is no call of `UDP_Write` in the server: nothing is ever sent back.
-/

namespace OS537.MFS

open Bytes Code LFS Run

/-- Uninitialised locals of the calls, and whether `close` succeeds. -/
structure Frames where
  node : Store
  lookup : LookupFrame
  unlink : UnlinkFrame
  creat : CreatFrame
  closes : Bool

/-- A block of data in memory. -/
def Data.store (data : Data) : Store := fun i ↦ if h : i < bufferSize then data ⟨i, h⟩ else 0

/-- `MFS_Stat_t` -/
def statBytes (type size : Word) : Store := wordBytes fun k ↦ if k = 0 then type else size

abbrev statSize : ℕ := 8

/-! ## Handlers -/

section Handlers

variable (reply : Msg)

def serverError : Msg := { reply with type := mfsError, inum := -1 }

def serverLookup (pinum : Word) (name : CString) (frame : LookupFrame) : Fsi Msg := do
  let found ← fsiLookup pinum.toInt name frame
  return { reply with type := mfsLookup, inum := BitVec.ofInt 32 found }

def serverStat (inum : Word) (node : Store) : Fsi Msg := do
  match ← fsiStat inum.toInt node with
  | none => return { reply with type := mfsStat, inum := -1 }
  | some (type, size) =>
    return { reply with
      type := mfsStat
      inum := inum
      buffer := splice reply.buffer 0 statSize (statBytes type size) }

def serverWrite (inum : Word) (data : Data) (block : Word) (node : Store) : Fsi Msg := do
  if (← fsiWrite inum.toInt data.store block.toInt node) < 0 then
    return { reply with type := mfsWrite, inum := -1 }
  else
    return ⟨mfsWrite, inum, block, splice reply.buffer 0 pointerSize data.store⟩

/-- The block is read into the buffer of the request. -/
def serverRead (inum : Word) (buffer : Store) (block : Word) (node : Store) : Fsi Msg := do
  let (rc, buffer) ← fsiRead inum.toInt buffer block.toInt node
  if rc < 0 then
    return { reply with type := mfsRead, inum := -1 }
  else
    return ⟨mfsRead, inum, block, splice reply.buffer 0 pointerSize buffer⟩

def serverCreat (pinum type : Word) (name : CString) (buffer : Store) (frame : CreatFrame) :
    Fsi Msg := do
  if (← fsiCreat pinum.toInt type name frame) < 0 then
    return { reply with type := mfsCreat, inum := -1 }
  else
    return ⟨mfsCreat, pinum, type, splice reply.buffer 0 pointerSize buffer⟩

def serverUnlink (pinum : Word) (name : CString) (buffer : Store) (frame : UnlinkFrame) :
    Fsi Msg := do
  if (← fsiUnlink pinum.toInt name frame) < 0 then
    return { reply with type := mfsUnlink, inum := -1 }
  else
    return { reply with
      type := mfsUnlink
      inum := pinum
      buffer := splice reply.buffer 0 pointerSize buffer }

def serverShutdown (closes : Bool) : Msg :=
  { reply with type := mfsShutdown, inum := if closes then reply.inum else -1 }

/-- The handler of a request; `buffer` is that of the message. -/
def Request.serve (buffer : Store) (frames : Frames) : Request → Fsi Msg
  | .lookup pinum name => serverLookup reply pinum name frames.lookup
  | .stat inum => serverStat reply inum frames.node
  | .write inum data block => serverWrite reply inum data block frames.node
  | .read inum block => serverRead reply inum buffer block frames.node
  | .creat pinum type name => serverCreat reply pinum type name buffer frames.creat
  | .unlink pinum name => serverUnlink reply pinum name buffer frames.unlink
  | .shutdown => pure (serverShutdown reply frames.closes)
  | .error => pure (serverError reply)

end Handlers

/-! ## The loop -/

/-- The server process: the file system, the global `reply`, the datagrams it has sent, and whether
it still runs. -/
structure Host where
  fs : Server
  reply : Msg
  sent : List Msg
  running : Bool

/-- One datagram is received and handled. -/
def Host.serverInit (host : Host) (message : Msg) (frames : Frames) : Option Host := do
  let (reply, fs) ← message.request.serve host.reply message.buffer frames host.fs
  return { host with fs := fs, reply := reply, running := reply.type ≠ mfsShutdown }

/-! ## The client's side -/

/-- What an `MFS_` routine returns and stores through its pointers. -/
structure Answer where
  rc : ℤ
  stat : Option (Word × Word)
  data : Option Data

def Answer.failed : Answer := ⟨-1, none, none⟩
def Answer.done : Answer := ⟨0, none, none⟩

/-- What the client makes of the response to its request; `buffer` is that of the caller of
`MFS_Read`. -/
def Request.answer (buffer : Data) (response : Msg) : Request → Answer
  | .lookup _ _ =>
    if response.type = mfsLookup ∧ 0 ≤ response.inum.toInt then ⟨response.inum.toInt, none, none⟩
    else .failed
  | .stat _ =>
    if response.type = mfsStat ∧ 0 ≤ response.inum.toInt then
      ⟨0, some (load32 response.buffer 0, load32 response.buffer 4), none⟩
    else .failed
  | .write _ _ _ =>
    if response.type = mfsWrite ∧ 0 ≤ response.inum.toInt then .done else .failed
  | .read _ _ =>
    if response.type = mfsRead ∧ 0 ≤ response.inum.toInt ∧ 0 ≤ response.block.toInt then
      ⟨0, none, some fun i ↦ if (i : ℕ) < pointerSize then response.buffer i else buffer i⟩
    else .failed
  | .creat _ _ _ =>
    if response.type = mfsCreat ∧ 0 ≤ response.inum.toInt then .done else .failed
  | .unlink _ _ =>
    if response.type = mfsUnlink ∧ 0 ≤ response.inum.toInt then .done else .failed
  | .shutdown =>
    if response.type = mfsShutdown ∧ 0 ≤ response.inum.toInt then .done else .failed
  | .error => .failed

/-- The result of the `fsi_` call that the server makes for the request, as the client should see
it. -/
def Request.result (buffer : Store) (frames : Frames) : Request → Fsi Answer
  | .lookup pinum name => do
    let found ← fsiLookup pinum.toInt name frames.lookup
    return if 0 ≤ found then ⟨found, none, none⟩ else .failed
  | .stat inum => do
    match ← fsiStat inum.toInt frames.node with
    | none => return .failed
    | some found => return ⟨0, some found, none⟩
  | .write inum data block => do
    return if 0 ≤ (← fsiWrite inum.toInt data.store block.toInt frames.node) then .done else .failed
  | .read inum block => do
    let (rc, found) ← fsiRead inum.toInt buffer block.toInt frames.node
    return if 0 ≤ rc then ⟨0, none, some fun i ↦ found i⟩ else .failed
  | .creat pinum type name => do
    return if 0 ≤ (← fsiCreat pinum.toInt type name frames.creat) then .done else .failed
  | .unlink pinum name => do
    return if 0 ≤ (← fsiUnlink pinum.toInt name frames.unlink) then .done else .failed
  | .shutdown => pure (if frames.closes then .done else .failed)
  | .error => pure .failed

/-- The server sends one datagram for the message, and the client finds in it what the `fsi_` call
returned. -/
def Answered (host : Host) (message : Msg) (frames : Frames) : Prop :=
  ∃ next response answer fs, host.serverInit message frames = some next ∧
    next.sent = host.sent ++ [response] ∧
    message.request.result message.buffer frames host.fs = some (answer, fs) ∧
    ∀ buffer, message.request.answer buffer response = answer

theorem serverInit_run {host : Host} {message reply : Msg} {frames : Frames} {fs : Server}
    (h : message.request.serve host.reply message.buffer frames host.fs = some (reply, fs)) :
    host.serverInit message frames =
      some { host with fs := fs, reply := reply, running := reply.type ≠ mfsShutdown } := by
  unfold Host.serverInit
  rw [h]
  rfl

theorem serve_of_serverInit {host next : Host} {message : Msg} {frames : Frames}
    (h : host.serverInit message frames = some next) :
    message.request.serve host.reply message.buffer frames host.fs = some (next.reply, next.fs) ∧
      next.sent = host.sent := by
  obtain ⟨⟨reply, fs⟩, hserve, hnext⟩ := Option.bind_eq_some_iff.mp h
  cases hnext
  exact ⟨hserve, rfl⟩

/-- No message is answered. -/
theorem not_answered (host : Host) (message : Msg) (frames : Frames) :
    ¬ Answered host message frames := by
  rintro ⟨next, response, -, -, hserve, hsent, -⟩
  rw [(serve_of_serverInit hserve).2] at hsent
  simp at hsent

def junkFrames : Frames := ⟨junk, junkFrame.lookup, junkFrame.unlink, junkFrame, true⟩

theorem serverStat_defined (reply : Msg) {inum : Word} {node : Store} {server : Server}
    (h : Defined (fsiStat inum.toInt node) server) :
    Defined (serverStat reply inum node) server := by
  obtain ⟨stat, next, hstat⟩ := h
  unfold serverStat
  rw [defined_bind hstat]
  cases stat with
  | none => exact defined_pure _
  | some pair => exact defined_pure _

/-- The first request to a new server, for the status of the root. -/
theorem statRoot_not_answered :
    let host : Host := ⟨freshServer.start junk, ⟨0, 0, 0, fun _ ↦ 0⟩, [], true⟩
    (∃ next, host.serverInit ⟨mfsStat, 0, 0, junk⟩ junkFrames = some next) ∧
      ¬ Answered host ⟨mfsStat, 0, 0, junk⟩ junkFrames := by
  intro host
  constructor
  · have hroot : (0 : Word).toInt = (((0 : Fin 4096) : ℕ) : ℤ) := rfl
    have hstat : Defined (fsiStat (0 : Word).toInt junk) host.fs := hroot ▸ total_fsiStat 0 junk _
    obtain ⟨reply, fs, hserve⟩ := serverStat_defined host.reply hstat
    exact ⟨_, serverInit_run hserve⟩
  · rintro ⟨next, response, -, -, hserve, hsent, -⟩
    rw [(serve_of_serverInit hserve).2] at hsent
    simp at hsent

end OS537.MFS
