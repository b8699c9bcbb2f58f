import OS537.XV6.Apart

/-!
# Files as arrays of bytes

A session is an open file and the calls on it, between which other files go on. A new file answers
every call as a plain array of bytes does, whose bytes are zero until they are written. The two maps
of an inode make no difference, except that an extent keeps 24 bits of the address of its first
block.
-/

namespace OS537.XV6

open Bytes Run

/-! ## Arrays -/

/-- A call on an open file. -/
inductive FileCall where
  | lseek (offset : Word)
  | read (n : Word)
  | write (src : Store) (n : Word)

/-- What a call returns, and the bytes that a read puts into the buffer. -/
structure Answer where
  value : Word
  data : List Byte
deriving DecidableEq

/-- A plain array of bytes with a size and an offset. -/
structure ByteFile where
  bytes : Store
  size : ℕ
  off : ℕ

def ByteFile.empty : ByteFile := ⟨fun _ ↦ 0, 0, 0⟩

def ByteFile.call (array : ByteFile) : FileCall → ByteFile × Answer
  | .lseek offset =>
    ({ array with size := max array.size offset.toNat, off := offset.toNat }, ⟨offset, []⟩)
  | .read n =>
    let m := min n.toNat (array.size - array.off)
    ({ array with off := array.off + m },
      ⟨BitVec.ofNat 32 m, (List.range m).map fun i ↦ array.bytes (array.off + i)⟩)
  | .write src n =>
    ({ bytes := splice array.bytes array.off n.toNat src
       size := max array.size (array.off + n.toNat)
       off := array.off + n.toNat }, ⟨n, []⟩)

def ByteFile.answers : ByteFile → List FileCall → List Answer
  | _, [] => []
  | array, call :: rest => (array.call call).2 :: (array.call call).1.answers rest

/-! ## Sessions -/

/-- The open file, the file system, and the answers to the calls so far. -/
structure Session where
  fs : FS
  file : File
  answers : List Answer

/-- A call on the file, or an act of others. -/
inductive Event where
  | call (call : FileCall)
  | other (act : Act)

/-- The calls on the file. -/
def calls : List Event → List FileCall
  | [] => []
  | .call call :: rest => call :: calls rest
  | .other _ :: rest => calls rest

def Session.call (session : Session) : FileCall → Option Session
  | .lseek offset => (filelseek session.file offset session.fs).map fun ((r, file), fs) ↦
      ⟨fs, file, session.answers ++ [⟨r, []⟩]⟩
  | .read n => (fileread session.file n session.fs).map fun ((r, data, file), fs) ↦
      ⟨fs, file, session.answers ++ [⟨r, data⟩]⟩
  | .write src n => (filewrite session.file src n session.fs).map fun ((r, file), fs) ↦
      ⟨fs, file, session.answers ++ [⟨r, []⟩]⟩

def Session.step (session : Session) : Event → Option Session
  | .call call => session.call call
  | .other act => (session.fs.act act).map fun fs ↦ { session with fs := fs }

/-- The calls stay within `MAXFILE*BSIZE`, and the acts of others are on other files. -/
def Session.InRange (session : Session) : Event → Prop
  | .call (.lseek offset) => offset.toNat ≤ 140 * 512
  | .call (.read n) => session.file.off.toNat + n.toNat ≤ 140 * 512
  | .call (.write _ n) => session.file.off.toNat + n.toNat ≤ 140 * 512
  | .other act => act.Apart session.file.ip

/-- The rounds of `readi` and `writei`. -/
def roundsOf (off n : Word) : List Round := rounds n.toNat 0 off.toNat n.toNat

/-- The rounds of a call, from the state in which the inode is locked. -/
def Session.acts (session : Session) (fs : FS) : FileCall → List Act
  | .lseek _ => []
  | .read n => loads session.file.ip (roundsOf session.file.off
      ((fs.icache session.file.ip).readLength session.file.off n))
  | .write src n => stores session.file.ip src (roundsOf session.file.off n)

/-- The calls of `bmap` for the file keep their blocks, and those of others make no block reachable
that they do not allocate. -/
def Session.Keeps (session : Session) : Event → Prop
  | .call call => ∀ result ∈ ilock session.file.ip session.fs,
      Guarded FS.act FS.KeepsBlock result.2 (session.acts result.2 call)
  | .other act => session.fs.NoStrays act

instance (session : Session) : (event : Event) → Decidable (session.InRange event)
  | .call (.lseek offset) => inferInstanceAs (Decidable (offset.toNat ≤ 140 * 512))
  | .call (.read n) => inferInstanceAs (Decidable (session.file.off.toNat + n.toNat ≤ 140 * 512))
  | .call (.write _ n) =>
    inferInstanceAs (Decidable (session.file.off.toNat + n.toNat ≤ 140 * 512))
  | .other act => inferInstanceAs (Decidable (act.Apart session.file.ip))

instance (session : Session) : (event : Event) → Decidable (session.Keeps event)
  | .call call => inferInstanceAs (Decidable (∀ result ∈ ilock session.file.ip session.fs,
      Guarded FS.act FS.KeepsBlock result.2 (session.acts result.2 call)))
  | .other act => inferInstanceAs (Decidable (session.fs.NoStrays act))

/-! ## The simulation -/

/-- The cached inode stores the bytes and has the size. -/
structure FS.Presents (fs : FS) (slot : Slot) (bytes : Store) (size : ℕ) : Prop where
  stores : fs.Stores slot bytes
  type : (fs.icache slot).type ≠ .dev
  size : (fs.icache slot).size.toNat = size

/-- The session is in the state of the array. -/
structure Session.Shows (session : Session) (array : ByteFile) : Prop where
  presents : session.fs.Presents session.file.ip array.bytes array.size
  kind : session.file.type = .inode
  readable : session.file.readable = true
  writable : session.file.writable = true
  off : session.file.off.toNat = array.off
  off_le : array.off ≤ array.size
  size_le : array.size ≤ 140 * 512

variable {fs fs' : FS} {slot : Slot} {bytes : Store} {size : ℕ} {session next : Session}
  {array : ByteFile} {off n : Word}

theorem FS.Presents.touch (h : fs.Presents slot bytes size) (ip : Inode)
    (hinum : ip.inum = (fs.icache slot).inum) (htype : ip.type = (fs.icache slot).type)
    (haddrs : ip.addrs = (fs.icache slot).addrs) (href : 0 < ip.ref) (hvalid : ip.valid = true) :
    (fs.set slot ip).Presents slot bytes ip.size.toNat where
  stores := h.stores.touch ip hinum htype haddrs href hvalid
  type := by
    rw [FS.set_icache_self, htype]
    exact h.type
  size := by rw [FS.set_icache_self]

/-- `bmap` does not touch the type and the size. -/
theorem FS.Presents.remap (h : fs.Presents slot bytes size) {bytes' : Store}
    (hstores : fs'.Stores slot bytes') (hremaps : (fs.icache slot).Remaps (fs'.icache slot)) :
    fs'.Presents slot bytes' size := by
  refine ⟨hstores, ?_, ?_⟩
  · rw [hremaps]
    exact h.type
  · rw [hremaps]
    exact h.size

theorem FS.Presents.ilock (h : fs.Presents slot bytes size)
    (hrun : XV6.ilock slot fs = some ((), fs')) :
    fs'.Presents slot bytes size ∧ fs'.Locked slot := by
  have hcached := h.stores.cached
  obtain ⟨-, -, ⟨-, rfl⟩ | ⟨hvalid, -⟩⟩ := ilock_cases hrun
  · have hlocked := h.touch { fs.icache slot with busy := true } rfl rfl rfl hcached.1 hcached.2
    rw [h.size] at hlocked
    refine ⟨hlocked, hlocked.stores.cached, ?_⟩
    rw [FS.set_icache_self]
  · rw [hcached.2] at hvalid
    contradiction

theorem FS.Presents.iunlock (h : fs.Presents slot bytes size)
    (hrun : XV6.iunlock slot fs = some ((), fs')) : fs'.Presents slot bytes size := by
  have hcached := h.stores.cached
  obtain ⟨-, -, rfl⟩ := iunlock_cases hrun
  rw [← h.size]
  exact h.touch { fs.icache slot with busy := false } rfl rfl rfl hcached.1 hcached.2

theorem FS.Presents.seekSize (h : fs.Presents slot bytes size) {offset : Word}
    (hrun : XV6.seekSize slot offset fs = some ((), fs')) :
    fs'.Presents slot bytes (max size offset.toNat) := by
  have hcached := h.stores.cached
  have hsize := h.size
  unfold XV6.seekSize at hrun
  split at hrun
  next hlt =>
    rw [BitVec.lt_def] at hlt
    cases hrun
    have hmax : max size offset.toNat = offset.toNat := by omega
    rw [hmax]
    exact h.touch { fs.icache slot with size := offset } rfl rfl rfl hcached.1 hcached.2
  next hlt =>
    rw [BitVec.lt_def] at hlt
    cases hrun
    have hmax : max size offset.toNat = size := by omega
    rwa [hmax]

theorem add_toNat (h : off.toNat + n.toNat ≤ 140 * 512) :
    (off + n).toNat = off.toNat + n.toNat := by
  rw [BitVec.toNat_add]
  omega

theorem Dinode.refuses_eq_false (node : Dinode) (htype : node.type ≠ .dev)
    (hoff : off.toNat ≤ node.size.toNat) (hrange : off.toNat + n.toNat ≤ 140 * 512) :
    node.refuses off n = false := by
  have hadd := add_toNat hrange
  have hsize : ¬ node.size < off := by rw [BitVec.lt_def]; omega
  have hwrap : ¬ off + n < off := by rw [BitVec.lt_def]; omega
  simp only [Dinode.refuses, htype, hsize, hwrap, decide_false, Bool.or_false]

theorem Dinode.readLength_toNat (node : Dinode) (hoff : off.toNat ≤ node.size.toNat)
    (hrange : off.toNat + n.toNat ≤ 140 * 512) :
    (node.readLength off n).toNat = min n.toNat (node.size.toNat - off.toNat) := by
  have hadd := add_toNat hrange
  have hsub : (node.size - off).toNat = node.size.toNat - off.toNat :=
    BitVec.toNat_sub_of_le (BitVec.le_def.mpr hoff)
  unfold Dinode.readLength
  split
  next hlt =>
    rw [BitVec.lt_def] at hlt
    omega
  next hlt =>
    rw [BitVec.lt_def] at hlt
    omega

theorem Dinode.writeLength_eq (node : Dinode) (hrange : off.toNat + n.toNat ≤ 140 * 512) :
    node.writeLength off n = n := by
  have hadd := add_toNat hrange
  have hmax : maxSize.toNat = 140 * 512 := rfl
  refine if_neg fun hlong ↦ ?_
  rw [BitVec.lt_def] at hlong
  omega

/-- A file advances by what was read or written. -/
theorem File.advance_off (file : File) {r : Word} (hrange : file.off.toNat + r.toNat ≤ 140 * 512) :
    (file.advance r).off.toNat = file.off.toNat + r.toNat := by
  have htoInt : r.toInt = r.toNat := BitVec.toInt_eq_toNat_of_lt (by omega)
  unfold File.advance
  split
  next => exact add_toNat hrange
  next hzero => omega

theorem File.advance_eq (file : File) (r : Word) :
    file.advance r = { file with off := (file.advance r).off } := by
  unfold File.advance
  split
  · rfl
  · rfl

/-! ## Reading and writing -/

theorem FS.Presents.readi (h : fs.Presents slot bytes size) (hlocked : fs.Locked slot)
    {r : Word} {data : List Byte} (hoff : off.toNat ≤ size)
    (hrange : off.toNat + n.toNat ≤ 140 * 512)
    (hkeeps : Guarded FS.act FS.KeepsBlock fs
      (loads slot (roundsOf off ((fs.icache slot).readLength off n))))
    (hrun : XV6.readi slot off n fs = some ((r, data), fs')) :
    fs'.Presents slot bytes size ∧ r.toNat = min n.toNat (size - off.toNat) ∧
      data = (List.range r.toNat).map fun i ↦ bytes (off.toNat + i) := by
  have hoff' : off.toNat ≤ (fs.icache slot).size.toNat := h.size ▸ hoff
  have hlength := (fs.icache slot).readLength_toNat hoff' hrange
  have haccepts := (fs.icache slot).refuses_eq_false h.type hoff' hrange
  unfold XV6.readi at hrun
  rw [if_neg (Bool.eq_false_iff.mp haccepts)] at hrun
  obtain ⟨⟨bytesRead, last⟩, hrounds, hresult⟩ := Option.map_eq_some_iff.mp hrun
  cases hresult
  obtain ⟨hstores, hremaps, rfl⟩ := h.stores.readRounds hlocked (by omega) (by omega) hkeeps hrounds
  rw [h.size] at hlength
  exact ⟨h.remap hstores hremaps, hlength, rfl⟩

/-- The end of `writei` sets the size if the write went past it. -/
theorem FS.Presents.growSize (h : fs.Presents slot bytes size)
    (hoff : off.toNat ≤ size) (hrange : off.toNat + n.toNat ≤ 140 * 512)
    (hrun : XV6.growSize slot n (off + n) fs = some ((), fs')) :
    fs'.Presents slot bytes (max size (off.toNat + n.toNat)) := by
  have hcached := h.stores.cached
  have hsize := h.size
  have hadd := add_toNat hrange
  unfold XV6.growSize at hrun
  split at hrun
  next hgrows =>
    have hlt := hgrows.2
    rw [BitVec.lt_def] at hlt
    cases hrun
    have hmax : max size (off.toNat + n.toNat) = (off + n).toNat := by omega
    have hsized := h.touch { fs.icache slot with size := off + n } rfl rfl rfl hcached.1 hcached.2
    rw [hmax]
    exact ⟨hsized.stores.iupdateSlot, hsized.type, hsized.size⟩
  next hkeeps =>
    have hmax : max size (off.toNat + n.toNat) = size := by
      rw [not_and_or, BitVec.lt_def, BitVec.lt_def] at hkeeps
      have hzero : (0 : Word).toNat = 0 := rfl
      omega
    cases hrun
    rwa [hmax]

theorem FS.Presents.writei (h : fs.Presents slot bytes size) (hlocked : fs.Locked slot)
    {src : Store} {r : Word} (hoff : off.toNat ≤ size) (hrange : off.toNat + n.toNat ≤ 140 * 512)
    (hkeeps : Guarded FS.act FS.KeepsBlock fs (XV6.stores slot src (roundsOf off n)))
    (hrun : XV6.writei slot src off n fs = some (r, fs')) :
    fs'.Presents slot (splice bytes off.toNat n.toNat src) (max size (off.toNat + n.toNat)) ∧
      r = n := by
  have hoff' : off.toNat ≤ (fs.icache slot).size.toNat := h.size ▸ hoff
  have haccepts := (fs.icache slot).refuses_eq_false h.type hoff' hrange
  have hlength := (fs.icache slot).writeLength_eq hrange
  unfold XV6.writei at hrun
  rw [if_neg (Bool.eq_false_iff.mp haccepts)] at hrun
  simp only [hlength] at hrun
  obtain ⟨⟨⟩, written, hrounds, hrun⟩ := Code.bind_eq_some hrun
  obtain ⟨⟨⟩, grown, hgrow, hrun⟩ := Code.bind_eq_some hrun
  cases hrun
  obtain ⟨hstores, hremaps⟩ := h.stores.writeRounds hlocked (by omega) (by omega) hkeeps hrounds
  have hwritten := (h.remap hstores hremaps).growSize hoff hrange hgrow
  simp only [Nat.sub_zero, Nat.zero_add] at hwritten
  exact ⟨hwritten, rfl⟩

/-! ## One call -/

theorem Session.Shows.lseek (h : session.Shows array) {offset : Word}
    (hrange : session.InRange (.call (.lseek offset)))
    (hcall : session.call (.lseek offset) = some next) :
    next.Shows (array.call (.lseek offset)).1 ∧
      next.answers = session.answers ++ [(array.call (.lseek offset)).2] := by
  obtain ⟨⟨⟨r, file⟩, fs⟩, hrun, rfl⟩ := Option.map_eq_some_iff.mp hcall
  unfold filelseek at hrun
  rw [h.kind] at hrun
  obtain ⟨⟨⟩, locked, hlock, hrun⟩ := Code.bind_eq_some hrun
  obtain ⟨⟨⟩, sought, hseek, hrun⟩ := Code.bind_eq_some hrun
  obtain ⟨⟨⟩, unlocked, hunlock, hrun⟩ := Code.bind_eq_some hrun
  cases hrun
  have hpresents := ((h.presents.ilock hlock).1.seekSize hseek).iunlock hunlock
  exact ⟨⟨hpresents, rfl, h.readable, h.writable, rfl, Nat.le_max_right _ _,
    Nat.max_le.mpr ⟨h.size_le, hrange⟩⟩, rfl⟩

/-- The state of the file after a call that has read or written `r` bytes. -/
theorem Session.Shows.advance (h : session.Shows array) {bytes : Store} {size : ℕ} {r : Word}
    (hpresents : fs.Presents session.file.ip bytes size) (answers : List Answer)
    (hoff : array.off + r.toNat ≤ size) (hsize : size ≤ 140 * 512) :
    Session.Shows ⟨fs, session.file.advance r, answers⟩
      { bytes := bytes, size := size, off := array.off + r.toNat } := by
  have hadvance := session.file.advance_eq r
  have hoff' := session.file.advance_off (r := r) (by rw [h.off]; omega)
  rw [h.off] at hoff'
  rw [hadvance]
  exact ⟨hpresents, h.kind, h.readable, h.writable, hoff', hoff, hsize⟩

theorem Session.Shows.read (h : session.Shows array)
    (hrange : session.InRange (.call (.read n))) (hkeeps : session.Keeps (.call (.read n)))
    (hcall : session.call (.read n) = some next) :
    next.Shows (array.call (.read n)).1 ∧
      next.answers = session.answers ++ [(array.call (.read n)).2] := by
  obtain ⟨⟨⟨r, data, file⟩, fs⟩, hrun, rfl⟩ := Option.map_eq_some_iff.mp hcall
  unfold fileread at hrun
  rw [if_neg (by rw [h.readable]; decide), h.kind] at hrun
  obtain ⟨⟨⟩, locked, hlock, hrun⟩ := Code.bind_eq_some hrun
  obtain ⟨⟨r, data⟩, done, hread, hrun⟩ := Code.bind_eq_some hrun
  obtain ⟨⟨⟩, unlocked, hunlock, hrun⟩ := Code.bind_eq_some hrun
  cases hrun
  have hrounds := hkeeps ((), locked) hlock
  have hoff : session.file.off.toNat ≤ array.size := h.off ▸ h.off_le
  obtain ⟨hpresents, hlocked⟩ := h.presents.ilock hlock
  obtain ⟨hdone, hr, rfl⟩ := hpresents.readi hlocked hoff hrange hrounds hread
  rw [h.off] at hr ⊢
  have hend : array.off + r.toNat ≤ array.size := by
    have hle := h.off_le
    omega
  have hshows := h.advance (hdone.iunlock hunlock)
    (session.answers ++ [⟨r, (List.range r.toNat).map fun i ↦ array.bytes (array.off + i)⟩])
    hend h.size_le
  have hanswer : array.call (.read n) = ({ array with off := array.off + r.toNat },
      ⟨r, (List.range r.toNat).map fun i ↦ array.bytes (array.off + i)⟩) := by
    simp only [ByteFile.call, ← hr, BitVec.ofNat_toNat, BitVec.setWidth_eq]
  rw [hanswer]
  exact ⟨hshows, rfl⟩

theorem Session.Shows.write (h : session.Shows array) {src : Store}
    (hrange : session.InRange (.call (.write src n)))
    (hkeeps : session.Keeps (.call (.write src n)))
    (hcall : session.call (.write src n) = some next) :
    next.Shows (array.call (.write src n)).1 ∧
      next.answers = session.answers ++ [(array.call (.write src n)).2] := by
  obtain ⟨⟨⟨r, file⟩, fs⟩, hrun, rfl⟩ := Option.map_eq_some_iff.mp hcall
  unfold filewrite at hrun
  rw [if_neg (by rw [h.writable]; decide), h.kind] at hrun
  obtain ⟨⟨⟩, locked, hlock, hrun⟩ := Code.bind_eq_some hrun
  obtain ⟨r, done, hwrite, hrun⟩ := Code.bind_eq_some hrun
  obtain ⟨⟨⟩, unlocked, hunlock, hrun⟩ := Code.bind_eq_some hrun
  cases hrun
  have hrounds := hkeeps ((), locked) hlock
  have hoff : session.file.off.toNat ≤ array.size := h.off ▸ h.off_le
  have hlength : session.file.off.toNat + n.toNat ≤ 140 * 512 := hrange
  obtain ⟨hpresents, hlocked⟩ := h.presents.ilock hlock
  obtain ⟨hdone, rfl⟩ := hpresents.writei hlocked hoff hrange hrounds hwrite
  rw [h.off] at hdone hlength
  have hshows := h.advance (hdone.iunlock hunlock) (session.answers ++ [⟨r, []⟩])
    (Nat.le_max_right _ _) (Nat.max_le.mpr ⟨h.size_le, hlength⟩)
  exact ⟨hshows, rfl⟩

theorem Session.Shows.call (h : session.Shows array) {call : FileCall}
    (hrange : session.InRange (.call call)) (hkeeps : session.Keeps (.call call))
    (hcall : session.call call = some next) :
    next.Shows (array.call call).1 ∧ next.answers = session.answers ++ [(array.call call).2] := by
  cases call with
  | lseek offset => exact h.lseek hrange hcall
  | read n => exact h.read hrange hkeeps hcall
  | write src n => exact h.write hrange hkeeps hcall

theorem Session.Shows.other (h : session.Shows array) {act : Act}
    (hapart : session.InRange (.other act)) (hstrays : session.Keeps (.other act))
    (hstep : session.step (.other act) = some next) :
    next.Shows array ∧ next.answers = session.answers := by
  obtain ⟨fs, hact, rfl⟩ := Option.map_eq_some_iff.mp hstep
  have hstores := h.presents.stores
  have hnode := (hstores.sound.act_apart hapart hstrays hstores.cached hact).node
  have htype : (fs.icache session.file.ip).type = (session.fs.icache session.file.ip).type :=
    congrArg (·.type) hnode
  have hsize : (fs.icache session.file.ip).size = (session.fs.icache session.file.ip).size :=
    congrArg (·.size) hnode
  refine ⟨⟨⟨hstores.act hapart hstrays hact, ?_, ?_⟩, h.kind, h.readable, h.writable, h.off,
    h.off_le, h.size_le⟩, rfl⟩
  · rw [htype]
    exact h.presents.type
  · rw [hsize]
    exact h.presents.size

/-! ## Whole sessions -/

/-- A session answers as the array does, as long as `bmap` keeps the blocks. -/
theorem Session.Shows.answers_of_run (h : session.Shows array) {events : List Event}
    (hrange : Guarded Session.step Session.InRange session events)
    (hkeeps : Guarded Session.step Session.Keeps session events)
    (hrun : run Session.step session events = some next) :
    next.answers = session.answers ++ array.answers (calls events) := by
  induction events generalizing session array with
  | nil =>
    cases hrun
    rw [calls, ByteFile.answers, List.append_nil]
  | cons event rest ih =>
    obtain ⟨middle, hstep, hrest⟩ := Option.bind_eq_some_iff.mp hrun
    have hrange' := hrange.2 middle hstep
    have hkeeps' := hkeeps.2 middle hstep
    cases event with
    | call call =>
      obtain ⟨hshows, hanswers⟩ := h.call hrange.1 hkeeps.1 hstep
      rw [ih hshows hrange' hkeeps' hrest, hanswers, List.append_assoc]
      rfl
    | other act =>
      obtain ⟨hshows, hanswers⟩ := h.other hrange.1 hkeeps.1 hstep
      rw [ih hshows hrange' hkeeps' hrest, hanswers]
      rfl

/-- A new and empty file of the given type, open for reading and writing, in a state that a run from
an image without cross-links and with free blocks of zeros reaches. -/
structure Session.Starts (session : Session) (type : FileType) : Prop where
  reached : ∃ image acts, image.Linked ∧ image.disk.FreeZero ∧
    (∀ slot, (image.icache slot).ref = 0) ∧ Guarded FS.act FS.NoStrays image acts ∧
    run FS.act image acts = some session.fs
  cached : session.fs.Cached session.file.ip
  type : (session.fs.icache session.file.ip).type = type
  size : (session.fs.icache session.file.ip).size = 0
  addrs : (session.fs.icache session.file.ip).addrs = fun _ ↦ 0
  file : session.file = ⟨.inode, session.file.ref, true, true, session.file.ip, 0⟩
  answers : session.answers = []

/-- An inode without addresses has no block. -/
theorem lookup_zero (disk : Disk) {node : Dinode} (haddrs : node.addrs = fun _ ↦ 0) (bn : Word) :
    lookup disk node bn = none := by
  cases hlookup : lookup disk node bn with
  | none => rfl
  | some addr =>
    have hreach := lookup_mem_reach hlookup
    rw [reach_zero haddrs] at hreach
    contradiction

theorem Session.Starts.shows {type : FileType} (h : session.Starts type) (htype : type ≠ .dev) :
    session.Shows .empty := by
  obtain ⟨image, acts, hlinked, hzero, hempty, hacts, hrun⟩ := h.reached
  obtain ⟨hsound, hfree⟩ := hlinked.sound_of_run hzero hempty hacts hrun
  have hmissing := lookup_zero session.fs.disk h.addrs
  have hstores : session.fs.Stores session.file.ip fun _ ↦ 0 := by
    constructor
    case sound => exact hsound
    case zero => exact hfree
    case cached => exact h.cached
    case short =>
      rw [h.addrs]
      exact fun _ ↦ Addrs.short_zero
    case injective =>
      intro bn bn' addr hlookup
      rw [hmissing bn] at hlookup
      contradiction
    case content =>
      intro bn _ i _
      rw [byteOf_of_missing (hmissing bn)]
  refine ⟨⟨hstores, ?_, ?_⟩, ?_, ?_, ?_, ?_, Nat.le_refl 0, Nat.zero_le _⟩
  · rw [h.type]
    exact htype
  · rw [h.size]
    rfl
  · rw [h.file]
  · rw [h.file]
  · rw [h.file]
  · rw [h.file]
    rfl

end OS537.XV6
