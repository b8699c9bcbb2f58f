import OS537.Base.Bytes
import OS537.Base.Interleave

/-!
# The buffer cache and the disk driver

The holders of buffers and the disk take turns in any order. `bread` is `bget` and, if the buffer is
not valid, `iderw`; the holder sleeps while its buffer is in the queue of the driver. What a holder
finds in its buffer is what was last written to the sector.
-/

namespace OS537.Buffers

open Bytes Run Interleave

/-! ## The code -/

/-- The last field is the history: the holder has changed the data and not written them. -/
structure Buf (Data : Type) where
  busy : Bool
  valid : Bool
  dirty : Bool
  dev : Word
  sector : Word
  data : Data
  touched : Bool

/-- One of the `NBUF` buffers. -/
abbrev Index := Fin 10

/-- `order` has the buffers from `head.next` on, and `queue` those from `idequeue` on. -/
structure Cache (Data : Type) where
  bufs : Index → Buf Data
  order : List Index
  queue : List Index
  havedisk1 : Bool
  disk : Word × Word → Data

variable {Data : Type} {s s' : Cache Data} {b b' : Index}

def Cache.set (s : Cache Data) (b : Index) (buf : Buf Data) : Cache Data :=
  { s with bufs := Function.update s.bufs b buf }

/-- One round of the loop of `bget`: a buffer that is taken, or a `sleep` that changes nothing. -/
def bget (s : Cache Data) (dev sector : Word) : Option (Cache Data) :=
  match s.order.find? fun b ↦ (s.bufs b).dev = dev ∧ (s.bufs b).sector = sector with
  | some b => some (if (s.bufs b).busy then s else s.set b { s.bufs b with busy := true })
  | none =>
    (s.order.reverse.find? fun b ↦ ¬ (s.bufs b).busy).map fun b ↦
      s.set b { s.bufs b with busy := true, valid := false, dirty := false, dev, sector }

/-- `iderw` up to its `sleep`. -/
def iderw (s : Cache Data) (b : Index) : Option (Cache Data) :=
  let buf := s.bufs b
  if ¬ buf.busy ∨ (buf.valid ∧ ¬ buf.dirty) ∨ (buf.dev ≠ 0 ∧ ¬ s.havedisk1) then none
  else some { s with queue := s.queue ++ [b] }

def bwrite (s : Cache Data) (b : Index) : Option (Cache Data) :=
  if ¬ (s.bufs b).busy then none else iderw (s.set b { s.bufs b with dirty := true }) b

def brelse (s : Cache Data) (b : Index) : Option (Cache Data) :=
  if ¬ (s.bufs b).busy then none
  else some { s.set b { s.bufs b with busy := false } with order := b :: s.order.erase b }

/-- What `idestart` tells the disk: a bit of the device and 28 bits of the sector. -/
def Buf.place (buf : Buf Data) : Word × Word := (buf.dev &&& 1, buf.sector &&& 0x0FFFFFFF)

/-- The disk has done the first request; `ok` is what `idewait` says. A buffer that was not read is
marked valid all the same. -/
def ideintr (s : Cache Data) (ok : Bool) : Cache Data :=
  match s.queue with
  | [] => s
  | b :: rest =>
    let buf := s.bufs b
    { s with
      queue := rest
      disk := if buf.dirty then Function.update s.disk buf.place buf.data else s.disk
      bufs := Function.update s.bufs b { buf with
        valid := true
        dirty := false
        touched := buf.touched && !buf.dirty
        data := if buf.dirty ∨ ¬ ok then buf.data else s.disk buf.place } }

inductive Action (Data : Type) where
  | bget (dev sector : Word)
  | iderw (b : Index)
  | change (b : Index) (data : Data)
  | bwrite (b : Index)
  | brelse (b : Index)
  | ideintr (ok : Bool)

def step (s : Cache Data) : Action Data → Option (Cache Data)
  | .bget dev sector => bget s dev sector
  | .iderw b => iderw s b
  | .change b data => some (s.set b { s.bufs b with data, touched := true })
  | .bwrite b => bwrite s b
  | .brelse b => brelse s b
  | .ideintr ok => some (ideintr s ok)

/-- The buffer was returned by `bread` and is not in the hands of the driver. -/
def Cache.Held (s : Cache Data) (b : Index) : Prop :=
  (s.bufs b).busy ∧ (s.bufs b).valid ∧ b ∉ s.queue

/-- What the callers keep to, on a disk without errors: a buffer is changed, written and released by
its holder, and it is not released with changes that were not written. -/
def Allowed (s : Cache Data) : Action Data → Prop
  | .bget dev sector => dev &&& 1 = dev ∧ sector &&& 0x0FFFFFFF = sector
  | .iderw b => (s.bufs b).busy ∧ ¬ (s.bufs b).valid ∧ b ∉ s.queue
  | .change b _ => s.Held b
  | .bwrite b => s.Held b
  | .brelse b => s.Held b ∧ ¬ (s.bufs b).touched
  | .ideintr ok => ok

instance (s : Cache Data) : (action : Action Data) → Decidable (Allowed s action)
  | .bget _ _ | .iderw _ | .change _ _ | .bwrite _ => inferInstanceAs (Decidable (_ ∧ _))
  | .brelse _ => inferInstanceAs (Decidable ((_ ∧ _) ∧ _))
  | .ideintr _ => inferInstanceAs (Decidable (_ = true))

/-- What `binit` makes. -/
def Cache.initial (bufs : Index → Buf Data) (havedisk1 : Bool) (disk : Word × Word → Data) :
    Cache Data :=
  ⟨fun b ↦
      { bufs b with busy := false, valid := false, dirty := false, dev := -1, touched := false },
    (List.finRange 10).reverse, [], havedisk1, disk⟩

/-! ## Coherence -/

/-- A buffer under the queue and the disk. -/
structure Fine (queue : List Index) (disk : Word × Word → Data) (b : Index) (buf : Buf Data) :
    Prop where
  idle : ¬ buf.busy → ¬ buf.touched ∧ b ∉ queue
  fits : buf.busy ∨ buf.valid → buf.dev &&& 1 = buf.dev ∧ buf.sector &&& 0x0FFFFFFF = buf.sector
  data : buf.valid → ¬ buf.touched → buf.data = disk buf.place

structure Coherent (s : Cache Data) : Prop where
  order : ∀ b, b ∈ s.order
  fine : ∀ b, Fine s.queue s.disk b (s.bufs b)
  unique : ∀ b b', (s.bufs b).dev ≠ -1 → (s.bufs b).dev = (s.bufs b').dev →
    (s.bufs b).sector = (s.bufs b').sector → b = b'

variable {queue order : List Index} {disk : Word × Word → Data} {buf : Buf Data} {havedisk1 : Bool}

/-- A buffer changes and keeps its sector. -/
theorem Coherent.update (h : Coherent s) (horder : ∀ b, b ∈ order) (hself : Fine queue disk b buf)
    (hothers : ∀ other ≠ b, Fine queue disk other (s.bufs other))
    (hdev : buf.dev = (s.bufs b).dev) (hsector : buf.sector = (s.bufs b).sector) :
    Coherent ⟨Function.update s.bufs b buf, order, queue, havedisk1, disk⟩ where
  order := horder
  fine := forall_update (Fine queue disk) hself hothers
  unique := by
    have hsame (other : Index) : (Function.update s.bufs b buf other).dev = (s.bufs other).dev ∧
        (Function.update s.bufs b buf other).sector = (s.bufs other).sector :=
      forall_update (fun other (new : Buf Data) ↦
        new.dev = (s.bufs other).dev ∧ new.sector = (s.bufs other).sector) ⟨hdev, hsector⟩
        (fun _ _ ↦ ⟨rfl, rfl⟩) other
    intro first second
    simp only [(hsame first).1, (hsame first).2, (hsame second).1, (hsame second).2]
    exact h.unique first second

theorem Coherent.bget {dev sector : Word} (h : Coherent s) (hdev : dev &&& 1 = dev)
    (hsector : sector &&& 0x0FFFFFFF = sector) (hstep : bget s dev sector = some s') :
    Coherent s' := by
  unfold Buffers.bget at hstep
  split at hstep
  next b hfound =>
    cases hstep
    have hb := List.find?_some hfound
    simp only [decide_eq_true_eq] at hb
    split
    · exact h
    · refine h.update h.order ⟨fun hbusy ↦ absurd rfl hbusy, fun _ ↦ ?_, (h.fine b).data⟩
        (fun other _ ↦ h.fine other) rfl rfl
      rw [hb.1, hb.2]
      exact ⟨hdev, hsector⟩
  next hnone =>
    obtain ⟨b, hfree, rfl⟩ := Option.map_eq_some_iff.mp hstep
    have hfresh (other : Index) (hother : dev = (s.bufs other).dev) :
        sector ≠ (s.bufs other).sector := by
      have hmiss := List.find?_eq_none.mp hnone other (h.order other)
      simp only [decide_eq_true_eq, not_and] at hmiss
      exact fun heq ↦ hmiss hother.symm heq.symm
    refine ⟨h.order, forall_update (Fine s.queue s.disk) ⟨fun hbusy ↦ absurd rfl hbusy,
      fun _ ↦ ⟨hdev, hsector⟩, fun hvalid ↦ (by cases hvalid)⟩ fun other _ ↦ h.fine other,
      fun first second ↦ ?_⟩
    have hunique := h.unique first second
    simp only [Cache.set, Function.update_apply]
    grind

/-- The buffer goes to the end of the queue. -/
theorem Coherent.enqueue (h : Coherent s) (hbusy : (s.bufs b).busy) (dirty : Bool) :
    Coherent ⟨Function.update s.bufs b { s.bufs b with dirty }, s.order, s.queue ++ [b],
      s.havedisk1, s.disk⟩ := by
  refine h.update h.order ⟨fun hfree ↦ absurd hbusy hfree, (h.fine b).fits, (h.fine b).data⟩
    (fun other hother ↦ ?_) rfl rfl
  obtain ⟨hidle, hfits, hdata⟩ := h.fine other
  exact ⟨fun hfree ↦ ⟨(hidle hfree).1, by simpa [hother] using (hidle hfree).2⟩, hfits, hdata⟩

theorem Coherent.ideintr (h : Coherent s) : Coherent (ideintr s true) := by
  unfold Buffers.ideintr
  split
  · exact h
  next b rest hqueue =>
    obtain ⟨hidle, hfits, -⟩ := h.fine b
    have hbusy : (s.bufs b).busy := by
      by_contra hfree
      exact (hidle hfree).2 (hqueue ▸ List.mem_cons_self)
    refine h.update h.order ⟨fun hfree ↦ absurd hbusy hfree, fun _ ↦ hfits (Or.inl hbusy),
      fun _ htouched ↦ ?_⟩ (fun other hother ↦ ?_) rfl rfl
    · by_cases hdirty : (s.bufs b).dirty
      · simp [hdirty, Buf.place]
      · simp [hdirty, Buf.place]
    · obtain ⟨hidle', hfits', hdata'⟩ := h.fine other
      refine ⟨fun hfree ↦ ⟨(hidle' hfree).1, fun hmem ↦ (hidle' hfree).2 ?_⟩, hfits',
        fun hvalid htouched ↦ ?_⟩
      · rw [hqueue]
        exact List.mem_cons_of_mem b hmem
      · rw [hdata' hvalid htouched]
        split
        · -- another buffer with the same place would have the same sector
          refine (Function.update_of_ne (fun hplace ↦ hother ?_) _ _).symm
          have hplaces := Prod.mk.inj hplace
          rw [(hfits' (Or.inr hvalid)).1, (hfits (Or.inl hbusy)).1,
            (hfits' (Or.inr hvalid)).2, (hfits (Or.inl hbusy)).2] at hplaces
          refine h.unique other b (fun hminus ↦ ?_) hplaces.1 hplaces.2
          have hdev := (hfits' (Or.inr hvalid)).1
          rw [hminus] at hdev
          exact absurd hdev (by decide)
        · rfl

theorem Coherent.step {action : Action Data} (h : Coherent s) (hallowed : Allowed s action)
    (hstep : step s action = some s') : Coherent s' := by
  cases action with
  | bget dev sector => exact h.bget hallowed.1 hallowed.2 hstep
  | iderw b =>
    obtain ⟨-, hs⟩ := Option.ite_none_left_eq_some.mp hstep
    have hsame := h.enqueue hallowed.1 (s.bufs b).dirty
    rw [Function.update_eq_self] at hsame
    exact Option.some.inj hs ▸ hsame
  | change b data =>
    exact Option.some.inj hstep ▸ h.update h.order ⟨fun hfree ↦ absurd hallowed.1 hfree,
      (h.fine b).fits, fun _ htouched ↦ absurd rfl htouched⟩ (fun other _ ↦ h.fine other) rfl rfl
  | bwrite b =>
    obtain ⟨-, hs⟩ := Option.ite_none_left_eq_some.mp hstep
    obtain ⟨-, hs⟩ := Option.ite_none_left_eq_some.mp hs
    exact Option.some.inj hs ▸ h.enqueue hallowed.1 true
  | brelse b =>
    obtain ⟨-, hs⟩ := Option.ite_none_left_eq_some.mp hstep
    obtain ⟨⟨-, hvalid, hqueue⟩, htouched⟩ := hallowed
    refine Option.some.inj hs ▸ h.update (fun other ↦ ?_) ⟨fun _ ↦ ⟨htouched, hqueue⟩,
      fun _ ↦ (h.fine b).fits (Or.inr hvalid), (h.fine b).data⟩ (fun other _ ↦ h.fine other) rfl rfl
    by_cases hother : other = b
    · simp [hother]
    · exact List.mem_cons_of_mem b ((List.mem_erase_of_ne hother).mpr (h.order other))
  | ideintr ok =>
    cases ok with
    | false => cases hallowed
    | true => exact Option.some.inj hstep ▸ h.ideintr

theorem coherent_initial (bufs : Index → Buf Data) :
    Coherent (.initial bufs havedisk1 disk) where
  order := by simp [Cache.initial]
  fine b := by constructor <;> simp [Cache.initial]
  unique b b' hdev := absurd rfl hdev

/-- A buffer has what the disk has until its holder changes it, and no sector is in two buffers. -/
def Cache.InStep (s : Cache Data) : Prop :=
  (∀ b, (s.bufs b).valid → ¬ (s.bufs b).touched →
    (s.bufs b).data = s.disk ((s.bufs b).dev, (s.bufs b).sector)) ∧
  (∀ b, ¬ (s.bufs b).busy → ¬ (s.bufs b).touched) ∧
  (∀ b, (s.bufs b).valid → (s.bufs b).dev ≠ -1) ∧
  ∀ b b', (s.bufs b).dev ≠ -1 → (s.bufs b).dev = (s.bufs b').dev →
    (s.bufs b).sector = (s.bufs b').sector → b = b'

theorem buffers_coherent (bufs : Index → Buf Data) {actions : List (Action Data)}
    (hguarded : Guarded step Allowed (.initial bufs havedisk1 disk) actions)
    (hrun : run step (.initial bufs havedisk1 disk) actions = some s) : s.InStep := by
  have h := hguarded.invariant_of_run (fun _ _ _ h ↦ h.step) (coherent_initial bufs) hrun
  refine ⟨fun b hvalid htouched ↦ ?_, fun b hfree ↦ ((h.fine b).idle hfree).1,
    fun b hvalid hminus ↦ ?_, h.unique⟩ <;>
    have hfits := (h.fine b).fits (Or.inr hvalid)
  · rw [(h.fine b).data hvalid htouched, Buf.place, hfits.1, hfits.2]
  · rw [hminus] at hfits
    exact absurd hfits.1 (by decide)

/-- A sector is read, changed, written and released, and found in the cache. -/
def sampleRun : Cache ℕ × List (Action ℕ) :=
  (.initial (fun _ ↦ ⟨false, false, false, 0, 0, 0, false⟩) true fun _ ↦ 5,
    [.bget 1 7, .iderw 0, .ideintr true, .change 0 9, .bwrite 0, .ideintr true, .brelse 0,
      .bget 1 7])

theorem sampleRun_coherent : ∃ s, run step sampleRun.1 sampleRun.2 = some s ∧ s.InStep := by
  have hsome : (run step sampleRun.1 sampleRun.2).isSome := by decide
  obtain ⟨s, hrun⟩ := Option.isSome_iff_exists.mp hsome
  exact ⟨s, hrun, buffers_coherent _ (by decide) hrun⟩

end OS537.Buffers
