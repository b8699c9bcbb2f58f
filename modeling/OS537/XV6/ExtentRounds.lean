import OS537.XV6.Sessions

/-!
# Blocks of extent files

A new block of an extent file goes to the extent that it adjoins or into an empty slot. With six
slots in use and no extent to adjoin, `bmap` has marked the block already and panics with "bmap: out
of range". The loops of `readi` and `writei` on an extent inode go through exactly if that does not
happen in any round.
-/

namespace OS537.XV6

open Bytes Run

/-! ## A call of `bmap` -/

/-- The new block `addr` for `bn` adjoins the extent before it, or a slot is empty. -/
def Addrs.hasPlace (addrs : Addrs) (bn addr : Word) : Bool :=
  (addrs.growing bn addr).isSome || addrs.fillBlock.isSome

/-- The block is there, or `balloc` finds a free one. -/
def FS.BlockRemains (fs : FS) (slot : Slot) (bn : Word) : Prop :=
  ((fs.icache slot).addrs.slotOf bn).isSome ∨ (balloc fs.disk).isSome

/-- The block is there, or the one that `balloc` finds has a place. -/
def FS.BlockFits (fs : FS) (slot : Slot) (bn : Word) : Prop :=
  ((fs.icache slot).addrs.slotOf bn).isSome ∨
    ∀ new ∈ balloc fs.disk, (fs.icache slot).addrs.hasPlace bn new.1 = true

instance (fs : FS) (slot : Slot) (bn : Word) : Decidable (fs.BlockRemains slot bn) :=
  inferInstanceAs (Decidable (_ ∨ _))

instance (fs : FS) (slot : Slot) (bn : Word) : Decidable (fs.BlockFits slot bn) :=
  inferInstanceAs (Decidable (_ ∨ _))

variable {disk : Disk} {addrs : Addrs} {bn : Word} {fs fs' : FS} {slot : Slot}

theorem Addrs.record_isSome (addr : Word) :
    (addrs.record bn addr addrs.fillBlock (addrs.neighborBlock bn)).isSome =
      addrs.hasPlace bn addr := by
  unfold Addrs.record Addrs.hasPlace Addrs.growing
  cases (addrs.neighborBlock bn).filter (addrs.adjoins addr) with
  | some k => rfl
  | none => simp

theorem bmapExtent_isSome_of_missing (hmissing : addrs.slotOf bn = none) :
    (bmapExtent disk addrs bn).isSome = (balloc disk).any fun new ↦ addrs.hasPlace bn new.1 := by
  unfold bmapExtent
  rw [search_eq, hmissing]
  cases balloc disk with
  | none => rfl
  | some new =>
    rw [Option.any_some, ← Addrs.record_isSome]
    simp only [Option.bind_eq_bind, Option.bind_some, Option.pure_def]
    cases addrs.record bn new.1 addrs.fillBlock (addrs.neighborBlock bn) with
    | none => rfl
    | some next => rfl

/-- `bmap` returns if a block remains and has a place, and panics otherwise. -/
theorem mapSlot_isSome_iff {off : Word} (htype : (fs.icache slot).type = .extent) :
    (mapSlot slot off fs).isSome ↔
      fs.BlockRemains slot (off / 512) ∧ fs.BlockFits slot (off / 512) := by
  have hbmap : (mapSlot slot off fs).isSome =
      (bmapExtent fs.disk (fs.icache slot).addrs (off / 512)).isSome := by
    unfold mapSlot
    rw [bmap_eq, if_pos htype]
    cases bmapExtent fs.disk (fs.icache slot).addrs (off / 512) <;> rfl
  unfold FS.BlockRemains FS.BlockFits
  rw [hbmap]
  cases hslot : (fs.icache slot).addrs.slotOf (off / 512) with
  | some k =>
    rw [bmapExtent_of_slot _ _ _ hslot]
    simp
  | none =>
    rw [bmapExtent_isSome_of_missing hslot]
    cases balloc fs.disk with
    | none => simp
    | some new => simp

theorem mapSlot_remaps {off addr : Word} (h : mapSlot slot off fs = some (addr, fs')) :
    (fs.icache slot).Remaps (fs'.icache slot) := by
  obtain ⟨ip, disk, hbmap, rfl⟩ := mapSlot_cases h
  rw [FS.set_icache_self]
  exact (bmap_extends hbmap).1

/-! ## Rounds -/

/-- A round of `readi` or `writei` for the inode. -/
def Act.Maps (slot : Slot) : Act → Prop
  | .load other _ => other = slot
  | .store other _ _ _ => other = slot
  | _ => False

/-- A block remains for the round. -/
def FS.Remains (fs : FS) : Act → Prop
  | .load slot off => fs.BlockRemains slot (off / 512)
  | .store slot off _ _ => fs.BlockRemains slot (off / 512)
  | _ => True

/-- The block of the round has a place. -/
def FS.Fits (fs : FS) : Act → Prop
  | .load slot off => fs.BlockFits slot (off / 512)
  | .store slot off _ _ => fs.BlockFits slot (off / 512)
  | _ => True

instance (fs : FS) : (act : Act) → Decidable (fs.Remains act)
  | .load slot off => inferInstanceAs (Decidable (fs.BlockRemains slot (off / 512)))
  | .store slot off _ _ => inferInstanceAs (Decidable (fs.BlockRemains slot (off / 512)))
  | .iget _ | .ialloc _ | .idup _ | .ilock _ | .iunlock _ | .iput _ | .iupdate _ | .assign _ _ =>
    isTrue trivial

instance (fs : FS) : (act : Act) → Decidable (fs.Fits act)
  | .load slot off => inferInstanceAs (Decidable (fs.BlockFits slot (off / 512)))
  | .store slot off _ _ => inferInstanceAs (Decidable (fs.BlockFits slot (off / 512)))
  | .iget _ | .ialloc _ | .idup _ | .ilock _ | .iunlock _ | .iput _ | .iupdate _ | .assign _ _ =>
    isTrue trivial

/-- The extent inode is locked. -/
structure FS.ExtentLocked (fs : FS) (slot : Slot) : Prop where
  locked : fs.Locked slot
  type : (fs.icache slot).type = .extent

theorem FS.ExtentLocked.remaps (h : fs.ExtentLocked slot)
    (hremaps : (fs.icache slot).Remaps (fs'.icache slot)) : fs'.ExtentLocked slot where
  locked := hremaps.locked h.locked
  type := by
    rw [hremaps]
    exact h.type

theorem FS.ExtentLocked.act_isSome_iff (h : fs.ExtentLocked slot) {act : Act}
    (hmaps : act.Maps slot) : (fs.act act).isSome ↔ fs.Remains act ∧ fs.Fits act := by
  cases act with
  | load other off =>
    cases hmaps
    have hact : (fs.act (.load slot off)).isSome = (mapSlot slot off fs).isSome := by
      rw [FS.act, whenLocked, if_pos h.locked, Option.isSome_map]
    rw [hact]
    exact mapSlot_isSome_iff h.type
  | store other off m src =>
    cases hmaps
    have hact : (fs.act (.store slot off m src)).isSome = (mapSlot slot off fs).isSome := by
      rw [FS.act, whenLocked, if_pos h.locked, Option.isSome_map]
      cases hmap : mapSlot slot off fs with
      | none => exact congrArg Option.isSome (Code.bind_run_none hmap)
      | some result => exact congrArg Option.isSome (Code.bind_run hmap)
    rw [hact]
    exact mapSlot_isSome_iff h.type
  | _ => cases hmaps

theorem act_remaps {act : Act} (hmaps : act.Maps slot) (hact : fs.act act = some fs') :
    (fs.icache slot).Remaps (fs'.icache slot) := by
  cases act with
  | load other off =>
    cases hmaps
    obtain ⟨⟨addr, next⟩, hrun, rfl⟩ := Option.map_eq_some_iff.mp hact
    exact mapSlot_remaps (whenLocked_cases hrun).2
  | store other off m src =>
    cases hmaps
    obtain ⟨⟨⟨⟩, next⟩, hrun, rfl⟩ := Option.map_eq_some_iff.mp hact
    obtain ⟨addr, middle, hmap, hwrite⟩ := Code.bind_eq_some (whenLocked_cases hrun).2
    cases hwrite
    have hremaps := mapSlot_remaps hmap
    exact hremaps
  | _ => cases hmaps

/-- The rounds go through exactly if a block remains for each and has a place. -/
theorem FS.ExtentLocked.run_isSome_iff (h : fs.ExtentLocked slot) {acts : List Act}
    (hmaps : ∀ act ∈ acts, act.Maps slot) :
    (run FS.act fs acts).isSome ↔
      Guarded FS.act FS.Remains fs acts ∧ Guarded FS.act FS.Fits fs acts := by
  induction acts generalizing fs with
  | nil => simp [Guarded]
  | cons act rest ih =>
    have hfirst := hmaps act List.mem_cons_self
    have hrest : ∀ act ∈ rest, act.Maps slot := fun act hact ↦
      hmaps act (List.mem_cons_of_mem _ hact)
    have hiff := h.act_isSome_iff hfirst
    cases hact : fs.act act with
    | none =>
      rw [hact] at hiff
      rw [run, hact]
      refine ⟨fun hsome ↦ absurd hsome (by simp), fun hboth ↦ ?_⟩
      exact absurd (hiff.mpr ⟨hboth.1.1, hboth.2.1⟩) (by simp)
    | some next =>
      rw [hact] at hiff
      obtain ⟨hremains, hfits⟩ := hiff.mp rfl
      rw [run_cons_of_step rest hact, guarded_cons_iff rest hact, guarded_cons_iff rest hact,
        ih (h.remaps (act_remaps hfirst hact)) hrest]
      simp only [hremains, hfits, true_and]

theorem run_remaps {acts : List Act} (hmaps : ∀ act ∈ acts, act.Maps slot)
    (hrun : run FS.act fs acts = some fs') : (fs.icache slot).Remaps (fs'.icache slot) := by
  induction acts generalizing fs with
  | nil =>
    cases hrun
    exact .refl _
  | cons act rest ih =>
    obtain ⟨next, hact, hrest⟩ := Option.bind_eq_some_iff.mp hrun
    have hfirst := act_remaps (hmaps act List.mem_cons_self) hact
    exact hfirst.trans (ih (fun act hmem ↦ hmaps act (List.mem_cons_of_mem _ hmem)) hrest)

theorem loads_maps (rounds : List Round) : ∀ act ∈ loads slot rounds, act.Maps slot := by
  intro act hact
  obtain ⟨round, -, rfl⟩ := List.mem_map.mp hact
  rfl

theorem stores_maps (src : Store) (rounds : List Round) :
    ∀ act ∈ stores slot src rounds, act.Maps slot := by
  intro act hact
  obtain ⟨round, -, rfl⟩ := List.mem_map.mp hact
  rfl

/-- The loop in `readi` is a run of its acts. -/
theorem readRounds_run (hlocked : fs.Locked slot) (rounds : List Round) :
    (readRounds slot rounds fs).map Prod.snd = run FS.act fs (loads slot rounds) := by
  induction rounds generalizing fs with
  | nil => rfl
  | cons round rest ih =>
    have hact : fs.act (.load slot (BitVec.ofNat 32 round.off)) =
        (mapSlot slot (BitVec.ofNat 32 round.off) fs).map Prod.snd := by
      rw [FS.act, whenLocked, if_pos hlocked]
    rw [readRounds, loads, List.map_cons, run, hact]
    cases hmap : mapSlot slot (BitVec.ofNat 32 round.off) fs with
    | none => rw [Code.bind_run_none hmap]; rfl
    | some result =>
      have hread : readBlock result.1 round.off round.m result.2 = some (_, result.2) := rfl
      have hrest := ih ((mapSlot_remaps hmap).locked hlocked)
      rw [loads] at hrest
      rw [Code.bind_run hmap, Code.bind_run hread, Option.map_some, Option.bind_some, ← hrest]
      cases hnext : readRounds slot rest result.2 with
      | none => exact congrArg (Option.map Prod.snd) (Code.bind_run_none hnext)
      | some last =>
        rw [Code.bind_run hnext]
        rfl

/-- The loop in `writei` is a run of its acts. -/
theorem writeRounds_run (hlocked : fs.Locked slot) (src : Store) (rounds : List Round) :
    (writeRounds slot src rounds fs).map Prod.snd = run FS.act fs (stores slot src rounds) := by
  induction rounds generalizing fs with
  | nil => rfl
  | cons round rest ih =>
    have hact : fs.act (.store slot (BitVec.ofNat 32 round.off) round.m
        fun i ↦ src (round.tot + i)) =
        (storeRound slot (BitVec.ofNat 32 round.off) round.m
          (fun i ↦ src (round.tot + i)) fs).map Prod.snd := by
      rw [FS.act, whenLocked, if_pos hlocked]
    rw [writeRounds, stores, List.map_cons, run, hact]
    cases hround : storeRound slot (BitVec.ofNat 32 round.off) round.m
        (fun i ↦ src (round.tot + i)) fs with
    | none => rw [Code.bind_run_none hround]; rfl
    | some result =>
      rw [Code.bind_run hround, Option.map_some, Option.bind_some]
      rw [hround] at hact
      have hstored : (fs.icache slot).Remaps (result.2.icache slot) := by
        refine act_remaps ?_ hact
        rfl
      exact ih (hstored.locked hlocked)

/-! ## Reading and writing -/

variable {off n : Word} {src : Store}

theorem FS.ExtentLocked.set (h : fs.ExtentLocked slot) (disk : Disk) {ip : Inode}
    (href : ip.ref = (fs.icache slot).ref) (hvalid : ip.valid = (fs.icache slot).valid)
    (hbusy : ip.busy = (fs.icache slot).busy) (htype : ip.type = (fs.icache slot).type) :
    FS.ExtentLocked (FS.set { fs with disk := disk } slot ip) slot := by
  have hlocked := h.locked
  unfold FS.Locked FS.Cached at hlocked
  refine ⟨⟨FS.cached_set_self.mpr ?_, ?_⟩, ?_⟩
  · rw [href, hvalid]
    exact hlocked.1
  · rw [FS.set_icache_self, hbusy]
    exact hlocked.2
  · rw [FS.set_icache_self, htype]
    exact h.type

theorem FS.ExtentLocked.readi_isSome (h : fs.ExtentLocked slot)
    (haccepts : (fs.icache slot).refuses off n = false) :
    (readi slot off n fs).isSome =
      (run FS.act fs (loads slot
        (roundsOf off ((fs.icache slot).readLength off n)))).isSome := by
  rw [← readRounds_run h.locked, Option.isSome_map, readi]
  simp only [haccepts, Bool.false_eq_true, if_false, Option.isSome_map]
  rfl

theorem FS.ExtentLocked.readi (h : fs.ExtentLocked slot) {result : Word × List Byte}
    (hrun : XV6.readi slot off n fs = some (result, fs')) : fs'.ExtentLocked slot := by
  unfold XV6.readi at hrun
  dsimp only at hrun
  split at hrun
  · cases hrun
    exact h
  · obtain ⟨⟨data, next⟩, hrounds, hresult⟩ := Option.map_eq_some_iff.mp hrun
    cases hresult
    have hrun := readRounds_run h.locked
      (roundsOf off ((fs.icache slot).readLength off n))
    rw [roundsOf, hrounds] at hrun
    exact h.remaps (run_remaps (loads_maps _) hrun.symm)

theorem growSize_isSome (slot : Slot) (n size : Word) (fs : FS) :
    (growSize slot n size fs).isSome = true := by
  unfold growSize
  split
  · rfl
  · rfl

theorem FS.ExtentLocked.growSize (h : fs.ExtentLocked slot) {size : Word} {result : Unit}
    (hrun : XV6.growSize slot n size fs = some (result, fs')) : fs'.ExtentLocked slot := by
  unfold XV6.growSize at hrun
  split at hrun
  · cases hrun
    exact h.set _ rfl rfl rfl rfl
  · cases hrun
    exact h

theorem Dinode.writeLength_extent {node : Dinode} (h : node.type = .extent) :
    node.writeLength off n = n := by
  unfold Dinode.writeLength
  rw [if_neg fun hboth ↦ hboth.2 h]

/-- `writei` on an extent inode, past its checks: there is no largest size. -/
theorem FS.ExtentLocked.writei_eq (h : fs.ExtentLocked slot)
    (haccepts : (fs.icache slot).refuses off n = false) :
    writei slot src off n fs = (do
      writeRounds slot src (roundsOf off n)
      XV6.growSize slot n (off + n)
      return n : FSM Word) fs := by
  unfold writei
  simp only [haccepts, Bool.false_eq_true, if_false, Dinode.writeLength_extent h.type]
  rfl

theorem FS.ExtentLocked.writei_isSome (h : fs.ExtentLocked slot)
    (haccepts : (fs.icache slot).refuses off n = false) :
    (writei slot src off n fs).isSome =
      (run FS.act fs (stores slot src (roundsOf off n))).isSome := by
  rw [← writeRounds_run h.locked, Option.isSome_map, h.writei_eq haccepts]
  cases hrounds : writeRounds slot src (roundsOf off n) fs with
  | none => exact congrArg Option.isSome (Code.bind_run_none hrounds)
  | some result =>
    obtain ⟨grown, hgrown⟩ := Option.isSome_iff_exists.mp
      (growSize_isSome slot n (off + n) result.2)
    rw [Code.bind_run hrounds, Code.bind_run hgrown]
    rfl

/-- A write is refused and nothing has changed, or all of it is written. -/
theorem FS.ExtentLocked.writei (h : fs.ExtentLocked slot) {r : Word}
    (hrun : XV6.writei slot src off n fs = some (r, fs')) :
    fs'.ExtentLocked slot ∧ (r = -1 ∧ fs' = fs ∨ r = n) := by
  cases haccepts : (fs.icache slot).refuses off n with
  | true =>
    simp only [XV6.writei, haccepts, if_true, Option.some.injEq, Prod.mk.injEq] at hrun
    obtain ⟨rfl, rfl⟩ := hrun
    exact ⟨h, .inl ⟨rfl, rfl⟩⟩
  | false =>
    rw [h.writei_eq haccepts] at hrun
    obtain ⟨⟨⟩, middle, hrounds, hrun⟩ := Code.bind_eq_some hrun
    obtain ⟨⟨⟩, last, hgrown, hresult⟩ := Code.bind_eq_some hrun
    cases hresult
    have hstored := writeRounds_run h.locked src (roundsOf off n)
    rw [hrounds] at hstored
    have hmiddle := h.remaps (run_remaps (stores_maps src _) hstored.symm)
    exact ⟨hmiddle.growSize hgrown, .inr rfl⟩

end OS537.XV6
