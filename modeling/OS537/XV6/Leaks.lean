import OS537.Base.Run
import OS537.XV6.Growth

/-!
# What truncation gives back

A run of `bmap` calls on one inode that starts empty, and the `itrunc` after it. The calls that are
`Recorded` keep the list of allocated blocks and the list of reachable blocks the same up to order,
and then `itrunc` frees the one by going through the other. A call that is not recorded makes the
two lists differ, and no later call repairs that.
-/

namespace OS537.XV6

open Bytes Run

/-- The disk and one inode on it. -/
structure Mapping where
  disk : Disk
  ip : Inode

/-- The state after a call of `bmap` for one block. -/
def Mapping.map (mapping : Mapping) (bn : Word) : Option Mapping :=
  (bmap mapping.disk mapping.ip bn).map fun result ↦ ⟨result.2.2, result.2.1⟩

/-- The call records the blocks that it allocates, and no others. A pointer can hold every data
block. -/
def Mapping.Recorded (mapping : Mapping) (bn : Word) : Prop :=
  (mapping.ip.type = .extent → ¬ Loses mapping.disk mapping.ip.toDinode bn) ∧
    strays mapping.disk mapping.ip.toDinode bn = []

instance (mapping : Mapping) (bn : Word) : Decidable (mapping.Recorded bn) :=
  inferInstanceAs (Decidable ((_ → _) ∧ _))

def Mapping.reach (mapping : Mapping) : List Word := XV6.reach mapping.disk mapping.ip.toDinode

/-- The bit of the block was clear on the first disk and is set now. -/
def Mapping.SetSince (disk : Disk) (mapping : Mapping) (b : Word) : Prop :=
  disk.used b = false ∧ mapping.disk.used b = true

/-- `itrunc` ends without a panic, frees data blocks only, leaves no address in the inode, and
clears exactly the bits that were set since `disk`. -/
def Mapping.Restores (disk : Disk) (mapping : Mapping) : Prop :=
  (∀ b ∈ mapping.reach, disk.InData b) ∧
  ∃ ip' disk', itrunc mapping.disk mapping.ip = some (ip', disk') ∧ (∀ i, ip'.addrs i = 0) ∧
    (∀ b, mapping.SetSince disk b → disk'.used b = false) ∧
    ∀ b, ¬ mapping.SetSince disk b → disk'.used b = mapping.disk.used b

variable {disk : Disk} {mapping next : Mapping} {bn : Word} {log : List Word}

theorem Mapping.map_extends (h : mapping.map bn = some next) :
    ∃ addr new, bmap mapping.disk mapping.ip bn = some (addr, next.ip, next.disk) ∧
      next.ip.type = mapping.ip.type ∧
      Extends mapping.disk mapping.ip.toDinode bn next.disk next.ip.toDinode addr new := by
  obtain ⟨⟨addr, ip', disk'⟩, hbmap, rfl⟩ := Option.map_eq_some_iff.mp h
  obtain ⟨hip, new, hextends⟩ := bmap_extends hbmap
  exact ⟨addr, new, hbmap, congrArg (fun ip ↦ ip.type) hip, hextends⟩

/-! ## Recorded calls -/

/-- The blocks allocated since `disk` are those that the inode reaches. -/
structure Accounted (disk : Disk) (mapping : Mapping) (log : List Word) : Prop where
  takes : Takes disk mapping.disk log
  perm : mapping.reach.Perm log
  last : mapping.ip.type = .extent → mapping.ip.addrs 12 = 0

/-- A pointer inode loses no block of a disk whose block 0 is in use. -/
theorem not_loses_of_pointer (htakes : Takes disk mapping.disk log) (hboot : disk.used 0 = true)
    (htype : mapping.ip.type ≠ .extent) : ¬ Loses mapping.disk mapping.ip.toDinode bn := by
  rintro ⟨-, free, hnext, hzero⟩
  rw [unrecorded, if_neg htype, beq_iff_eq] at hzero
  have hclear := (Disk.nextFree_eq_some_iff.mp hnext).clear
  rw [hzero, (htakes.used_iff 0).mpr (.inr hboot)] at hclear
  cases hclear

theorem Mapping.Recorded.not_loses (h : mapping.Recorded bn) (htakes : Takes disk mapping.disk log)
    (hboot : disk.used 0 = true) : ¬ Loses mapping.disk mapping.ip.toDinode bn := by
  by_cases htype : mapping.ip.type = .extent
  · exact h.1 htype
  · exact not_loses_of_pointer htakes hboot htype

theorem Accounted.step (h : Accounted disk mapping log) (hboot : disk.used 0 = true)
    (hrecorded : mapping.Recorded bn)
    (hmap : mapping.map bn = some next) : ∃ log, Accounted disk next log := by
  obtain ⟨addr, new, -, htype, hextends⟩ := Mapping.map_extends hmap
  refine ⟨new ++ log, h.takes.trans hextends.takes, ?_, fun hextent ↦ ?_⟩
  · have hperm := hextends.perm (hrecorded.not_loses h.takes hboot)
    rw [hrecorded.2, List.nil_append] at hperm
    exact hperm.trans (h.perm.append_left new)
  · rw [htype] at hextent
    exact (hextends.last (.inl hextent)).trans (h.last hextent)

theorem Accounted.restores (h : Accounted disk mapping log) (hformatted : disk.Formatted)
    (hsize : ∀ b, mapping.SetSince disk b → b.toNat < disk.size) : mapping.Restores disk := by
  have hnodup : mapping.reach.Nodup := h.perm.nodup_iff.mpr h.takes.nodup
  have hused : ∀ b ∈ mapping.reach, mapping.disk.used b = true := by
    intro b hmem
    exact (h.takes.used_iff b).mpr (.inl (h.perm.mem_iff.mp hmem))
  have hset : ∀ b ∈ mapping.reach, mapping.SetSince disk b := fun b hmem ↦
    ⟨h.takes.clear b (h.perm.mem_iff.mp hmem), hused b hmem⟩
  refine ⟨fun b hmem ↦ hformatted.inData (hsize b (hset b hmem)) (hset b hmem).1, _, _,
    itrunc_eq_some_iff.mpr ⟨hnodup, hused, rfl, rfl⟩, fun i ↦ ?_, fun b hset ↦ ?_, fun b hkept ↦ ?_⟩
  · unfold Inode.truncated
    by_cases htype : mapping.ip.type = .extent
    · by_cases hi : i = 12
      · simp only [htype, if_true, hi, h.last htype]
      · simp only [htype, if_true, hi, if_false]
    · simp only [htype, if_false]
  · have hmem : b ∈ mapping.reach := by
      rw [h.perm.mem_iff]
      exact ((h.takes.used_iff b).mp hset.2).resolve_right (by simp [hset.1])
    exact if_pos hmem
  · exact if_neg fun hmem ↦ hkept (hset b hmem)

/-! ## Other calls -/

/-- The two lists differ for good. An extent inode has lost a block and reaches none that is free;
any other inode reaches more blocks than were allocated. -/
structure Mismatched (disk : Disk) (mapping : Mapping) (log : List Word) : Prop where
  takes : Takes disk mapping.disk log
  extent : mapping.ip.type = .extent →
    (∀ b ∈ mapping.reach, mapping.disk.used b = true) ∧ ∃ b ∈ log, b ∉ mapping.reach
  pointer : mapping.ip.type ≠ .extent → log.length < mapping.reach.length

theorem Mismatched.not_restores (h : Mismatched disk mapping log) : ¬ mapping.Restores disk := by
  rintro ⟨-, ip', disk', htrunc, -, hcleared, hkept⟩
  obtain ⟨hnodup, hused, -, rfl⟩ := itrunc_eq_some_iff.mp htrunc
  have hlog : ∀ b ∈ log, b ∈ mapping.reach := by
    intro b hmem
    have hset : mapping.SetSince disk b :=
      ⟨h.takes.clear b hmem, (h.takes.used_iff b).mpr (.inl hmem)⟩
    have hclear : (if b ∈ mapping.reach then false else mapping.disk.used b) = false :=
      hcleared b hset
    by_contra hnotMem
    rw [if_neg hnotMem, hset.2] at hclear
    contradiction
  by_cases htype : mapping.ip.type = .extent
  · obtain ⟨-, b, hmem, hnotMem⟩ := h.extent htype
    exact hnotMem (hlog b hmem)
  · have hsubset : mapping.reach ⊆ log := by
      intro b hmem
      by_contra hnotMem
      have hset : ¬ mapping.SetSince disk b := by
        rintro ⟨hclear, hnow⟩
        exact ((h.takes.used_iff b).mp hnow).elim hnotMem (by simp [hclear])
      have hfreed : (if b ∈ mapping.reach then false else mapping.disk.used b) =
          mapping.disk.used b := hkept b hset
      rw [if_pos hmem, hused b hmem] at hfreed
      contradiction
    exact absurd (hnodup.subperm hsubset).length_le (not_le.mpr (h.pointer htype))

theorem loses_of_strays (htype : mapping.ip.type = .extent)
    (h : strays mapping.disk mapping.ip.toDinode bn ≠ []) :
    Loses mapping.disk mapping.ip.toDinode bn := by
  unfold strays at h
  cases hnext : mapping.disk.nextFree with
  | none => simp [hnext] at h
  | some free =>
    simp only [hnext, htype, if_true] at h
    by_cases hwide : mapping.ip.addrs.slotOf bn = none ∧
        mapping.ip.addrs.growing bn free = none ∧ 2 ^ 24 ≤ free.toNat
    · refine ⟨by simp [lookup_extent htype, Addrs.addrOf, hwide.1], free, hnext, ?_⟩
      simp only [unrecorded, htype, if_true, hwide.2.1, hwide.2.2, decide_true]
    · rw [if_neg hwide] at h
      contradiction

/-- The 24 bits that an extent keeps of a longer address belong to a lower block, and all of those
are in use. -/
theorem strays_used (htype : mapping.ip.type = .extent) :
    ∀ b ∈ strays mapping.disk mapping.ip.toDinode bn, mapping.disk.used b = true := by
  intro b hmem
  unfold strays at hmem
  cases hnext : mapping.disk.nextFree with
  | none => simp [hnext] at hmem
  | some free =>
    simp only [hnext, htype, if_true] at hmem
    by_cases hwide : mapping.ip.addrs.slotOf bn = none ∧
        mapping.ip.addrs.growing bn free = none ∧ 2 ^ 24 ≤ free.toNat
    · rw [if_pos hwide, List.mem_singleton] at hmem
      apply (Disk.nextFree_eq_some_iff.mp hnext).lowest
      have hlt := extentBase_lt ((free <<< 8) + 1)
      rw [hmem]
      omega
    · rw [if_neg hwide] at hmem
      contradiction

/-- A call on an extent inode that reaches no free block. -/
theorem mismatched_extent {addr : Word} {new : List Word} (htype : mapping.ip.type = .extent)
    (htakes : Takes disk mapping.disk log)
    (hused : ∀ b ∈ mapping.reach, mapping.disk.used b = true)
    (hbad : ¬ mapping.Recorded bn ∨ ∃ b ∈ log, b ∉ mapping.reach)
    (hbmap : bmap mapping.disk mapping.ip bn = some (addr, next.ip, next.disk))
    (hextends : Extends mapping.disk mapping.ip.toDinode bn next.disk next.ip.toDinode addr new) :
    (∀ b ∈ next.reach, next.disk.used b = true) ∧ ∃ b ∈ new ++ log, b ∉ next.reach := by
  refine ⟨fun b hmem ↦ ?_, ?_⟩
  · rw [hextends.takes.used_iff]
    rcases List.mem_append.mp (hextends.subperm.subset hmem) with hnew | hrest
    · exact .inl hnew
    · rcases List.mem_append.mp hrest with hstray | hreach
      · exact .inr (strays_used htype b hstray)
      · exact .inr (hused b hreach)
  · by_cases hloses : Loses mapping.disk mapping.ip.toDinode bn
    · rw [bmap_eq, if_pos htype] at hbmap
      simp only [Option.map_eq_some_iff, Prod.exists, Prod.mk.injEq] at hbmap
      obtain ⟨found, addrs', disk₁, hcode, rfl, hip, rfl⟩ := hbmap
      obtain ⟨hfree, hlost⟩ := bmapExtent_loses htype hloses hused hcode
      have hnew : found ∈ new := hextends.first_mem hloses.1 found hfree
      have hreach : next.reach = addrs'.extents := by
        rw [Mapping.reach, ← hip]
        exact if_pos htype
      exact ⟨found, List.mem_append_left _ hnew, hreach ▸ hlost⟩
    · have hstrays : strays mapping.disk mapping.ip.toDinode bn = [] := by
        by_contra hne
        exact hloses (loses_of_strays htype hne)
      obtain ⟨b, hmem, hnotMem⟩ := hbad.resolve_left (not_not_intro ⟨fun _ ↦ hloses, hstrays⟩)
      refine ⟨b, List.mem_append_right _ hmem, fun hreached ↦ ?_⟩
      have hperm := hextends.perm hloses
      rw [hstrays, List.nil_append] at hperm
      rcases List.mem_append.mp (hperm.mem_iff.mp hreached) with hnew | hreach
      · have hset := (htakes.used_iff b).mpr (.inl hmem)
        rw [hextends.takes.clear b hnew] at hset
        contradiction
      · exact hnotMem hreach

/-- A call on any other inode. -/
theorem mismatched_pointer {addr : Word} {new : List Word} (htype : mapping.ip.type ≠ .extent)
    (hloses : ¬ Loses mapping.disk mapping.ip.toDinode bn)
    (hlength : log.length ≤ mapping.reach.length)
    (hbad : ¬ mapping.Recorded bn ∨ log.length < mapping.reach.length)
    (hextends : Extends mapping.disk mapping.ip.toDinode bn next.disk next.ip.toDinode addr new) :
    (new ++ log).length < next.reach.length := by
  have hcount : next.reach.length = (new ++ (strays mapping.disk mapping.ip.toDinode bn ++
      mapping.reach)).length := (hextends.perm hloses).length_eq
  rw [hcount, List.length_append, List.length_append, List.length_append]
  rcases hbad with hbad | hmore
  · have hstrays : strays mapping.disk mapping.ip.toDinode bn ≠ [] :=
      fun h ↦ hbad ⟨fun hextent ↦ absurd hextent htype, h⟩
    have hpos := List.length_pos_of_ne_nil hstrays
    omega
  · omega

section Boot

variable (hboot : disk.used 0 = true)

include hboot

theorem Accounted.mismatched (h : Accounted disk mapping log) (hbad : ¬ mapping.Recorded bn)
    (hmap : mapping.map bn = some next) : ∃ log, Mismatched disk next log := by
  obtain ⟨addr, new, hbmap, htype, hextends⟩ := Mapping.map_extends hmap
  refine ⟨new ++ log, h.takes.trans hextends.takes, fun hextent ↦ ?_, fun hpointer ↦ ?_⟩
  · have hused : ∀ b ∈ mapping.reach, mapping.disk.used b = true := fun b hmem ↦
      (h.takes.used_iff b).mpr (.inl (h.perm.mem_iff.mp hmem))
    exact mismatched_extent (htype ▸ hextent) h.takes hused (.inl hbad) hbmap hextends
  · exact mismatched_pointer (htype ▸ hpointer)
      (not_loses_of_pointer h.takes hboot (htype ▸ hpointer)) h.perm.length_eq.ge (.inl hbad)
      hextends

theorem Mismatched.step (h : Mismatched disk mapping log) (hmap : mapping.map bn = some next) :
    ∃ log, Mismatched disk next log := by
  obtain ⟨addr, new, hbmap, htype, hextends⟩ := Mapping.map_extends hmap
  refine ⟨new ++ log, h.takes.trans hextends.takes, fun hextent ↦ ?_, fun hpointer ↦ ?_⟩
  · obtain ⟨hused, hlost⟩ := h.extent (htype ▸ hextent)
    exact mismatched_extent (htype ▸ hextent) h.takes hused (.inr hlost) hbmap hextends
  · have hmore := h.pointer (htype ▸ hpointer)
    exact mismatched_pointer (htype ▸ hpointer)
      (not_loses_of_pointer h.takes hboot (htype ▸ hpointer)) hmore.le (.inr hmore) hextends

theorem Mismatched.run {final : Mapping} (h : Mismatched disk mapping log) (calls : List Word)
    (hrun : Run.run Mapping.map mapping calls = some final) : ∃ log, Mismatched disk final log := by
  induction calls generalizing mapping log with
  | nil =>
    cases Option.some.inj hrun
    exact ⟨log, h⟩
  | cons bn rest ih =>
    obtain ⟨next, hnext, hrest⟩ := Option.bind_eq_some_iff.mp hrun
    obtain ⟨log', hmismatched⟩ := h.step hboot hnext
    exact ih hmismatched hrest

end Boot

theorem Accounted.restores_iff {final : Mapping} (h : Accounted disk mapping log)
    (hformatted : disk.Formatted) (calls : List Word)
    (hrun : Run.run Mapping.map mapping calls = some final)
    (hsize : ∀ b, final.SetSince disk b → b.toNat < disk.size) :
    final.Restores disk ↔ Guarded Mapping.map Mapping.Recorded mapping calls := by
  have hboot : disk.used 0 = true := hformatted 0 (by simp [Disk.metadata])
  induction calls generalizing mapping log with
  | nil =>
    cases Option.some.inj hrun
    exact ⟨fun _ ↦ trivial, fun _ ↦ h.restores hformatted hsize⟩
  | cons bn rest ih =>
    obtain ⟨next, hnext, hrest⟩ := Option.bind_eq_some_iff.mp hrun
    by_cases hrecorded : mapping.Recorded bn
    · obtain ⟨log', haccounted⟩ := h.step hboot hrecorded hnext
      refine (ih haccounted hrest).trans ⟨?_, ?_⟩
      · intro hguarded
        refine ⟨hrecorded, fun other hother ↦ ?_⟩
        cases hnext.symm.trans hother
        exact hguarded
      · intro hguarded
        exact hguarded.2 next hnext
    · obtain ⟨log', hmismatched⟩ := h.mismatched hboot hrecorded hnext
      obtain ⟨last, hlast⟩ := hmismatched.run hboot rest hrest
      exact ⟨fun hrestores ↦ absurd hrestores hlast.not_restores,
        fun hguarded ↦ absurd hguarded.1 hrecorded⟩

theorem reach_of_empty {node : Dinode} (h : ∀ i, node.addrs i = 0) : reach disk node = [] := by
  have hextents : ∀ k, node.addrs.extentBlocks k = [] := by
    intro k
    apply Addrs.extentBlocks_eq_nil
    rw [Addrs.packed, h]
    rfl
  by_cases htype : node.type = .extent
  · rw [reach_extent htype, Addrs.extents, List.flatMap_eq_nil_iff]
    exact fun k _ ↦ hextents k
  · rw [reach_pointer htype, Disk.pointees, Disk.indirectBlocks, if_pos (h 12), List.append_nil,
      Addrs.directBlocks, List.flatMap_eq_nil_iff]
    intro i _
    rw [h, pointerBlock_zero]

/-- After any run of `bmap` calls on an empty inode that finds its blocks on the disk, `itrunc`
frees exactly what the calls have allocated if and only if every call was recorded. -/
theorem itrunc_restores_iff_recorded {ip : Inode} (hempty : ∀ i, ip.addrs i = 0)
    (hformatted : disk.Formatted) {calls : List Word} {final : Mapping}
    (hrun : Run.run Mapping.map ⟨disk, ip⟩ calls = some final)
    (hsize : ∀ b, final.SetSince disk b → b.toNat < disk.size) :
    final.Restores disk ↔ Guarded Mapping.map Mapping.Recorded ⟨disk, ip⟩ calls := by
  have hstart : Accounted disk ⟨disk, ip⟩ [] :=
    ⟨.nil disk, by rw [Mapping.reach, reach_of_empty hempty], fun _ ↦ hempty 12⟩
  exact hstart.restores_iff hformatted calls hrun hsize

/-! ## An extent of 256 blocks -/

/-- The disk that `mkfs` makes, 1024 blocks of which the first 29 are in use, after `n` blocks
more. -/
def filledDisk (n : ℕ) : Disk where
  size := 1024
  ninodes := 200
  size_fits := by decide
  used b := decide (b.toNat < 29 + n)
  dinode _ := .zero
  block _ _ := 0

/-- One extent of `n` blocks from block 29 on. -/
def filledAddrs (n : ℕ) : Addrs := fun i ↦
  if i = 0 ∧ n ≠ 0 then BitVec.ofNat 32 (29 * 256 + n) else 0

def filled (n : ℕ) : Mapping where
  disk := filledDisk n
  ip := { type := .extent, major := 0, minor := 0, nlink := 1, size := 0,
          addrs := filledAddrs n, inum := 1, ref := 1, busy := true, valid := true }

theorem filledDisk_nextFree {n : ℕ} (hn : n < 995) :
    (filledDisk n).NextFree (BitVec.ofNat 32 (29 + n)) := by
  have htoNat : (BitVec.ofNat 32 (29 + n)).toNat = 29 + n := by
    rw [BitVec.toNat_ofNat]
    omega
  refine ⟨?_, ?_, fun other hother ↦ ?_⟩
  · rw [htoNat]
    change 29 + n < (1024 + 4095) / 4096 * 4096
    omega
  · simp only [filledDisk, htoNat, lt_irrefl, decide_false]
  · rw [htoNat] at hother
    simp only [filledDisk, hother, decide_true]

theorem filledDisk_mark {n : ℕ} (hn : n < 995) :
    (filledDisk n).mark (BitVec.ofNat 32 (29 + n)) = filledDisk (n + 1) := by
  have htoNat : (BitVec.ofNat 32 (29 + n)).toNat = 29 + n := by
    rw [BitVec.toNat_ofNat]
    omega
  ext1
  case used =>
    funext b
    by_cases hb : b = BitVec.ofNat 32 (29 + n)
    · have hnext : (BitVec.ofNat 32 (29 + n)).toNat < 29 + (n + 1) := by omega
      rw [hb, Disk.mark_used, Function.update_self]
      simp only [filledDisk, hnext, decide_true]
    · have hne : b.toNat ≠ 29 + n := fun h ↦ hb (BitVec.eq_of_toNat_eq (h.trans htoNat.symm))
      rw [Disk.mark_used, Function.update_of_ne hb, filledDisk, filledDisk, decide_eq_decide]
      omega
  all_goals rfl

/-- How the search ends, and what is recorded, for each of the first 256 blocks. -/
theorem filledAddrs_record : ∀ n < 256,
    searchExtents (filledAddrs n) (BitVec.ofNat 32 n) (List.finRange 6) none none =
        .missed (if n = 0 then some 0 else some 1) (if n = 0 then some 5 else some 0) ∧
      (filledAddrs n).record (BitVec.ofNat 32 n) (BitVec.ofNat 32 (29 + n))
        (if n = 0 then some 0 else some 1) (if n = 0 then some 5 else some 0) =
          some (filledAddrs (n + 1)) := by
  decide +kernel

theorem filled_bmap {n : ℕ} (hn : n < 256) :
    bmap (filled n).disk (filled n).ip (BitVec.ofNat 32 n) =
      some (BitVec.ofNat 32 (29 + n), (filled (n + 1)).ip, (filled (n + 1)).disk) := by
  obtain ⟨hsearch, hrecord⟩ := filledAddrs_record n hn
  have hballoc : balloc (filledDisk n) = some (BitVec.ofNat 32 (29 + n), filledDisk (n + 1)) :=
    balloc_eq_some_iff.mpr ⟨filledDisk_nextFree (by omega), (filledDisk_mark (by omega)).symm⟩
  have hcode : bmapExtent (filledDisk n) (filledAddrs n) (BitVec.ofNat 32 n) =
      some (BitVec.ofNat 32 (29 + n), filledAddrs (n + 1), filledDisk (n + 1)) := by
    simp only [bmapExtent, hsearch, hballoc, hrecord, Option.bind_eq_bind, Option.bind_some,
      Option.pure_def]
  have htype : (filled n).ip.type = .extent := rfl
  rw [bmap_eq, if_pos htype]
  change (bmapExtent (filledDisk n) (filledAddrs n) _).map _ = _
  rw [hcode]
  rfl

theorem filled_step {n : ℕ} (hn : n < 256) :
    (filled n).map (BitVec.ofNat 32 n) = some (filled (n + 1)) := by
  rw [Mapping.map, filled_bmap hn]
  rfl

theorem filled_run {n : ℕ} (hn : n ≤ 256) :
    Run.run Mapping.map (filled 0) ((List.range n).map (BitVec.ofNat 32)) = some (filled n) := by
  induction n with
  | zero => rfl
  | succ n ih =>
    rw [List.range_succ, List.map_append, Run.run_append, ih (by omega), Option.bind_some,
      List.map_singleton, Run.run_cons_of_step _ (filled_step hn), Run.run_nil]

theorem filled_recorded {n : ℕ} (hn : n < 255) : (filled n).Recorded (BitVec.ofNat 32 n) := by
  have hfits : ∀ n < 255, unrecorded (filled n).ip.toDinode (BitVec.ofNat 32 n)
      (BitVec.ofNat 32 (29 + n)) = false := by
    decide +kernel
  have hkeeps : ¬ Loses (filled n).disk (filled n).ip.toDinode (BitVec.ofNat 32 n) := by
    rintro ⟨-, free, hnext, hlost⟩
    have hfree := (Disk.nextFree_eq_some_iff.mp hnext).unique (filledDisk_nextFree (by omega))
    rw [hfree, hfits n hn] at hlost
    exact Bool.false_ne_true hlost
  refine ⟨fun _ ↦ hkeeps, ?_⟩
  by_contra hstrays
  exact hkeeps (loses_of_strays rfl hstrays)

theorem filled_guarded {n : ℕ} (hn : n ≤ 255) :
    Guarded Mapping.map Mapping.Recorded (filled 0) ((List.range n).map (BitVec.ofNat 32)) := by
  induction n with
  | zero => trivial
  | succ n ih =>
    rw [List.range_succ, List.map_append]
    refine (ih (by omega)).append fun middle hmiddle ↦ ?_
    have hstate : middle = filled n :=
      Option.some.inj (hmiddle.symm.trans (filled_run (by omega)))
    rw [hstate]
    exact ⟨filled_recorded (by omega), fun _ _ ↦ trivial⟩

theorem filledDisk_formatted (n : ℕ) : (filledDisk n).Formatted := by
  intro b hb
  have hmeta : (filledDisk n).metadata = 29 := by norm_num [Disk.metadata, filledDisk]
  exact decide_eq_true (by omega)

theorem filled_size {n : ℕ} (hn : n ≤ 995) (b : Word) (h : (filled n).SetSince (filled 0).disk b) :
    b.toNat < 1024 := by
  have hlt := of_decide_eq_true h.2
  omega

/-- Up to 255 adjacent blocks are given back. -/
theorem filled_extent_restored : (filled 255).Restores (filled 0).disk :=
  (itrunc_restores_iff_recorded (by decide) (filledDisk_formatted 0) (filled_run (by decide))
    (filled_size (by decide))).mpr (filled_guarded le_rfl)

/-- Of 256 adjacent blocks none is given back: the length of the extent has wrapped around. -/
theorem full_extent_not_restored :
    (filled 0).disk.Formatted ∧ (∀ b, (filled 256).SetSince (filled 0).disk b → b.toNat < 1024) ∧
    Run.run Mapping.map (filled 0) ((List.range 256).map (BitVec.ofNat 32)) = some (filled 256) ∧
      ¬ (filled 256).Restores (filled 0).disk := by
  refine ⟨filledDisk_formatted 0, filled_size (by decide), filled_run le_rfl, ?_⟩
  rintro ⟨-, ip', disk', htrunc, -, hcleared, -⟩
  obtain ⟨-, -, -, rfl⟩ := itrunc_eq_some_iff.mp htrunc
  have hset : (filled 256).SetSince (filled 0).disk 29 := ⟨by decide, by decide⟩
  have hnotMem : (29 : Word) ∉ (filled 256).reach := by decide +kernel
  have hclear : (if (29 : Word) ∈ (filled 256).reach then false
      else (filled 256).disk.used 29) = false := hcleared 29 hset
  rw [if_neg hnotMem, hset.2] at hclear
  contradiction

end OS537.XV6
