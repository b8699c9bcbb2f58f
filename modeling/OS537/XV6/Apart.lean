import OS537.XV6.Contents

/-!
# Other files

The steps that other files take, allocation and freeing among them, leave the blocks of a cached
inode alone, and so the bytes that it stores.
-/

namespace OS537.XV6

open Bytes Run

variable {fs fs' : FS} {slot : Slot} {bytes : Store} {disk' : Disk} {bn addr : Word}

/-- The act is not on this slot. -/
def Act.Apart (slot : Slot) : Act → Prop
  | .iget _ => True
  | .ialloc _ => True
  | .idup other => other ≠ slot
  | .ilock other => other ≠ slot
  | .iunlock other => other ≠ slot
  | .iput other => other ≠ slot
  | .iupdate other => other ≠ slot
  | .load other _ => other ≠ slot
  | .store other _ _ _ => other ≠ slot
  | .assign other _ => other ≠ slot

instance (slot : Slot) : (act : Act) → Decidable (act.Apart slot)
  | .iget _ | .ialloc _ => isTrue trivial
  | .idup other | .ilock other | .iunlock other | .iput other | .iupdate other =>
    inferInstanceAs (Decidable (other ≠ slot))
  | .load other _ | .store other _ _ _ | .assign other _ =>
    inferInstanceAs (Decidable (other ≠ slot))

/-- The cached inode stays, with the blocks that it reaches. -/
structure FS.Leaves (fs : FS) (slot : Slot) (fs' : FS) : Prop where
  cached : fs'.Cached slot
  node : (fs'.icache slot).toDinode = (fs.icache slot).toDinode
  block : ∀ b ∈ reach fs.disk (fs.icache slot).toDinode, fs'.disk.block b = fs.disk.block b

/-- An act on another inode leaves this one as it is, but for the references to it. -/
theorem FS.act_apart_icache {act : Act} (hapart : act.Apart slot)
    (href : 0 < (fs.icache slot).ref) (hact : fs.act act = some fs') :
    ∃ ref > 0, fs'.icache slot = { fs.icache slot with ref := ref } := by
  have hother (disk : Disk) {other : Slot} (ip : Inode) (hne : other ≠ slot) :
      ∃ ref > 0, (FS.set { fs with disk := disk } other ip).icache slot =
        { fs.icache slot with ref := ref } :=
    ⟨_, href, FS.set_icache_of_ne _ ip hne.symm⟩
  have hget {fs fs' : FS} {found : Slot} {inum : Word} (href : 0 < (fs.icache slot).ref)
      (hrun : XV6.iget inum fs = some (found, fs')) :
      ∃ ref > 0, fs'.icache slot = { fs.icache slot with ref := ref } := by
    obtain ⟨-, -, rfl⟩ | ⟨-, hzero, rfl⟩ := iget_cases hrun
    · by_cases heq : found = slot
      · subst heq
        exact ⟨(fs.icache found).ref + 1, by omega, FS.set_icache_self _ _ _⟩
      · exact ⟨_, href, FS.set_icache_of_ne _ _ (Ne.symm heq)⟩
    · have hne : found ≠ slot := by
        rintro rfl
        omega
      exact ⟨_, href, FS.set_icache_of_ne _ _ hne.symm⟩
  cases act with
  | iget inum =>
    obtain ⟨⟨found, next⟩, hrun, rfl⟩ := Option.map_eq_some_iff.mp hact
    exact hget href hrun
  | idup other =>
    obtain ⟨-, hrun⟩ := Option.ite_none_right_eq_some.mp hact
    cases hrun
    exact hother _ _ hapart
  | ialloc type =>
    obtain ⟨⟨found, next⟩, hrun, rfl⟩ := Option.map_eq_some_iff.mp hact
    obtain ⟨inum, -, hrun⟩ := ialloc_cases hrun
    obtain ⟨ref, hpos, hsame⟩ := hget (by exact href) hrun
    exact ⟨ref, hpos, hsame⟩
  | ilock other =>
    obtain ⟨⟨⟨⟩, next⟩, hrun, rfl⟩ := Option.map_eq_some_iff.mp hact
    obtain ⟨-, -, ⟨-, rfl⟩ | ⟨-, -, rfl⟩⟩ := ilock_cases hrun
    · exact hother _ _ hapart
    · exact hother _ _ hapart
  | iunlock other =>
    obtain ⟨⟨⟨⟩, next⟩, hrun, rfl⟩ := Option.map_eq_some_iff.mp hact
    obtain ⟨-, -, rfl⟩ := iunlock_cases hrun
    exact hother _ _ hapart
  | iput other =>
    obtain ⟨-, hmap⟩ := Option.ite_none_right_eq_some.mp hact
    obtain ⟨⟨⟨⟩, next⟩, hrun, rfl⟩ := Option.map_eq_some_iff.mp hmap
    obtain ⟨-, -, rfl⟩ | rfl := iput_freed hrun
    · exact hother _ _ hapart
    · exact hother _ _ hapart
  | iupdate other =>
    obtain ⟨⟨⟨⟩, next⟩, hrun, rfl⟩ := Option.map_eq_some_iff.mp hact
    obtain ⟨-, hrun⟩ := whenLocked_cases hrun
    cases hrun
    exact ⟨_, href, rfl⟩
  | load other off =>
    obtain ⟨addr, ip, disk, -, -, rfl⟩ := FS.act_load hact
    exact hother _ _ hapart
  | store other off m src =>
    obtain ⟨addr, ip, disk, data, -, -, rfl⟩ := FS.act_store hact
    exact hother _ _ hapart
  | assign other fields =>
    obtain ⟨⟨⟨⟩, next⟩, hrun, rfl⟩ := Option.map_eq_some_iff.mp hact
    obtain ⟨-, hrun⟩ := whenLocked_cases hrun
    cases hrun
    exact hother _ _ hapart

section Apart

variable (h : fs.Sound) {other : Slot} (hne : other ≠ slot) (hcached : fs.Cached slot)
  (hother : fs.Cached other)

include h hne hcached hother

theorem FS.Sound.reach_apart :
    ∀ b ∈ reach fs.disk (fs.icache slot).toDinode,
      b ∉ reach fs.disk (fs.icache other).toDinode := by
  refine h.linked.apart _ _ _ _ (fun heq ↦ hne ?_) (h.version hcached) (h.version hother)
  exact h.slot_eq hcached hother heq.symm

/-- A call of `bmap` for one inode leaves the blocks of another alone, and returns none of them. -/
theorem FS.Sound.map_apart {ip : Inode}
    (hstrays : strays fs.disk (fs.icache other).toDinode bn = [])
    (hbmap : bmap fs.disk (fs.icache other) bn = some (addr, ip, disk')) :
    ∀ b ∈ reach fs.disk (fs.icache slot).toDinode,
      disk'.block b = fs.disk.block b ∧ b ≠ addr := by
  intro b hb
  obtain ⟨-, new, hextends⟩ := bmap_extends hbmap
  have hapart := h.reach_apart hne hcached hother b hb
  have hnew : b ∉ new := by
    intro hmem
    have hused := h.linked.used _ _ (h.version hcached) b hb
    rw [hextends.takes.clear b hmem] at hused
    contradiction
  constructor
  · refine hextends.block_eq hnew fun htype hset heq ↦ hapart ?_
    rw [heq]
    exact mem_reach_indirect htype hset
  · rintro rfl
    rcases hextends.addr_mem with hmem | hstray | hreach
    · exact hnew hmem
    · rw [hstrays] at hstray
      contradiction
    · exact hapart hreach

end Apart

/-- An act on another inode leaves the blocks of this one alone. -/
theorem FS.Sound.act_apart (h : fs.Sound) {act : Act} (hapart : act.Apart slot)
    (hstrays : fs.NoStrays act) (hcached : fs.Cached slot) (hact : fs.act act = some fs') :
    fs.Leaves slot fs' := by
  obtain ⟨ref, href, hicache⟩ := FS.act_apart_icache hapart hcached.1 hact
  refine ⟨?_, by rw [hicache], fun b hb ↦ ?_⟩
  · unfold FS.Cached
    rw [hicache]
    exact ⟨href, hcached.2⟩
  cases act with
  | iput other =>
    obtain ⟨href, hmap⟩ := Option.ite_none_right_eq_some.mp hact
    obtain ⟨⟨⟨⟩, next⟩, hrun, rfl⟩ := Option.map_eq_some_iff.mp hmap
    obtain ⟨-, hvalid, rfl⟩ | rfl := iput_freed hrun
    · exact if_neg (h.reach_apart hapart hcached ⟨href, hvalid⟩ b hb)
    · rfl
  | load other off =>
    obtain ⟨addr, ip, disk, hlocked, hbmap, rfl⟩ := FS.act_load hact
    exact (h.map_apart hapart hcached hlocked.1 hstrays hbmap b hb).1
  | store other off m src =>
    obtain ⟨addr, ip, disk, data, hlocked, hbmap, rfl⟩ := FS.act_store hact
    obtain ⟨hblock, haddr⟩ := h.map_apart hapart hcached hlocked.1 hstrays hbmap b hb
    exact (Function.update_of_ne haddr _ _).trans hblock
  | iget | idup | ialloc | ilock | iunlock | iupdate | assign =>
    rw [(FS.act_still rfl hact).2.2]

/-- What other files do does not change the bytes of this one. -/
theorem FS.Stores.act (h : fs.Stores slot bytes) {act : Act} (hapart : act.Apart slot)
    (hstrays : fs.NoStrays act) (hact : fs.act act = some fs') : fs'.Stores slot bytes := by
  have hleaves := h.sound.act_apart hapart hstrays h.cached hact
  have hsame := byteOf_congr hleaves.block
  constructor
  case sound => exact h.sound.act hstrays hact
  case zero => exact h.sound.act_freeZero h.zero hstrays hact
  case cached => exact hleaves.cached
  case short =>
    have htype : (fs'.icache slot).type = (fs.icache slot).type := congrArg (·.type) hleaves.node
    have haddrs : (fs'.icache slot).addrs = (fs.icache slot).addrs :=
      congrArg (·.addrs) hleaves.node
    rw [htype, haddrs]
    exact h.short
  case injective =>
    intro first second addr hfirst hsecond
    rw [hleaves.node, (hsame _).1] at hfirst hsecond
    exact h.injective first second addr hfirst hsecond
  case content =>
    intro bn hbn i hi
    rw [hleaves.node, (hsame bn).2]
    exact h.content bn hbn i hi

end OS537.XV6
