import OS537.LFS.Failing
import OS537.LFS.UsableRuns

/-!
# What a call that fails leaves behind

A call that gives up before its first assignment to `inodes` leaves the server as it was. After that
assignment nothing is taken back: a call that gives up later leaves an inode map, and perhaps a
checkpoint in memory, that point behind the end of the log. Which writes these are is a condition on
what the `write` calls will do.
-/

namespace OS537.LFS

open Bytes Code Posix Run

variable {server start state next : Server} {i j parent : Fin 4096} {rc : ℤ} {n : ℕ}
  {buffer : Store} {pos : Word}

/-! ## Positions in the log -/

/-- The entry of the inode map is not one that it had when the log ended where it ended in
`server`, or the file was shorter than its log and is not any more. -/
def Moved (next server : Server) (i : Fin 4096) : Prop :=
  server.cr.endPos.toNat ≤ (next.inodes i).toNat ∨
    server.image.size < server.cr.endPos.toNat ∧ server.cr.endPos.toNat ≤ next.image.size

/-- The positions of the map, as records of inodes, lie between the checkpoint and `bound`. -/
def InodesBelow (inodes : InodeMap) (bound : ℕ) : Prop :=
  ∀ k, inodes k ≠ -1 → crSize ≤ (inodes k).toNat ∧ (inodes k).toNat + inodeSize ≤ bound

/-- The inodes of the server lie in the log. -/
structure InBounds (server : Server) : Prop where
  low : crSize ≤ server.cr.endPos.toNat
  inodes : InodesBelow server.inodes server.cr.endPos.toNat

theorem InBounds.not_unchanged (h : InBounds server) (hi : server.inodes i ≠ -1)
    (hmoved : Moved next server i) : ¬ Unchanged next server := by
  intro hsame
  have hold := (h.inodes i hi).2
  rcases hmoved with hplace | ⟨hshort, hgrown⟩
  · rw [hsame.inodes] at hplace
    simp only [inodeSize] at hold
    omega
  · have hsize := hsame.size
    omega

theorem InodesBelow.update {inodes : InodeMap} {bound : ℕ} (h : InodesBelow inodes bound)
    (hpos : pos ≠ -1 → crSize ≤ pos.toNat ∧ pos.toNat + inodeSize ≤ bound) :
    InodesBelow (Function.update inodes i pos) bound := by
  intro k hk
  by_cases hki : k = i
  · rw [hki, Function.update_self] at hk ⊢
    exact hpos hk
  · rw [Function.update_of_ne hki] at hk ⊢
    exact h k hk

theorem InodesBelow.mono {inodes : InodeMap} {bound bound' : ℕ} (h : InodesBelow inodes bound)
    (hle : bound ≤ bound') : InodesBelow inodes bound' :=
  fun k hk ↦ ⟨(h k hk).1, (h k hk).2.trans hle⟩

/-! ## Write -/

/-- What is to be known of a call: it returns 0 or -1, a failure leaves the server as it was exactly
if `clean` holds, and then the inodes stay in the log. -/
structure Settled (server : Server) (rc : ℤ) (next : Server) (clean : Prop) : Prop where
  value : rc = 0 ∨ rc = -1
  unchanged_iff : (rc = -1 → Unchanged next server) ↔ clean
  bounds : clean → InBounds next

theorem Unchanged.inBounds (hsame : Unchanged next server) (h : InBounds server) :
    InBounds next := by
  refine ⟨?_, ?_⟩
  · rw [hsame.cr]
    exact h.low
  · rw [hsame.cr, hsame.inodes]
    exact h.inodes

theorem InBounds.settled_unchanged (h : InBounds server) {clean : Prop}
    (hsame : Unchanged next server) (hclean : clean) : Settled server (-1) next clean where
  value := Or.inr rfl
  unchanged_iff := iff_of_true (fun _ ↦ hsame) hclean
  bounds := fun _ ↦ hsame.inBounds h

theorem InBounds.settled_moved (h : InBounds server) (hi : server.inodes i ≠ -1)
    {failure clean : Prop} (hrc : rc = -1 ∧ failure ∨ rc = 0 ∧ ¬ failure)
    (hmoved : Moved next server i) (hbounds : rc = 0 → InBounds next) (hclean : clean ↔ ¬ failure) :
    Settled server rc next clean := by
  rcases hrc with ⟨rfl, hfailure⟩ | ⟨rfl, hok⟩
  · refine ⟨Or.inr rfl, ?_, fun hc ↦ absurd hfailure (hclean.mp hc)⟩
    exact iff_of_false (fun hsame ↦ h.not_unchanged hi hmoved (hsame rfl))
      fun hc ↦ hclean.mp hc hfailure
  · refine ⟨Or.inl rfl, ?_, fun _ ↦ hbounds rfl⟩
    exact iff_of_true (fun hrc ↦ absurd hrc (by decide)) (hclean.mpr hok)

theorem InBounds.seek (h : InBounds server) (offset : ℕ) : InBounds (server.seek offset) :=
  ⟨h.low, h.inodes⟩

theorem Settled.congr {clean clean' : Prop} (h : Settled server rc next clean)
    (hiff : clean' ↔ clean) : Settled server rc next clean' := by
  rwa [propext hiff]

/-- A call that begins with reads. -/
theorem Settled.before {clean : Prop} {offset : ℕ} (hstate : state = server.seek offset)
    (h : Settled state rc next clean) : Settled server rc next clean := by
  subst hstate
  exact ⟨h.value, ⟨fun hsame ↦ h.unchanged_iff.mp fun hrc ↦ (hsame hrc).to_seek,
    fun hc hrc ↦ (h.unchanged_iff.mpr hc hrc).of_seek⟩, h.bounds⟩

/-- `fsi_write` refuses the call, its first write fails, or none of the others does. -/
def WriteClean (server : Server) (inum block : ℤ) (node : Store) : Prop :=
  ReadsRegular server inum node ∧ block ≤ 13 →
    server.fails 0 = true ∨ ∀ k ∈ [1, 2, 3], server.fails k = false

theorem allocated_of_getInode {node : Store} {found : Inode} {probed : Server}
    (h : getInode ((i : ℕ) : ℤ) node server = some ((rc, found), probed)) (hrc : 0 ≤ rc) :
    server.inodes i ≠ -1 := by
  intro hnone
  cases (getInode_unallocated node hnone).symm.trans h
  exact absurd hrc (by decide)

theorem InBounds.writeCommit (h : InBounds server) (hi : server.inodes i ≠ -1)
    (hroom : server.cr.endPos.toNat + 4224 < 2 ^ 31) {block : Fin ndirect} {node : Inode}
    (hrun : writeCommit ((i : ℕ) : ℤ) buffer ((block : ℕ) : ℤ) node server = some (rc, next)) :
    Settled server rc next
      (server.fails 0 = true ∨ ∀ k ∈ [1, 2, 3], server.fails k = false) := by
  obtain ⟨_, _, hrun', hrc, hpost⟩ := writeCommit_outcome i buffer block node server
  cases hrun'.symm.trans hrun
  have hblock := toNat_after_block server.cr.endPos (by omega)
  rcases hpost with ⟨hfails, hsame⟩ | ⟨hok, hinodes, hend⟩
  · have hfailed : rc = -1 := by
      rcases hrc with ⟨hrc, -⟩ | ⟨-, hnone⟩
      · exact hrc
      · exact absurd (Or.inl hfails) hnone
    rw [hfailed]
    exact h.settled_unchanged hsame (Or.inl hfails)
  · refine h.settled_moved hi hrc (Or.inl ?_) ?_ (by simp [hok])
    · rw [hinodes, Function.update_self]
      omega
    · intro hzero
      have hplace : next.cr.endPos.toNat = server.cr.endPos.toNat + 4224 := by
        rw [hend hzero]
        bv_omega
      have hlow := h.low
      refine ⟨by omega, ?_⟩
      rw [hinodes, hplace]
      exact (h.inodes.mono (by omega)).update fun _ ↦ ⟨by omega, by simp only [inodeSize]; omega⟩

theorem InBounds.fsiWrite (h : InBounds server)
    (hroom : server.cr.endPos.toNat + 4224 < 2 ^ 31) {block : ℤ} {node : Store}
    (hrun : fsiWrite ((i : ℕ) : ℤ) buffer block node server = some (rc, next)) :
    Settled server rc next (WriteClean server ((i : ℕ) : ℤ) block node) := by
  obtain ⟨⟨count, found⟩, probed, hprobed, hrest⟩ := bind_eq_some hrun
  have hsame := Unchanged.of_readOnly (readOnly_getInode _ _) hprobed
  have hregular := readsRegular_iff hprobed
  dsimp only at hrest
  split at hrest
  next hcount =>
    cases hrest
    exact h.settled_unchanged hsame fun hboth ↦ absurd (hregular.mp hboth.1).1 (not_le.mpr hcount)
  next hcount =>
  split at hrest
  next htype =>
    cases hrest
    exact h.settled_unchanged hsame fun hboth ↦ absurd (hregular.mp hboth.1).2 htype
  next htype =>
  split at hrest
  next hblock =>
    cases hrest
    exact h.settled_unchanged hsame fun hboth ↦ absurd hboth.2 (not_le.mpr hblock)
  next hblock =>
  have hboth : ReadsRegular server ((i : ℕ) : ℤ) node ∧ block ≤ 13 :=
    ⟨hregular.mpr ⟨not_lt.mp hcount, not_not.mp htype⟩, not_lt.mp hblock⟩
  have hi := allocated_of_getInode hprobed (not_lt.mp hcount)
  have hread : probed = server.seek _ := readOnly_getInode _ _ _ _ _ hprobed
  rw [hread] at hrest
  unfold WriteClean
  rw [forall_prop_of_true hboth]
  suffices hsettled : Settled (server.seek probed.offset) rc next
      (server.fails 0 = true ∨ ∀ k ∈ [1, 2, 3], server.fails k = false) from hsettled.before rfl
  rcases lt_or_ge block 0 with hnegative | hlow
  · obtain ⟨hrc, hfails, hunchanged⟩ := writeCommit_negative hnegative hrest
    rw [hrc]
    exact (h.seek _).settled_unchanged hunchanged (Or.inl hfails)
  · have hlt : block.toNat < ndirect := by
      simp only [ndirect]
      omega
    have hcast : block = (((⟨block.toNat, hlt⟩ : Fin ndirect) : ℕ) : ℤ) :=
      (Int.toNat_of_nonneg hlow).symm
    rw [hcast] at hrest
    exact (h.seek _).writeCommit hi hroom hrest

/-! ## Unlink -/

/-- The second write of `fsi_unlink` fails, which is harmless if its first does not stretch the
file. -/
def Server.failsSecond (server : Server) : Prop :=
  server.fails 1 = true ∧ server.cr.endPos.toNat ≤ server.image.size

/-- The writes of `fsi_unlink` for this plan leave something behind. -/
def Touches (server : Server) : Prop := server.fails 0 = false ∧ ¬ server.failsSecond

/-- One of the first two writes fails, or none of those behind the assignments to `inodes` does,
that of the parent's chunk apart. -/
def UnlinkWrites (server : Server) (parent cinum : Fin 4096) : Prop :=
  server.fails 0 = true ∨ server.failsSecond ∨
    ∀ k ∈ [1, 2 + ignored parent cinum, 3 + ignored parent cinum], server.fails k = false

/-- What `fsi_unlink` leaves to `fsi_creat`. -/
structure Left (server next : Server) (parent : Fin 4096) (touched : Prop) : Prop where
  unchanged : ¬ touched → Unchanged next server
  moved : touched → Moved next server parent
  others : InodesBelow (Function.update next.inodes parent (-1)) server.cr.endPos.toNat

theorem InBounds.left_of_inodes (h : InBounds server) {touched : Prop}
    (hinodes : next.inodes = server.inodes) (hsame : ¬ touched → Unchanged next server)
    (hmoved : touched → Moved next server parent) : Left server next parent touched where
  unchanged := hsame
  moved := hmoved
  others := by
    rw [hinodes]
    exact h.inodes.update (absurd rfl)

theorem InBounds.unlinked (h : InBounds server) (cinum : Fin 4096)
    (hroom : server.cr.endPos.toNat + 4288 < 2 ^ 31)
    (hinodes : next.inodes = unlinkedInodes server parent cinum) :
    Moved next server parent ∧
      InodesBelow (Function.update next.inodes parent (-1)) server.cr.endPos.toNat ∧
      InodesBelow next.inodes (server.cr.endPos.toNat + 4224) := by
  have hblock := toNat_after_block server.cr.endPos (by omega)
  have hlow := h.low
  refine ⟨Or.inl ?_, ?_, ?_⟩
  · rw [hinodes, unlinkedInodes]
    by_cases hself : parent = cinum
    · rw [hself, Function.update_self]
      have hmax : (-1 : Word).toNat = 2 ^ 32 - 1 := by decide
      omega
    · rw [Function.update_of_ne hself, Function.update_self]
      omega
  · have hswap : Function.update next.inodes parent (-1) =
        Function.update (Function.update server.inodes parent (-1)) cinum (-1) := by
      funext k
      rw [hinodes, unlinkedInodes]
      by_cases hparent : k = parent <;> by_cases hchild : k = cinum <;>
        simp [Function.update_apply, hparent, hchild]
    rw [hswap]
    exact (h.inodes.update (absurd rfl)).update (absurd rfl)
  · rw [hinodes, unlinkedInodes]
    have hplace : crSize ≤ (server.cr.endPos + 4096).toNat ∧
        (server.cr.endPos + 4096).toNat + inodeSize ≤ server.cr.endPos.toNat + 4224 := by
      simp only [inodeSize]
      omega
    exact ((h.inodes.mono (by omega)).update fun _ ↦ hplace).update (absurd rfl)

theorem InBounds.unlinkCommit (h : InBounds server) (hparent : server.inodes parent ≠ -1)
    (hroom : server.cr.endPos.toNat + 4288 < 2 ^ 31) {plan : UnlinkPlan}
    (hblock : ∀ block slot, plan.found = some (block, slot) → block < ndirect)
    (hrun : unlinkCommit ((parent : ℕ) : ℤ) plan server = some (rc, next)) :
    Settled server rc next (UnlinkWrites server parent plan.cinum) ∧
      Left server next parent (Touches server) := by
  cases hfound : plan.found with
  | none =>
    obtain ⟨hrc, hfails, hsame⟩ := unlinkCommit_not_found hfound (by omega) hrun
    rw [hrc]
    exact ⟨h.settled_unchanged hsame (Or.inl hfails), h.left_of_inodes hsame.inodes
      (fun _ ↦ hsame) fun htouches ↦ absurd hfails (Bool.eq_false_iff.mp htouches.1)⟩
  | some pair =>
    obtain ⟨block, slot⟩ := pair
    obtain ⟨_, _, hrun', hrc, hpost⟩ :=
      unlinkCommit_outcome parent hfound (hblock block slot hfound)
        (show server.cr.endPos.toNat < 2 ^ 31 by omega)
    cases hrun'.symm.trans hrun
    rcases hpost with ⟨hfails, hsame⟩ | ⟨hok, hfails, hextended⟩ | ⟨hok, hinodes, hend⟩
    · have hfailed : rc = -1 := by
        rcases hrc with ⟨hrc, -⟩ | ⟨-, hnone⟩
        · exact hrc
        · exact absurd (Or.inl hfails) hnone
      rw [hfailed]
      exact ⟨h.settled_unchanged hsame (Or.inl hfails), h.left_of_inodes hsame.inodes
        (fun _ ↦ hsame) fun htouches ↦ absurd hfails (Bool.eq_false_iff.mp htouches.1)⟩
    · have hmoved : ¬ server.failsSecond → Moved next server parent := fun hsecond ↦
        Or.inr ⟨not_le.mp fun hsize ↦ hsecond ⟨hfails, hsize⟩, hextended.size⟩
      have hsame : server.failsSecond → Unchanged next server := fun hsecond ↦
        hextended.unchanged hsecond.2
      have hfailed : rc = -1 := by
        rcases hrc with ⟨hrc, -⟩ | ⟨-, hnone⟩
        · exact hrc
        · exact absurd (Or.inr (Or.inl hfails)) hnone
      refine ⟨?_, h.left_of_inodes hextended.inodes
        (fun hno ↦ hsame (not_not.mp fun hsecond ↦ hno ⟨hok, hsecond⟩)) fun ht ↦ hmoved ht.2⟩
      by_cases hsecond : server.failsSecond
      · rw [hfailed]
        exact h.settled_unchanged (hsame hsecond) (Or.inr (Or.inl hsecond))
      · refine h.settled_moved hparent hrc (hmoved hsecond) (fun hzero ↦ ?_) ?_
        · rw [hfailed] at hzero
          exact absurd hzero (by decide)
        · simp [UnlinkWrites, hok, hfails, hsecond]
    · obtain ⟨hmoved, hothers, hbelow⟩ := h.unlinked plan.cinum hroom hinodes
      have hsecond : ¬ server.failsSecond := fun hsecond ↦
        absurd hsecond.1 (Bool.eq_false_iff.mp hok.2)
      refine ⟨h.settled_moved hparent hrc hmoved ?_ (by simp [UnlinkWrites, hok, hsecond]),
        fun hno ↦ absurd ⟨hok.1, hsecond⟩ hno, fun _ ↦ hmoved, hothers⟩
      intro hzero
      have hplace : server.cr.endPos.toNat + 4224 ≤ next.cr.endPos.toNat := by
        rcases hend hzero with hlast | hlast
        · rw [hlast]
          bv_omega
        · rw [hlast]
          bv_omega
      have hlow := h.low
      exact ⟨by omega, hbelow.mono hplace⟩

theorem unlinkCommit_untouched {plan : UnlinkPlan} {found : ℕ × ℕ}
    (hfound : plan.found = some found) (hblock : found.1 < ndirect)
    (hroom : server.cr.endPos.toNat < 2 ^ 31) (huntouched : ¬ Touches server) :
    ∃ next, unlinkCommit ((parent : ℕ) : ℤ) plan server = some (-1, next) ∧
      Unchanged next server := by
  have hfails : server.fails 0 = true ∨ server.failsSecond := by
    by_contra hboth
    obtain ⟨hfirst, hsecond⟩ := not_or.mp hboth
    exact huntouched ⟨Bool.eq_false_iff.mpr hfirst, hsecond⟩
  obtain ⟨rc, next, hrun, hrc, hpost⟩ := unlinkCommit_outcome parent hfound hblock hroom
  have hfailed : rc = -1 := by
    rcases hrc with ⟨hrc, -⟩ | ⟨-, hnone⟩
    · exact hrc
    · exact absurd (hfails.imp_right fun hsecond ↦ Or.inl hsecond.1) hnone
  rw [hfailed] at hrun
  refine ⟨next, hrun, ?_⟩
  rcases hpost with ⟨-, hsame⟩ | ⟨hok, hsecond, hextended⟩ | ⟨hok, -⟩
  · exact hsame
  · rcases hfails with hfirst | hstretched
    · exact absurd hfirst (Bool.eq_false_iff.mp hok)
    · exact hextended.unchanged hstretched.2
  · rcases hfails with hfirst | hstretched
    · exact absurd hfirst (Bool.eq_false_iff.mp hok.1)
    · exact absurd hstretched.1 (Bool.eq_false_iff.mp hok.2)

/-- `fsi_unlink` finds something to remove. -/
def UnlinkPlans (server : Server) (parent : Fin 4096) (name : CString) (frame : UnlinkFrame) :
    Prop :=
  ∃ plan next, unlinkSearch ((parent : ℕ) : ℤ) name frame server = some (.inr plan, next)

/-- `fsi_unlink` refuses the call, or its writes leave nothing behind when it gives up. -/
def UnlinkClean (server : Server) (parent : Fin 4096) (name : CString) (frame : UnlinkFrame) :
    Prop :=
  ∀ plan next, unlinkSearch ((parent : ℕ) : ℤ) name frame server = some (.inr plan, next) →
    UnlinkWrites server parent plan.cinum

theorem InBounds.fsiUnlink (h : InBounds server)
    (hroom : server.cr.endPos.toNat + 4288 < 2 ^ 31) {name : CString} {frame : UnlinkFrame}
    (hrun : fsiUnlink ((parent : ℕ) : ℤ) name frame server = some (rc, next)) :
    Settled server rc next (UnlinkClean server parent name frame) ∧
      Left server next parent (UnlinkPlans server parent name frame ∧ Touches server) := by
  obtain ⟨result, searched, hsearch, hrest⟩ := bind_eq_some hrun
  have hread := readOnly_unlinkSearch _ _ _ _ _ _ hsearch
  rcases unlinkSearch_cases hsearch with hrefused | ⟨plan, hplan, hplanned⟩
  · have hnone : ¬ UnlinkPlans server parent name frame := by
      rintro ⟨plan, last, hother⟩
      cases (hsearch.symm.trans hother).trans rfl
      cases hrefused
    have hsame := Unchanged.of_readOnly (readOnly_unlinkSearch _ _ _) hsearch
    rw [hrefused] at hrest
    cases hrest
    refine ⟨h.settled_unchanged hsame fun plan last hother ↦ absurd ⟨plan, last, hother⟩ hnone, ?_⟩
    exact h.left_of_inodes hsame.inodes (fun _ ↦ hsame) fun hboth ↦ absurd hboth.1 hnone
  · subst hplan
    obtain ⟨count, probed, looked, rc', cnode, last, hnode, hcount, -⟩ := hplanned.child
    have hparent := allocated_of_getInode hnode hcount
    dsimp only at hrest
    rw [hread] at hrest
    obtain ⟨hsettled, hleft⟩ :=
      (h.seek searched.offset).unlinkCommit hparent hroom hplanned.found_lt hrest
    have hclean : UnlinkClean server parent name frame ↔ UnlinkWrites server parent plan.cinum := by
      refine ⟨fun hc ↦ hc plan searched hsearch, fun hwrites other last hother ↦ ?_⟩
      cases hsearch.symm.trans hother
      exact hwrites
    have htouches : UnlinkPlans server parent name frame ∧ Touches server ↔ Touches server :=
      and_iff_right ⟨plan, searched, hsearch⟩
    rw [hclean, htouches]
    exact ⟨hsettled.before rfl, fun ht ↦ (hleft.unchanged ht).of_seek, hleft.moved, hleft.others⟩

/-! ## Create -/

theorem Moved.unchanged {middle : Server} (h : Moved middle server i)
    (hend : server.cr.endPos.toNat ≤ middle.cr.endPos.toNat) (hsame : Unchanged next middle) :
    Moved next server i := by
  rcases h with hplace | ⟨hshort, hgrown⟩
  · rw [← hsame.inodes] at hplace
    exact Or.inl hplace
  · have hsize := hsame.size
    exact Or.inr ⟨hshort, by omega⟩

/-- The first write of `fsi_creat` fails after an unlink that has left nothing behind, or none of
those that it looks at does. -/
def CreatWrites (freed : Server) (parent inum : Fin 4096) (type : Word) (touched : Prop) : Prop :=
  ¬ touched ∧ freed.fails 0 = true ∨
    ∀ k ∈ 0 :: creatChecked parent inum type, freed.fails k = false

theorem InBounds.creatCommit {freed : Server} {type : Word} {childDirBlock : Store}
    {plan : CreatPlan} {touched : Prop} (h : InBounds server) (hparent : server.inodes parent ≠ -1)
    (hleft : Left server freed parent touched)
    (hend : server.cr.endPos.toNat ≤ freed.cr.endPos.toNat)
    (hroom : freed.cr.endPos.toNat + creatGrowth type < 2 ^ 31)
    (hrun : creatCommit ((parent : ℕ) : ℤ) type childDirBlock plan freed = some (rc, next)) :
    Settled server rc next (CreatWrites freed parent plan.inum type touched) := by
  obtain ⟨_, _, hrun', hrc, hpost⟩ := creatCommit_outcome parent type childDirBlock plan hroom
  cases hrun'.symm.trans hrun
  rcases hpost with ⟨hfails, hsame⟩ | ⟨hok, hpost⟩
  · have hfailed : rc = -1 := by
      rcases hrc with ⟨hrc, -⟩ | ⟨-, hnone⟩
      · exact hrc
      · exact absurd (Or.inl hfails) hnone
    by_cases htouched : touched
    · refine h.settled_moved hparent hrc ((hleft.moved htouched).unchanged hend hsame)
        (fun hzero ↦ ?_) (by simp [CreatWrites, hfails, htouched])
      rw [hfailed] at hzero
      exact absurd hzero (by decide)
    · rw [hfailed]
      exact h.settled_unchanged ((hleft.unchanged htouched).trans hsame) (Or.inl ⟨htouched, hfails⟩)
  · have hgrowth := le_creatGrowth type
    have hblock := toNat_after_block freed.cr.endPos (by omega)
    have hmoved : Moved next server parent :=
      Or.inl (hend.trans (creatCommit_moves_parent hroom hok hrun))
    have hclean : CreatWrites freed parent plan.inum type touched ↔
        ¬ (freed.fails 0 = true ∨
          ∃ k ∈ creatChecked parent plan.inum type, freed.fails k = true) := by
      simp [CreatWrites, hok]
    rcases hpost with ⟨hgave, hinodes⟩ | ⟨child, hchild, hinodes, hlast⟩
    · refine h.settled_moved hparent hrc hmoved (fun hzero ↦ ?_) hclean
      rw [hgave] at hzero
      exact absurd hzero (by decide)
    · refine h.settled_moved hparent hrc hmoved (fun hzero ↦ ?_) hclean
      have hlow := h.low
      refine ⟨by rw [hlast hzero]; omega, ?_⟩
      have hothers : InodesBelow (Function.update freed.inodes parent (freed.cr.endPos + 4096))
          (child.toNat + 128) := by
        rw [← Function.update_idem (-1)]
        refine (hleft.others.mono (by omega)).update fun _ ↦ ⟨by omega, ?_⟩
        simp only [inodeSize]
        omega
      rw [hinodes, hlast hzero]
      refine hothers.update fun _ ↦ ⟨by omega, ?_⟩
      simp only [inodeSize]
      omega

/-- `fsi_creat` finds no place for the name after an unlink that has left nothing behind, or its
writes leave nothing behind when it gives up. -/
def PlaceClean (freed : Server) (parent : Fin 4096) (type : Word) (touched : Prop) :
    Option CreatPlan → Prop
  | none => ¬ touched
  | some plan => CreatWrites freed parent plan.inum type touched

/-- What decides whether a failed `fsi_creat` leaves the server as it was: what the unlink that it
begins with does, whether it finds a place in the state `freed` behind that, and its own writes. -/
def CreatClean (server : Server) (parent : Fin 4096) (type : Word) (name : CString)
    (frame : CreatFrame) : Prop :=
  ∀ pnode found probed freed place placed,
    creatProbe ((parent : ℕ) : ℤ) name frame server = some (some (pnode, found), probed) →
    creatReplace ((parent : ℕ) : ℤ) name frame.unlink found probed = some ((), freed) →
    creatPlace pnode name frame.dirBlock freed = some (place, placed) →
    PlaceClean freed parent type
      (found > 0 ∧ UnlinkPlans probed parent name frame.unlink ∧ Touches probed) place

theorem Left.before {freed placed : Server} {touched : Prop} {offset : ℕ}
    (h : Left server freed parent touched) (hplaced : placed = freed.seek offset) :
    Left server placed parent touched := by
  subst hplaced
  exact ⟨fun ht ↦ ⟨(h.unchanged ht).cr, (h.unchanged ht).inodes, (h.unchanged ht).size,
    (h.unchanged ht).bytes⟩, h.moved, h.others⟩

theorem InBounds.settled_left {freed : Server} {touched : Prop} (h : InBounds server)
    (hparent : server.inodes parent ≠ -1) (hleft : Left server freed parent touched) :
    Settled server (-1) freed (¬ touched) := by
  by_cases htouched : touched
  · exact h.settled_moved hparent (Or.inl ⟨rfl, htouched⟩) (hleft.moved htouched)
      (fun hzero ↦ absurd hzero (by decide)) Iff.rfl
  · exact h.settled_unchanged (hleft.unchanged htouched) htouched

theorem allocated_of_creatProbe {name : CString} {frame : CreatFrame} {pair : Inode × ℤ}
    (h : creatProbe ((i : ℕ) : ℤ) name frame server = some (some pair, next)) :
    server.inodes i ≠ -1 := by
  obtain ⟨⟨count, node⟩, probed, hprobed, hrest⟩ := bind_eq_some h
  dsimp only at hrest
  split at hrest
  next => cases hrest
  next hcount => exact allocated_of_getInode hprobed (not_lt.mp hcount)

theorem InBounds.creatReplace {freed : Server} (h : InBounds server)
    (hroom : server.cr.endPos.toNat + 4288 < 2 ^ 31) {name : CString} {frame : UnlinkFrame}
    {found : ℤ}
    (hrun : creatReplace ((parent : ℕ) : ℤ) name frame found server = some ((), freed)) :
    Left server freed parent
      (found > 0 ∧ UnlinkPlans server parent name frame ∧ Touches server) := by
  unfold LFS.creatReplace at hrun
  split at hrun
  next hfound =>
    obtain ⟨rc, last, hunlink, hlast⟩ := bind_eq_some hrun
    cases hlast
    rw [and_iff_right hfound]
    exact (h.fsiUnlink hroom hunlink).2
  next hfound =>
    cases hrun
    exact h.left_of_inodes rfl (fun _ ↦ Unchanged.of_image rfl rfl rfl) fun hboth ↦
      absurd hboth.1 hfound

theorem InBounds.fsiCreat (h : InBounds server) {type : Word}
    (hroom : server.cr.endPos.toNat + (4288 + creatGrowth type) < 2 ^ 31) {name : CString}
    {frame : CreatFrame}
    (hrun : fsiCreat ((parent : ℕ) : ℤ) type name frame server = some (rc, next)) :
    Settled server rc next (CreatClean server parent type name frame) := by
  obtain ⟨probe, probed, hprobe, hrest⟩ := bind_eq_some hrun
  cases probe with
  | none =>
    cases hrest
    refine h.settled_unchanged (Unchanged.of_readOnly (readOnly_creatProbe _ _ _) hprobe) ?_
    intro pnode found probed' freed place placed hprobe'
    cases hprobe.symm.trans hprobe'
  | some pair =>
    obtain ⟨pnode, found⟩ := pair
    obtain ⟨⟨⟩, freed, hreplace, hrest⟩ := bind_eq_some hrest
    obtain ⟨place, placed, hplace, hrest⟩ := bind_eq_some hrest
    have hclean : CreatClean server parent type name frame ↔ PlaceClean freed parent type
        (found > 0 ∧ UnlinkPlans probed parent name frame.unlink ∧ Touches probed) place := by
      refine ⟨fun hc ↦ hc _ _ _ _ _ _ hprobe hreplace hplace, ?_⟩
      intro hc pnode' found' probed' freed' place' placed' hprobe' hreplace' hplace'
      cases hprobe.symm.trans hprobe'
      cases hreplace.symm.trans hreplace'
      cases hplace.symm.trans hplace'
      exact hc
    have hprobed : probed = server.seek _ := readOnly_creatProbe _ _ _ _ _ _ hprobe
    have hbounds : InBounds probed := by
      rw [hprobed]
      exact h.seek _
    have hprobedEnd : probed.cr.endPos = server.cr.endPos := by
      rw [hprobed]
      rfl
    have hallocated := allocated_of_creatProbe hprobe
    have hparent : probed.inodes parent ≠ -1 := by
      rw [hprobed]
      exact hallocated
    have hroom' : probed.cr.endPos.toNat + 4288 < 2 ^ 31 := by
      rw [hprobedEnd]
      omega
    obtain ⟨removed, hfreed⟩ := creatReplace_appended hroom' hreplace
    have hlow := hfreed.end_le
    have hhigh := hfreed.end_high
    rw [hprobedEnd] at hhigh
    have hplaced : placed = freed.seek _ := readOnly_creatPlace _ _ _ _ _ _ hplace
    have hplacedEnd : placed.cr.endPos = freed.cr.endPos := by
      rw [hplaced]
      rfl
    have hleft := (hbounds.creatReplace hroom' hreplace).before hplaced
    rw [hclean]
    refine Settled.before hprobed ?_
    cases place with
    | none =>
      obtain ⟨hrc, hnext⟩ := Prod.mk.inj (Option.some.inj hrest)
      rw [← hrc, ← hnext]
      exact hbounds.settled_left hparent hleft
    | some plan =>
      have hsettled := hbounds.creatCommit hparent hleft (by rw [hplacedEnd]; exact hlow)
        (by rw [hplacedEnd]; omega) hrest
      rw [hplaced] at hsettled
      exact hsettled

/-! ## Every request -/

/-- A call that changes the image, with any arguments. -/
inductive Request
  | creat (pinum : ℤ) (type : Word) (name : CString) (frame : CreatFrame)
  | write (inum : ℤ) (buffer : Store) (block : ℤ) (node : Store)
  | unlink (pinum : ℤ) (name : CString) (frame : UnlinkFrame)

def Request.exec : Request → Fsi ℤ
  | .creat pinum type name frame => fsiCreat pinum type name frame
  | .write inum buffer block node => fsiWrite inum buffer block node
  | .unlink pinum name frame => fsiUnlink pinum name frame

def Request.step (server : Server) (request : Request) : Option Server :=
  (request.exec server).map Prod.snd

/-- By how many bytes a request can move the end of the log. -/
def Request.growth : Request → ℕ
  | .creat _ type _ _ => 4288 + creatGrowth type
  | .write .. => 4224
  | .unlink .. => 4288

/-- The writes of the request, as they will come out, leave nothing behind if it fails. -/
def Request.Clean (server : Server) : Request → Prop
  | .creat pinum type name frame =>
    ∀ parent : Fin 4096, pinum = ((parent : ℕ) : ℤ) → CreatClean server parent type name frame
  | .write inum _ block node => WriteClean server inum block node
  | .unlink pinum name frame =>
    ∀ parent : Fin 4096, pinum = ((parent : ℕ) : ℤ) → UnlinkClean server parent name frame

/-- A position that is an `int` after the request. -/
def Request.HasRoom (server : Server) (request : Request) : Prop :=
  server.cr.endPos.toNat + request.growth < 2 ^ 31

theorem isInum_of_getInode {α : Type} {inum : ℤ} {node : Store} {rest : ℤ × Inode → Fsi α}
    {value : α} (h : (getInode inum node >>= rest) server = some (value, next)) : IsInum inum := by
  by_contra hinum
  rw [bind_run_none (getInode_none hinum node)] at h
  cases h

theorem forall_parent_iff (P : Fin 4096 → Prop) (i : Fin 4096) :
    (∀ parent : Fin 4096, ((i : ℕ) : ℤ) = ((parent : ℕ) : ℤ) → P parent) ↔ P i := by
  refine ⟨fun h ↦ h i rfl, fun h parent hparent ↦ ?_⟩
  rwa [← Fin.ext (Int.ofNat.inj hparent)]

theorem InBounds.exec (h : InBounds server) {request : Request}
    (hroom : request.HasRoom server) (hrun : request.exec server = some (rc, next)) :
    Settled server rc next (request.Clean server) := by
  cases request with
  | creat pinum type name frame =>
    obtain ⟨probe, probed, hprobe, -⟩ := bind_eq_some hrun
    obtain ⟨i, rfl⟩ := (isInum_of_getInode hprobe).exists_fin
    refine (h.fsiCreat hroom hrun).congr ?_
    exact forall_parent_iff (CreatClean server · type name frame) i
  | write inum buffer block node =>
    obtain ⟨i, rfl⟩ := (isInum_of_getInode hrun).exists_fin
    exact h.fsiWrite hroom hrun
  | unlink pinum name frame =>
    obtain ⟨result, searched, hsearch, -⟩ := bind_eq_some hrun
    obtain ⟨i, rfl⟩ := (isInum_of_getInode hsearch).exists_fin
    refine (h.fsiUnlink hroom hrun).1.congr ?_
    exact forall_parent_iff (UnlinkClean server · name frame) i

/-- The positions that `fsi_build` records do not depend on its writes, whose results it ignores. -/
theorem fsiBuild_inBounds (server : Server) (dirBlock : Store) :
    ∃ start, fsiBuild dirBlock server = some ((), start) ∧ InBounds start := by
  let blocked := (server.seek crSize).tried lfsBlockSize (rootBlock dirBlock)
  let rooted := blocked.tried inodeSize rootInode.toBytes
  let mapped : Server :=
    { rooted with
      inodes := fun i ↦ if i = 0 then 0 + 4096 + 1028 else -1
      cr := { rooted.cr with chunks := fun k ↦ if k = 0 then 0 + 4096 + 64 + 1028 else -1 } }
  let chunked := mapped.tried chunkSize (chunkBytes mapped.inodes (chunkOf 0))
  let closed := chunked.putEnd (0 + 4096 + 64 + 64 + 1028)
  obtain ⟨_, hblock, -⟩ := write_tried lfsBlockSize (rootBlock dirBlock) (server.seek crSize)
  obtain ⟨_, hroot, -⟩ := write_tried inodeSize rootInode.toBytes blocked
  obtain ⟨_, hchunk, -⟩ := write_tried chunkSize (chunkBytes mapped.inodes (chunkOf 0)) mapped
  obtain ⟨_, hclosed, -⟩ := write_tried crSize closed.cr.toBytes (closed.seek 0)
  have hinodes : closed.inodes = mapped.inodes := tried_inodes
  refine ⟨(closed.seek 0).tried crSize closed.cr.toBytes, ?_, ?_, ?_⟩
  · unfold fsiBuild
    rw [bind_run (lseek_run _), bind_run hblock, bind_run hroot, bind_run (update_run _),
      bind_run (update_run _), bind_run ((writeChunk_eq 0 mapped).trans hchunk),
      bind_run (update_run _), bind_run ((writeCheckpoint_eq closed).trans hclosed)]
    rfl
  · rw [tried_cr]
    exact show crSize ≤ (0 + 4096 + 64 + 64 + 1028 : Word).toNat by decide
  · rw [tried_cr, tried_inodes]
    intro k hk
    change closed.inodes k ≠ -1 at hk
    change crSize ≤ (closed.inodes k).toNat ∧ (closed.inodes k).toNat + inodeSize ≤ 5252
    rw [hinodes] at hk ⊢
    by_cases hzero : k = 0
    · have hroot : mapped.inodes k = 0 + 4096 + 1028 := if_pos hzero
      rw [hroot]
      decide
    · exact absurd (if_neg hzero) hk

/-- The request has room, and leaves nothing behind if it fails. -/
def Request.Sound (server : Server) (request : Request) : Prop :=
  request.HasRoom server ∧ request.Clean server

theorem InBounds.run {requests : List Request} (h : InBounds start)
    (hsound : Guarded Request.step Request.Sound start requests)
    (hrun : Run.run Request.step start requests = some server) : InBounds server := by
  refine hsound.invariant_of_run (fun state request after hstate hok hstep ↦ ?_) h hrun
  obtain ⟨⟨value, last⟩, hexec, hlast⟩ := Option.map_eq_some_iff.mp hstep
  cases hlast
  exact (hstate.exec hok.1 hexec).bounds hok.2

/-- In the states that requests reach from a new image, if none of them has left anything behind, a
request that fails leaves the memory and the log as they were exactly if its writes are clean. -/
theorem failed_unchanged_iff (fresh : Server) (dirBlock : Store) :
    ∃ start, fsiBuild dirBlock fresh = some ((), start) ∧
      ∀ requests server,
        Guarded Request.step Request.Sound start requests →
        run Request.step start requests = some server →
        ∀ (request : Request) rc next, request.HasRoom server →
          request.exec server = some (rc, next) →
          ((rc = -1 → Unchanged next server) ↔ request.Clean server) := by
  obtain ⟨start, hstart, hbounds⟩ := fsiBuild_inBounds fresh dirBlock
  refine ⟨start, hstart, fun requests server hsound hrun request rc next hroom hexec ↦ ?_⟩
  exact ((hbounds.run hsound hrun).exec hroom hexec).unchanged_iff

/-! ## A file whose write fails -/

/-- A new process whose `write` call number `k` will fail. -/
def failingServer (k : ℕ) : Server :=
  { freshServer with results := fun n ↦ if n = k then .error else .full }

def createFile : Request := .creat 0 lfsRegularFile (fileName 2) junkFrame

def writeFile : Request := .write 1 junk 0 junk

/-- The first write of `fsi_write` fails. -/
theorem first_write_fails_unchanged :
    ∃ start server next, fsiBuild fileNames (failingServer 9) = some ((), start) ∧
      run Request.step start [createFile] = some server ∧
      writeFile.exec server = some (-1, next) ∧ Unchanged next server := by
  have hvalues : ((fsiBuild fileNames (failingServer 9)).bind fun built ↦
      (createFile.exec built.2).bind fun created ↦
        (writeFile.exec created.2).map fun written ↦
          (built.2.cr.endPos, created.1, created.2.cr.endPos, created.2.fails 0, written.1)) =
      some (5252, 0, 5252 + 4288, true, -1) := by
    decide +kernel
  obtain ⟨start, hstart, hlaw⟩ := failed_unchanged_iff (failingServer 9) fileNames
  obtain ⟨_, hbuilt, hbounds⟩ := fsiBuild_inBounds (failingServer 9) fileNames
  cases hstart.symm.trans hbuilt
  rw [hstart, Option.bind_some] at hvalues
  obtain ⟨⟨rc, server⟩, hcreate, hvalues⟩ := Option.bind_eq_some_iff.mp hvalues
  obtain ⟨⟨rc', next⟩, hwrite, hvalues⟩ := Option.map_eq_some_iff.mp hvalues
  simp only [Prod.mk.injEq] at hvalues
  obtain ⟨hstartEnd, rfl, hend, hfails, rfl⟩ := hvalues
  have hstep : Request.step start createFile = some server := by
    rw [Request.step, hcreate, Option.map_some]
  have hroom : createFile.HasRoom start := by
    unfold Request.HasRoom
    rw [hstartEnd]
    decide
  have hclean : createFile.Clean start :=
    (hbounds.exec hroom hcreate).unchanged_iff.mp fun hrc ↦ absurd hrc (by decide)
  have hrun : run Request.step start [createFile] = some server := run_cons_of_step [] hstep
  have hroom' : writeFile.HasRoom server := by
    unfold Request.HasRoom
    rw [hend]
    decide
  have hiff := hlaw [createFile] server ⟨⟨hroom, hclean⟩, fun _ _ ↦ trivial⟩ hrun writeFile (-1)
    next hroom' hwrite
  exact ⟨start, server, next, hstart, hrun, hwrite, hiff.mpr (fun _ ↦ Or.inl hfails) rfl⟩

/-- The second write of `fsi_write` fails: the inode map points behind the log, at an inode that was
not written. -/
theorem second_write_fails_changed :
    ∃ start server next, fsiBuild fileNames (failingServer 10) = some ((), start) ∧
      run Request.step start [createFile] = some server ∧
      writeFile.exec server = some (-1, next) ∧ ¬ Unchanged next server := by
  have hvalues : ((fsiBuild fileNames (failingServer 10)).bind fun built ↦
      (run Request.step built.2 [createFile]).bind fun server ↦
        (writeFile.exec server).map fun written ↦
          (written.1, server.inodes 1, written.2.inodes 1)) =
      some (-1, 5252 + 4160, 5252 + 8384) := by
    decide +kernel
  obtain ⟨⟨⟨⟩, start⟩, hstart, hvalues⟩ := Option.bind_eq_some_iff.mp hvalues
  obtain ⟨server, hserver, hvalues⟩ := Option.bind_eq_some_iff.mp hvalues
  obtain ⟨⟨rc, next⟩, hnext, hvalues⟩ := Option.map_eq_some_iff.mp hvalues
  simp only [Prod.mk.injEq] at hvalues
  obtain ⟨rfl, hbefore, hafter⟩ := hvalues
  refine ⟨start, server, next, hstart, hserver, hnext, fun hsame ↦ ?_⟩
  rw [hsame.inodes, hbefore] at hafter
  exact absurd hafter (by decide)

end OS537.LFS
