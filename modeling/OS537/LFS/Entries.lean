import OS537.LFS.Repeat

/-!
# Entries made twice

What a call of `fsi_creat` or `fsi_unlink` that goes through does to the parent, in any server whose
records of the parent lie in the log, also where parent and child have different chunks of the inode
map. A creation fills a slot that was free, so a second one fills another slot and the parent's
blocks differ from those after the first.
-/

namespace OS537.LFS

open Bytes Code Posix

variable {server next : Server} {dir : Fin 4096} {name : CString} {rc : ℤ}

/-! ## What the searches find -/

theorem InodeLogged.inodeIs {n : ℕ} (h : InodeLogged server dir) (hspace : Appendable server n) :
    InodeIs server dir (server.inodeRecord dir) := by
  have hhigh := h.node.2
  have hroom := hspace.room
  exact ⟨by omega, hhigh.trans hspace.end_le, rfl⟩

theorem InodeLogged.direct_fits {n : ℕ} (h : InodeLogged server dir)
    (hspace : Appendable server n) {j : Fin ndirect}
    (hj : (server.inodeRecord dir).direct j ≠ -1) :
    ((server.inodeRecord dir).direct j).toNat < 2 ^ 31 ∧
      ((server.inodeRecord dir).direct j).toNat + lfsBlockSize ≤ server.image.size := by
  have hhigh := (h.block j hj).2
  have hroom := hspace.room
  exact ⟨by omega, hhigh.trans hspace.end_le⟩

/-- A block read for the search of a free slot, with the slot. -/
structure FreeSlot (server next : Server) (pnode : Inode) (block slot : ℕ) (content : Store) :
    Prop where
  lt : slot < dirEntries
  free : entryInum content slot = -1
  read : ∃ buffer offset rc, getBlock pnode buffer (block : ℤ) (server.seek offset) =
    some ((rc, content), next)

theorem creatBlocks_cases {pnode : Inode} {inum : Word} {fuel block found : ℕ}
    {dirBlock foundBlock : Store}
    (h : creatBlocks pnode name inum fuel block dirBlock server =
      some (some (foundBlock, found), next)) :
    ∃ slot content, FreeSlot server next pnode found slot content ∧
      foundBlock = setEntry content slot name inum := by
  induction fuel generalizing block dirBlock server with
  | zero => cases h
  | succ fuel ih =>
    obtain ⟨⟨rc, content⟩, middle, hread, hrest⟩ := bind_eq_some h
    dsimp only at hrest
    split at hrest
    · cases hrest
    · cases hfirst : Scan.first (fun i ↦ entryInum content i = -1) dirEntries with
      | some slot =>
        rw [hfirst] at hrest
        cases hrest
        obtain ⟨hlt, hfree, -⟩ := Scan.first_eq_some_iff.mp hfirst
        exact ⟨slot, content, ⟨hlt, of_decide_eq_true hfree, dirBlock, server.offset, rc, hread⟩,
          rfl⟩
      | none =>
        rw [hfirst] at hrest
        obtain ⟨slot, found, ⟨hlt, hfree, buffer, offset, rc', hblock⟩, hentry⟩ := ih hrest
        rw [readOnly_getBlock _ _ _ _ _ _ hread] at hblock
        exact ⟨slot, found, ⟨hlt, hfree, buffer, offset, rc', hblock⟩, hentry⟩

/-- The place that `fsi_creat` has found. -/
theorem creatPlace_cases {pnode : Inode} {dirBlock : Store} {plan : CreatPlan}
    (h : creatPlace pnode name dirBlock server = some (some plan, next)) :
    plan.pnode = pnode ∧ server.inodes plan.inum = -1 ∧ ∃ slot content,
      FreeSlot server next pnode plan.foundBlock slot content ∧
      plan.dirBlock = setEntry content slot name (BitVec.ofNat 32 plan.inum) := by
  obtain ⟨place, final, hplace, hfirst⟩ := creatPlace_run server pnode name dirBlock
  cases h.symm.trans hplace
  have hfree := inodeFree_first (hfirst plan rfl)
  unfold creatPlace at h
  rw [bind_run get_run, hfirst plan rfl] at h
  dsimp only at h
  rw [bind_run (index_natCast_run plan.inum)] at h
  obtain ⟨blocks, middle, hblocks, hrest⟩ := bind_eq_some h
  cases blocks with
  | none => cases hrest
  | some pair =>
    obtain ⟨j, last, hindex, hlast⟩ := bind_eq_some hrest
    obtain ⟨hj, rfl⟩ := index_eq_some hindex
    obtain ⟨hresult, hnext⟩ := Prod.mk.inj (Option.some.inj hlast)
    have hplan := Option.some.inj hresult
    obtain ⟨slot, content, hslot, hentry⟩ := creatBlocks_cases hblocks
    have hblock : j = plan.foundBlock := congrArg CreatPlan.foundBlock hplan
    have hdirBlock : pair.1 = plan.dirBlock := congrArg CreatPlan.dirBlock hplan
    rw [← Int.ofNat_inj.mp hj, hblock, hnext] at hslot
    rw [hdirBlock] at hentry
    exact ⟨(congrArg CreatPlan.pnode hplan).symm, hfree, slot, content, hslot, hentry⟩

/-- In an allocated block the slot is free in the log. -/
theorem FreeSlot.free_in_log {pnode : Inode} {j : Fin ndirect} {slot : ℕ} {content : Store}
    (h : FreeSlot server next pnode j slot content) (hnonneg : (pnode.direct j).toNat < 2 ^ 31)
    (hfits : (pnode.direct j).toNat + lfsBlockSize ≤ server.image.size) :
    AgreeOn content (fun b ↦ server.image.bytes ((pnode.direct j).toNat + b)) 0 lfsBlockSize := by
  obtain ⟨buffer, offset, rc, hread⟩ := h.read
  have hfits' : (pnode.direct j).toNat + lfsBlockSize ≤ (server.seek offset).image.size := hfits
  rw [getBlock_fits buffer hnonneg hfits'] at hread
  cases hread
  intro b _ hb
  exact File.pread_apply_of_le _ _ hfits hb

theorem entryInum_pread (buffer : Store) {j : Fin ndirect} {slot : ℕ}
    (hfits : ((server.inodeRecord dir).direct j).toNat + lfsBlockSize ≤ server.image.size)
    (hslot : slot < dirEntries) :
    entryInum (server.image.pread ((server.inodeRecord dir).direct j).toNat lfsBlockSize buffer)
      slot = entryInum (server.dirBlock dir j) slot := by
  have hsame : AgreeOn
      (server.image.pread ((server.inodeRecord dir).direct j).toNat lfsBlockSize buffer)
      (server.dirBlock dir j) 0 lfsBlockSize :=
    fun _ _ hb ↦ File.pread_apply_of_le _ _ hfits hb
  exact entryInum_congr (AgreeOn.slot hsame hslot)

/-! ## Removals -/

/-- The directory has an entry that is not for itself, so that `fsi_unlink` does not take it for
empty. -/
def HoldsOther (server : Server) (dir : Fin 4096) : Prop :=
  IsDirectory server dir → (server.inodeRecord dir).direct 0 ≠ -1 ∧
    ∃ slot < dirEntries, entryInum (server.dirBlock dir 0) slot ≠ BitVec.ofNat 32 dir

theorem onlySelfAndParent_entry {content : Store} {cinum pinum : ℤ}
    (h : onlySelfAndParent content cinum pinum = true) {slot : ℕ} (hslot : slot < dirEntries) :
    (entryInum content slot).toInt = cinum := by
  unfold onlySelfAndParent at h
  rw [Option.isNone_iff_eq_none, Scan.first_eq_none_iff] at h
  have hmiss := of_decide_eq_false (h slot hslot)
  exact not_not.mp fun hne ↦ hmiss (Or.inl hne)

/-- A directory with other entries is not removed from itself. -/
theorem UnlinkChecked.cinum_ne {n : ℕ} {frame : UnlinkFrame} {plan : UnlinkPlan}
    (h : UnlinkChecked server ((dir : ℕ) : ℤ) name frame plan) (hspace : Appendable server n)
    (hlogged : InodeLogged server dir) (hother : HoldsOther server dir)
    (hallocated : server.inodes dir ≠ -1) : plan.cinum ≠ dir := by
  intro heq
  obtain ⟨rc, probed, looked, rc', cnode, last, hprobed, -, hlooked, hlast, hchild⟩ := h.child
  have hnode := hlogged.inodeIs hspace
  rw [heq] at hlooked hlast hchild
  have hprobed' := readOnly_getInode _ _ _ _ _ hprobed
  have hlooked' := readOnly_fsiLookup _ _ _ _ _ _ hlooked
  rw [hprobed'] at hlooked hlooked'
  have htype : (server.inodeRecord dir).type = lfsDirectory := by
    by_contra hne
    have hrefused := fsiLookup_not_directory name frame.lookup (hnode.seek probed.offset) hne
    cases hlooked.symm.trans hrefused
  rw [hlooked'] at hlast
  have hread := getInode_run frame.cnode (hnode.seek looked.offset)
  cases hlast.symm.trans hread
  obtain ⟨-, rc'', content, after, hblock, honly⟩ := hchild htype
  obtain ⟨hfirst, slot, hslot, hentry⟩ := hother ⟨hallocated, htype⟩
  obtain ⟨hnonneg, hfits⟩ := hlogged.direct_fits hspace hfirst
  let seen := (server.seek looked.offset).seek ((server.inodes dir).toNat + inodeSize)
  have hfits' : ((server.inodeRecord dir).direct 0).toNat + lfsBlockSize ≤ seen.image.size := hfits
  have hblock' : getBlock (server.inodeRecord dir) frame.cdirBlocks (((0 : Fin ndirect) : ℕ) : ℤ)
      seen = some ((rc'', content), after) := hblock
  rw [getBlock_fits frame.cdirBlocks hnonneg hfits'] at hblock'
  cases hblock'
  have hself := onlySelfAndParent_entry honly hslot
  rw [← toInt_ofNat_fin dir, BitVec.toInt_inj] at hself
  exact hentry ((entryInum_pread frame.cdirBlocks hfits hslot).symm.trans hself)

/-- What a call of `fsi_unlink` that goes through leaves. -/
structure Unlinked (next server : Server) (dir child : Fin 4096) : Prop where
  extend : Extends next server
  full : AllFull next
  end_eq : next.cr.endPos.toNat = server.cr.endPos.toNat + 4224
  end_le : next.cr.endPos.toNat ≤ next.image.size
  inodes : next.inodes =
    Function.update (Function.update server.inodes dir (server.cr.endPos + 4096)) child (-1)

theorem unlinkCommit_unlinked (dir : Fin 4096) (hspace : Appendable server 4224) (plan : UnlinkPlan)
    {block : Fin ndirect} {slot : ℕ} (hfound : plan.found = some ((block : ℕ), slot)) :
    ∃ next, unlinkCommit ((dir : ℕ) : ℤ) plan server = some (0, next) ∧
      Unlinked next server dir plan.cinum := by
  let pos := server.cr.endPos + 4096 + 64
  let appended := server.appendedParent dir plan block slot
  let chunked := appended.parentChunked dir plan.cinum pos
  have hroom := hspace.room
  have hpos : pos.toNat = server.cr.endPos.toNat + 4160 := toNat_after_inode _ (by omega)
  have hend : (pos + 64).toNat = server.cr.endPos.toNat + 4224 := by
    rw [toNat_after_record _ (by omega), hpos]
  have hkeeps : Keeps server.cr.endPos.toNat server appended :=
    ((hspace.keeps.wrote lfsBlockSize plan.dirBlock).wrote inodeSize
      (unlinkedParent plan.pnode block slot server.cr.endPos).toBytes).of_image rfl rfl rfl
  have hchunked := hkeeps.parentChunked dir plan.cinum pos
  have hoffset : server.cr.endPos.toNat + 4160 ≤ chunked.offset :=
    appended.offset_le_parentChunked dir plan.cinum pos
  refine ⟨_, unlinkCommit_eq hspace.full dir plan block slot hfound (by omega), ?_⟩
  constructor
  case extend => exact hchunked.extend plan.cinum pos (by omega)
  case full => exact committed_full hchunked.full plan.cinum pos
  case end_eq => exact hend
  case end_le =>
    have hsize := chunked.offset_le_committed plan.cinum pos
    have hfinal : (chunked.committed plan.cinum pos).cr.endPos = pos + 64 := rfl
    rw [hfinal, hend]
    have hchunk : server.cr.endPos.toNat + 4224 ≤ chunked.offset + chunkSize :=
      Nat.add_le_add_right hoffset 64
    exact hchunk.trans hsize
  case inodes =>
    rw [committed_inodes, parentChunked_inodes]
    rfl

/-- A call of `fsi_unlink` either returns -1 before it writes, or goes through. -/
theorem fsiUnlink_cases {frame : UnlinkFrame} (hspace : Appendable server 4224)
    (h : fsiUnlink ((dir : ℕ) : ℤ) name frame server = some (rc, next)) :
    (rc = -1 ∧ ∃ offset, next = server.seek offset) ∨
      rc = 0 ∧ ∃ plan offset, UnlinkChecked server ((dir : ℕ) : ℤ) name frame plan ∧
        Unlinked next (server.seek offset) dir plan.cinum := by
  obtain ⟨result, searched, hsearch, hrest⟩ := bind_eq_some h
  have hsearched : searched = server.seek searched.offset :=
    readOnly_unlinkSearch _ _ _ _ _ _ hsearch
  rcases unlinkSearch_cases hsearch with hrefused | ⟨plan, hplan, hchecked⟩
  · rw [hrefused] at hrest
    cases hrest
    exact Or.inl ⟨rfl, _, hsearched⟩
  · rw [hplan] at hrest
    dsimp only at hrest
    rw [hsearched] at hrest
    have hspace' := hspace.seek searched.offset
    cases hfound : plan.found with
    | none =>
      -- `foundBlock` is still -1 after the first write.
      have hdefined : Defined (unlinkCommit ((dir : ℕ) : ℤ) plan) (server.seek searched.offset) :=
        ⟨rc, next, hrest⟩
      have herror := (unlinkCommit_defined_iff dir hchecked.found_lt).mp hdefined hfound
      cases (hspace'.full 0).symm.trans herror
    | some pair =>
      obtain ⟨block, slot⟩ := pair
      have hblock := hchecked.found_lt block slot hfound
      have hfound' : plan.found = some (((⟨block, hblock⟩ : Fin ndirect) : ℕ), slot) := hfound
      obtain ⟨final, hfinal, hunlinked⟩ := unlinkCommit_unlinked dir hspace' plan hfound'
      cases hrest.symm.trans hfinal
      exact Or.inr ⟨rfl, plan, searched.offset, hchecked.toUnlinkChecked, hunlinked⟩

/-! ## Creations -/

/-- The records that a creation leaves, from its commit on. -/
structure EntryCommitted (next server : Server) (dir : Fin 4096) (plan : CreatPlan) : Prop where
  extend : Extends next server
  full : AllFull next
  end_low : server.cr.endPos.toNat + 4160 ≤ next.cr.endPos.toNat
  end_high : next.cr.endPos.toNat ≤ server.cr.endPos.toNat + 8384
  end_le : next.cr.endPos.toNat ≤ next.image.size
  position : next.inodes dir = server.cr.endPos + 4096
  block : BlockAt next.image server.cr.endPos.toNat plan.dirBlock
  node : InodeAt next.image (server.cr.endPos.toNat + 4096)
    (createdParent plan.pnode plan.foundBlock server.cr.endPos)

theorem EntryCommitted.inodeRecord_eq {plan : CreatPlan} (h : EntryCommitted next server dir plan)
    (hroom : server.cr.endPos.toNat + 4096 < 2 ^ 31) :
    next.inodeRecord dir = createdParent plan.pnode plan.foundBlock server.cr.endPos := by
  have hpos : (server.cr.endPos + 4096).toNat = server.cr.endPos.toNat + 4096 :=
    toNat_after_block _ (by omega)
  unfold Server.inodeRecord
  rw [h.position, hpos]
  exact h.node.ofBytes_eq

section Committed

variable {plan : CreatPlan} (h : EntryCommitted next server dir plan)
  (hroom : server.cr.endPos.toNat + 4096 < 2 ^ 31)

include h hroom

theorem EntryCommitted.direct_eq : (next.inodeRecord dir).direct =
    Function.update plan.pnode.direct plan.foundBlock server.cr.endPos := by
  rw [h.inodeRecord_eq hroom, createdParent_direct]

theorem EntryCommitted.dirBlock_found :
    AgreeOn (next.dirBlock dir plan.foundBlock) plan.dirBlock 0 lfsBlockSize := by
  intro b _ hb
  unfold Server.dirBlock
  rw [h.direct_eq hroom, Function.update_self]
  exact h.block.bytes b hb

/-- The other blocks of the parent stay. -/
theorem EntryCommitted.dirBlock_other {j : Fin ndirect} (hj : j ≠ plan.foundBlock)
    (hlogged : InLog server (plan.pnode.direct j) lfsBlockSize) :
    AgreeOn (next.dirBlock dir j) (fun b ↦ server.image.bytes ((plan.pnode.direct j).toNat + b)) 0
      lfsBlockSize := by
  obtain ⟨hlow, hhigh⟩ := hlogged
  intro b _ hb
  unfold Server.dirBlock
  rw [h.direct_eq hroom, Function.update_of_ne hj]
  exact h.extend.agree _ (by omega) (by omega)

theorem EntryCommitted.inodeLogged (hlow : crSize ≤ server.cr.endPos.toNat)
    (hlogged : ∀ j, plan.pnode.direct j ≠ -1 → InLog server (plan.pnode.direct j) lfsBlockSize) :
    InodeLogged next dir := by
  have hend := h.end_low
  have hsizes := record_sizes
  have hpos : (server.cr.endPos + 4096).toNat = server.cr.endPos.toNat + 4096 :=
    toNat_after_block _ (by omega)
  constructor
  case node =>
    rw [h.position]
    exact ⟨by omega, by omega⟩
  case block =>
    intro j hj
    rw [h.direct_eq hroom] at hj ⊢
    by_cases hfound : j = plan.foundBlock
    · rw [hfound, Function.update_self]
      exact ⟨hlow, by omega⟩
    · rw [Function.update_of_ne hfound] at hj ⊢
      exact (hlogged j hj).extend h.extend

end Committed

/-- The end of a creation, from a server that has appended what comes before the child's inode. -/
theorem creatChild_committed {middle : Server} {pos : Word} {plan : CreatPlan} (child : Inode)
    (hspace : Appendable server 8384) (hne : plan.inum ≠ dir)
    (hserver : Keeps server.cr.endPos.toNat server middle)
    (hentry : Keeps (server.cr.endPos.toNat + 4160) (server.appendedEntry dir plan) middle)
    (hinodes : middle.inodes dir = server.cr.endPos + 4096)
    (hlow : server.cr.endPos.toNat + 4160 ≤ pos.toNat)
    (hhigh : pos.toNat ≤ server.cr.endPos.toNat + 8256) (hoffset : pos.toNat ≤ middle.offset) :
    ∃ next, creatChild plan.inum child pos middle = some (0, next) ∧
      EntryCommitted next server dir plan := by
  let last := middle.appendedChild plan.inum child pos
  let final := last.committed plan.inum (pos + 64)
  have hroom := hspace.room
  have hsizes := record_sizes
  have hstart := hspace.low
  have hchild {start : Server} {n : ℕ} (h : Keeps n start middle) : Keeps n start last := by
    have hlisted : Keeps n start (middle.putInode plan.inum pos) := h.of_image rfl rfl rfl
    exact hlisted.wrote inodeSize child.toBytes
  have hpos : (pos + 64).toNat = pos.toNat + 64 := toNat_after_record _ (by omega)
  have hend : final.cr.endPos.toNat = pos.toNat + 128 := by
    have hfinal : final.cr.endPos = pos + 64 + 64 := rfl
    rw [hfinal, toNat_after_record _ (by omega), hpos]
  obtain ⟨hblock, hnode⟩ := appendedEntry_records server dir plan
  refine ⟨final, creatChild_run hserver.full plan.inum child pos, ?_⟩
  constructor
  case extend =>
    apply (hchild hserver).extend
    have hfinal : final.cr.endPos = pos + 64 + 64 := rfl
    rw [← hfinal, hend]
    omega
  case full => exact committed_full (hchild hserver).full _ _
  case end_low => omega
  case end_high => omega
  case end_le =>
    have hsize : last.offset + chunkSize ≤ final.image.size := last.offset_le_committed _ _
    have hlast : last.offset = middle.offset + inodeSize := rfl
    rw [hend]
    omega
  case position =>
    have hfinal : final.inodes = Function.update middle.inodes plan.inum pos := rfl
    rw [hfinal, Function.update_of_ne hne.symm, hinodes]
  case block => exact (hchild hentry).holds_committed _ _ hblock hstart (by omega)
  case node => exact (hchild hentry).holds_committed _ _ hnode (by omega) (by omega)

theorem creatCommit_committed (hspace : Appendable server 8384) {plan : CreatPlan}
    (hne : plan.inum ≠ dir) (type : Word) (childDirBlock : Store) :
    ∃ next, creatCommit ((dir : ℕ) : ℤ) type childDirBlock plan server = some (0, next) ∧
      EntryCommitted next server dir plan := by
  let pos := server.cr.endPos + 4096 + 64
  let entry := server.appendedEntry dir plan
  let entered := entry.parentChunked dir plan.inum pos
  have hroom := hspace.room
  have hpos : pos.toNat = server.cr.endPos.toNat + 4160 := toNat_after_inode _ (by omega)
  have hlisted : Keeps server.cr.endPos.toNat server
      (((server.seek server.cr.endPos.toNat).wrote lfsBlockSize plan.dirBlock).putInode dir
        (server.cr.endPos + 4096)) :=
    (hspace.keeps.wrote lfsBlockSize plan.dirBlock).of_image rfl rfl rfl
  have hserver : Keeps server.cr.endPos.toNat server entry := hlisted.wrote inodeSize _
  have hentry : Keeps (server.cr.endPos.toNat + 4160) entry entry :=
    ⟨hserver.full, le_rfl, le_max_right _ _, fun _ _ _ ↦ rfl⟩
  have hinodes : entered.inodes dir = server.cr.endPos + 4096 := by
    rw [parentChunked_inodes]
    exact Function.update_self _ _ _
  have hoffset : server.cr.endPos.toNat + 4160 ≤ entered.offset :=
    entry.offset_le_parentChunked dir plan.inum pos
  have hserver' := hserver.parentChunked dir plan.inum pos
  have hentry' := hentry.parentChunked dir plan.inum pos
  rw [creatCommit_eq hspace.full dir type childDirBlock plan]
  split
  · have hpos' : (pos + 4096).toNat = server.cr.endPos.toNat + 8256 := by
      rw [toNat_after_block _ (by omega), hpos]
    have hlow : server.cr.endPos.toNat + 4160 ≤ (pos + 4096).toNat := by omega
    exact creatChild_committed _ hspace hne (hserver'.wrote _ _) (hentry'.wrote _ _) hinodes hlow
      hpos'.le (hpos'.le.trans (Nat.add_le_add_right hoffset 4096))
  · have hhigh : pos.toNat ≤ server.cr.endPos.toNat + 8256 := by omega
    exact creatChild_committed _ hspace hne hserver' hentry' hinodes hpos.ge hhigh
      (hpos.le.trans hoffset)

theorem creatProbe_cases {pnode : Inode} {found : ℤ} {frame : CreatFrame}
    (hnode : server.inodes dir ≠ -1 → InodeIs server dir (server.inodeRecord dir))
    (h : creatProbe ((dir : ℕ) : ℤ) name frame server = some (some (pnode, found), next)) :
    server.inodes dir ≠ -1 ∧ pnode = server.inodeRecord dir ∧ next = server.seek next.offset := by
  have hnext : next = server.seek next.offset := readOnly_creatProbe _ _ _ _ _ _ h
  by_cases hdir : server.inodes dir = -1
  · unfold creatProbe at h
    rw [bind_run (getInode_unallocated frame.pnode hdir)] at h
    cases h
  · unfold creatProbe at h
    rw [bind_run (getInode_run frame.pnode (hnode hdir))] at h
    dsimp only at h
    rw [if_neg (by decide)] at h
    split at h
    · cases h
    · obtain ⟨rc, looked, -, hlast⟩ := bind_eq_some h
      cases hlast
      exact ⟨hdir, rfl, hnext⟩

/-- The server when `fsi_creat` looks for a place: the log has at most grown, and the parent is
still allocated. -/
structure Freed (freed server : Server) (dir : Fin 4096) : Prop where
  extend : Extends freed server
  space : Appendable freed 8384
  end_high : freed.cr.endPos.toNat ≤ server.cr.endPos.toNat + 4224
  allocated : freed.inodes dir ≠ -1

theorem creatReplace_freed {found : ℤ} {frame : UnlinkFrame} (hspace : Appendable server 12608)
    (hlogged : InodeLogged server dir) (hother : HoldsOther server dir)
    (hdir : server.inodes dir ≠ -1)
    (h : creatReplace ((dir : ℕ) : ℤ) name frame found server = some ((), next)) :
    Freed next server dir := by
  have hsought (offset : ℕ) : Freed (server.seek offset) server dir :=
    ⟨⟨fun _ _ _ ↦ rfl, le_rfl⟩, (hspace.mono (by decide)).seek offset, Nat.le_add_right _ _, hdir⟩
  unfold creatReplace at h
  split at h
  · obtain ⟨rc, freed, hunlink, hlast⟩ := bind_eq_some h
    cases hlast
    rcases fsiUnlink_cases (hspace.mono (by decide)) hunlink with
      ⟨-, offset, hnext⟩ | ⟨-, plan, offset, hchecked, hunlinked⟩
    · rw [hnext]
      exact hsought offset
    · have hroom := hspace.room
      have hlow := hspace.low
      have hend : next.cr.endPos.toNat = server.cr.endPos.toNat + 4224 := hunlinked.end_eq
      have hne := hchecked.cinum_ne hspace hlogged hother hdir
      refine ⟨⟨hunlinked.extend.agree, hunlinked.extend.end_le⟩,
        ⟨hunlinked.full, by omega, hunlinked.end_le, by omega⟩, hend.le, ?_⟩
      rw [hunlinked.inodes, Function.update_of_ne hne.symm, Function.update_self]
      have hpos : (server.cr.endPos + 4096).toNat = server.cr.endPos.toNat + 4096 :=
        toNat_after_block _ (by omega)
      exact ne_neg_one_of_toNat_lt (by rw [seek_cr]; omega)
  · cases h
    exact hsought server.offset

/-- What a call of `fsi_creat` that goes through leaves of the parent: a slot that was free is
taken. -/
structure Entered (next server : Server) (dir : Fin 4096) : Prop where
  full : AllFull next
  low : crSize ≤ next.cr.endPos.toNat
  end_le : next.cr.endPos.toNat ≤ next.image.size
  end_high : next.cr.endPos.toNat ≤ server.cr.endPos.toNat + 12608
  allocated : next.inodes dir ≠ -1
  logged : InodeLogged next dir
  other : HoldsOther next dir
  filled : ∃ j slot, slot < dirEntries ∧ next.Written dir j ∧
    entryInum (next.dirBlock dir j) slot ≠ -1 ∧
    (server.Written dir j → entryInum (server.dirBlock dir j) slot = -1)

theorem EntryCommitted.entered {freed placed : Server} {plan : CreatPlan} {content : Store}
    {slot : ℕ} (hlogged : InodeLogged server dir) (hother : HoldsOther server dir)
    (hdir : server.inodes dir ≠ -1) (hfreed : Freed freed server dir)
    (hpnode : plan.pnode = server.inodeRecord dir) (hinum : freed.inodes plan.inum = -1)
    (hslot : FreeSlot freed placed (server.inodeRecord dir) plan.foundBlock slot content)
    (hentry : plan.dirBlock = setEntry content slot name (BitVec.ofNat 32 plan.inum))
    (hplaced : placed = freed.seek placed.offset) (h : EntryCommitted next placed dir plan) :
    Entered next server dir := by
  let pos := freed.cr.endPos
  have hroom : pos.toNat + 8384 < 2 ^ 31 := hfreed.space.room
  have hfreedLow : crSize ≤ pos.toNat := hfreed.space.low
  have hfreedHigh : pos.toNat ≤ server.cr.endPos.toNat + 4224 := hfreed.end_high
  have hne : plan.inum ≠ dir := fun heq ↦ hfreed.allocated (heq ▸ hinum)
  rw [hplaced] at h
  have hposition : next.inodes dir = pos + 4096 := h.position
  have hpos : (pos + 4096).toNat = pos.toNat + 4096 := toNat_after_block _ (by omega)
  have hlow : pos.toNat + 4160 ≤ next.cr.endPos.toNat := h.end_low
  have hhigh : next.cr.endPos.toNat ≤ pos.toNat + 8384 := h.end_high
  have hplace : pos ≠ -1 := ne_neg_one_of_toNat_lt (by omega)
  have hsizes := record_sizes
  have hspace : pos.toNat + 4096 < 2 ^ 31 := by omega
  have hrecord : next.inodeRecord dir =
      createdParent (server.inodeRecord dir) plan.foundBlock pos := by
    rw [h.inodeRecord_eq hspace, hpnode]
    rfl
  have hdirect : (next.inodeRecord dir).direct =
      Function.update (server.inodeRecord dir).direct plan.foundBlock pos := by
    rw [hrecord, createdParent_direct]
  have hhere := h.dirBlock_found hspace
  have hkept (j : Fin ndirect) (hwritten : plan.pnode.direct j ≠ -1) :
      InLog freed (plan.pnode.direct j) lfsBlockSize := by
    rw [hpnode] at hwritten ⊢
    exact (hlogged.block j hwritten).extend hfreed.extend
  have hold (j : Fin ndirect) (hwritten : (server.inodeRecord dir).direct j ≠ -1) :
      AgreeOn (fun b ↦ freed.image.bytes (((server.inodeRecord dir).direct j).toNat + b))
        (server.dirBlock dir j) 0 lfsBlockSize := by
    obtain ⟨hblockLow, hblockHigh⟩ := hlogged.block j hwritten
    intro b _ hb
    exact hfreed.extend.agree _ (by omega) (by omega)
  have hallocated : next.inodes dir ≠ -1 := by
    rw [hposition]
    exact ne_neg_one_of_toNat_lt (by omega)
  have hfilled : entryInum (next.dirBlock dir plan.foundBlock) slot =
      BitVec.ofNat 32 plan.inum := by
    rw [entryInum_congr (AgreeOn.slot hhere hslot.lt), hentry, entryInum_setEntry_same]
  constructor
  case full => exact h.full
  case low => omega
  case end_le => exact h.end_le
  case end_high => omega
  case allocated => exact hallocated
  case logged => exact h.inodeLogged hspace hfreedLow hkept
  case other =>
    rintro ⟨-, htype⟩
    rw [hrecord, createdParent_type] at htype
    obtain ⟨hfirst, other, hlt, hne'⟩ := hother ⟨hdir, htype⟩
    rw [hdirect]
    by_cases hfound : plan.foundBlock = 0
    · rw [hfound] at hfilled
      refine ⟨by rw [hfound, Function.update_self]; exact hplace, slot, hslot.lt, ?_⟩
      rw [hfilled]
      exact fun heq ↦ hne (ofNat_fin_injective heq)
    · have hzero : (0 : Fin ndirect) ≠ plan.foundBlock := fun heq ↦ hfound heq.symm
      refine ⟨by rw [Function.update_of_ne hzero]; exact hfirst, other, hlt, ?_⟩
      have hstays := h.dirBlock_other hspace hzero (hkept 0 (hpnode ▸ hfirst))
      rw [hpnode] at hstays
      rwa [entryInum_congr (AgreeOn.slot (hstays.trans (hold 0 hfirst)) hlt)]
  case filled =>
    refine ⟨plan.foundBlock, slot, hslot.lt, ⟨hallocated, ?_⟩, ?_, fun hwritten ↦ ?_⟩
    · rw [hdirect, Function.update_self]
      exact hplace
    · rw [hfilled]
      exact ofNat_fin_ne_neg_one plan.inum
    · obtain ⟨-, hblockHigh⟩ := hlogged.block _ hwritten.2
      have hend : server.cr.endPos.toNat ≤ pos.toNat := hfreed.extend.end_le
      have hcontent := hslot.free_in_log (by omega)
        ((hblockHigh.trans hend).trans hfreed.space.end_le)
      have hcontent' := hcontent.trans (hold _ hwritten.2)
      rw [← entryInum_congr (AgreeOn.slot hcontent' hslot.lt), hslot.free]

/-- A call of `fsi_creat` returns -1, or takes a free slot of the parent. -/
theorem fsiCreat_cases {type : Word} {frame : CreatFrame} (hspace : Appendable server 12608)
    (hlogged : server.inodes dir ≠ -1 → InodeLogged server dir) (hother : HoldsOther server dir)
    (h : fsiCreat ((dir : ℕ) : ℤ) type name frame server = some (rc, next)) :
    rc = -1 ∨ rc = 0 ∧ Entered next server dir := by
  obtain ⟨probe, probed, hprobe, h⟩ := bind_eq_some h
  cases probe with
  | none =>
    cases h
    exact Or.inl rfl
  | some pair =>
    obtain ⟨pnode, found⟩ := pair
    obtain ⟨hdir, rfl, hprobed⟩ := creatProbe_cases (fun hi ↦ (hlogged hi).inodeIs hspace) hprobe
    obtain ⟨⟨⟩, freed, hreplace, h⟩ := bind_eq_some h
    rw [hprobed] at hreplace
    have hlogged' : InodeLogged (server.seek probed.offset) dir :=
      ⟨(hlogged hdir).node, (hlogged hdir).block⟩
    have hfreed := creatReplace_freed (hspace.seek probed.offset) hlogged' hother hdir hreplace
    obtain ⟨place, placed, hplace, h⟩ := bind_eq_some h
    have hplaced : placed = freed.seek placed.offset := readOnly_creatPlace _ _ _ _ _ _ hplace
    cases place with
    | none =>
      cases h
      exact Or.inl rfl
    | some plan =>
      obtain ⟨hpnode, hinum, slot, content, hslot, hentry⟩ := creatPlace_cases hplace
      have hne : plan.inum ≠ dir := fun heq ↦ hfreed.allocated (heq ▸ hinum)
      have hspace' : Appendable placed 8384 := hplaced ▸ hfreed.space.seek placed.offset
      obtain ⟨final, hfinal, hcommitted⟩ :=
        creatCommit_committed hspace' hne type frame.childDirBlock
      cases h.symm.trans hfinal
      have hfreed' : Freed freed server dir :=
        ⟨⟨hfreed.extend.agree, hfreed.extend.end_le⟩, hfreed.space, hfreed.end_high,
          hfreed.allocated⟩
      exact Or.inr ⟨rfl, hcommitted.entered (hlogged hdir) hother hdir hfreed' hpnode hinum hslot
        hentry hplaced⟩

/-- After a creation the parent does not show what it showed before. -/
theorem Entered.not_sameFiles {n m : ℕ} (h : Entered next server dir)
    (hspace : Appendable server n) (hnext : Appendable next m)
    (hlogged : server.inodes dir ≠ -1 → InodeLogged server dir) : ¬ SameFiles server next := by
  intro hsame
  obtain ⟨j, slot, hslot, hwritten, hfilled, hfree⟩ := h.filled
  have hbefore := (hsame.written dir j).mpr hwritten
  have hlogged' := hlogged hbefore.1
  obtain ⟨hnonneg, hfits⟩ := hlogged'.direct_fits hspace hbefore.2
  obtain ⟨hnonneg', hfits'⟩ := h.logged.direct_fits hnext hwritten.2
  obtain ⟨result, after, after', hread, hread'⟩ := hsame.read dir j hbefore junk junk junk
  obtain ⟨_, hold⟩ := fsiRead_written (hlogged'.inodeIs hspace) hnonneg junk junk
  obtain ⟨_, hnew⟩ := fsiRead_written (h.logged.inodeIs hnext) hnonneg' junk junk
  cases hread.symm.trans hold
  have hblock := (Prod.mk.inj (Prod.mk.inj (Option.some.inj (hread'.symm.trans hnew))).1).2
  have hentry : entryInum (server.dirBlock dir j) slot = entryInum (next.dirBlock dir j) slot := by
    rw [← entryInum_pread junk hfits hslot, ← entryInum_pread junk hfits' hslot]
    exact congrArg (entryInum · slot) hblock
  exact hfilled (hentry.symm.trans (hfree hbefore))

end OS537.LFS
