import OS537.LFS.Commit
import OS537.LFS.Directory

/-!
# Records in the log

The inode and block records that the operations append, and what `get_inode` and `get_block` read
back. A record of the log is never overwritten: later appends start behind it, and the checkpoint
region lies before it.
-/

namespace OS537.LFS

open Bytes Code Posix

variable {server : Server}

/-! ## Reading a record -/

/-- The record of `n` bytes at `pos` lies behind the checkpoint region and before the end of the
log. -/
def InLog (server : Server) (pos : Word) (n : ℕ) : Prop :=
  crSize ≤ pos.toNat ∧ pos.toNat + n ≤ server.cr.endPos.toNat

/-- The inode record of `i` on disk. -/
def Server.inodeRecord (server : Server) (i : Fin 4096) : Inode :=
  Inode.ofBytes server.image.bytes (server.inodes i).toNat

/-- An inode record at a position of the log. -/
abbrev InodeAt (image : File) (pos : ℕ) (node : Inode) : Prop :=
  image.Holds pos inodeSize node.toBytes

/-- A block at a position of the log. -/
abbrev BlockAt (image : File) (pos : ℕ) (block : Store) : Prop :=
  image.Holds pos lfsBlockSize block

theorem InodeAt.ofBytes_eq {image : File} {pos : ℕ} {node : Inode} (h : InodeAt image pos node) :
    Inode.ofBytes image.bytes pos = node := by
  calc
    Inode.ofBytes image.bytes pos = Inode.ofBytes node.toBytes 0 := by
      apply Inode.ofBytes_congr
      intro i hi
      rw [h.bytes i hi, Nat.zero_add]
    _ = node := node.ofBytes_toBytes

/-- `get_inode` reads whatever record stands at the position of the inode. -/
theorem getInode_fits {inum : Fin 4096} (buffer : Store)
    (hnonneg : (server.inodes inum).toNat < 2 ^ 31)
    (hfits : (server.inodes inum).toNat + inodeSize ≤ server.image.size) :
    getInode ((inum : ℕ) : ℤ) buffer server =
      some (((inodeSize : ℤ), Inode.ofBytes server.image.bytes (server.inodes inum).toNat),
        server.seek ((server.inodes inum).toNat + inodeSize)) := by
  have hcount : server.image.available (server.inodes inum).toNat inodeSize = inodeSize :=
    server.image.available_eq_of_le hfits
  have hread : Inode.ofBytes (server.image.pread (server.inodes inum).toNat inodeSize buffer) 0 =
      Inode.ofBytes server.image.bytes (server.inodes inum).toNat := by
    apply Inode.ofBytes_congr
    intro i hi
    rw [Nat.zero_add]
    exact server.image.pread_apply_of_le buffer hfits hi
  unfold getInode
  rw [bind_run (index_natCast_run inum), bind_run get_run,
    if_neg (ne_neg_one_of_toNat_lt hnonneg), toInt_eq_toNat hnonneg, bind_run (lseek_run _),
    bind_run rfl]
  dsimp only [Server.seek, pure_run]
  rw [hread, hcount]

/-- `get_inode` of the inode reads `node`. -/
structure InodeIs (server : Server) (inum : Fin 4096) (node : Inode) : Prop where
  nonneg : (server.inodes inum).toNat < 2 ^ 31
  fits : (server.inodes inum).toNat + inodeSize ≤ server.image.size
  record : server.inodeRecord inum = node

theorem InodeIs.of_inodeAt {inum : Fin 4096} {node : Inode}
    (hnonneg : (server.inodes inum).toNat < 2 ^ 31)
    (hnode : InodeAt server.image (server.inodes inum).toNat node) : InodeIs server inum node :=
  ⟨hnonneg, hnode.fits, hnode.ofBytes_eq⟩

theorem InodeIs.seek {inum : Fin 4096} {node : Inode} (h : InodeIs server inum node)
    (offset : ℕ) : InodeIs (server.seek offset) inum node :=
  ⟨h.nonneg, h.fits, h.record⟩

theorem getInode_run {inum : Fin 4096} {node : Inode} (buffer : Store)
    (h : InodeIs server inum node) :
    getInode ((inum : ℕ) : ℤ) buffer server =
      some (((inodeSize : ℤ), node), server.seek ((server.inodes inum).toNat + inodeSize)) := by
  rw [getInode_fits buffer h.nonneg h.fits, ← h.record]
  rfl

/-- An inode number that is not allocated. -/
theorem getInode_unallocated {inum : Fin 4096} (buffer : Store) (h : server.inodes inum = -1) :
    getInode ((inum : ℕ) : ℤ) buffer server = some ((-1, Inode.ofBytes buffer 0), server) := by
  unfold getInode
  rw [bind_run (index_natCast_run inum), bind_run get_run, if_pos h]
  rfl

/-- Where `get_block` reads from: an address below 0 is not sought. -/
def origin (offset : ℕ) (pos : Word) : ℕ := if pos.toInt < 0 then offset else pos.toNat

theorem origin_of_lt {pos : Word} (h : pos.toNat < 2 ^ 31) (offset : ℕ) :
    origin offset pos = pos.toNat := by
  rw [origin, if_neg]
  rw [toInt_eq_toNat h]
  omega

theorem getBlock_eq {node : Inode} (buffer : Store) {block : Fin ndirect} {start : ℕ}
    (hstart : origin server.offset (node.direct block) = start) :
    getBlock node buffer ((block : ℕ) : ℤ) server =
      some (((server.image.available start lfsBlockSize : ℤ),
          server.image.pread start lfsBlockSize buffer),
        server.seek (start + server.image.available start lfsBlockSize)) := by
  have hindex : ¬ ((block : ℕ) : ℤ) > 13 := by
    have hlt : (block : ℕ) < 14 := block.isLt
    omega
  have hseek : lseek (node.direct block).toInt server =
      some ((), server.seek start) := by
    rw [← hstart, origin]
    by_cases hnegative : (node.direct block).toInt < 0
    · rw [if_pos hnegative, lseek_negative_run hnegative]
      rfl
    · have hnat : (node.direct block).toInt = ((node.direct block).toNat : ℤ) := by
        apply toInt_eq_toNat
        rw [BitVec.toInt_eq_toNat_cond] at hnegative
        have hword := (node.direct block).isLt
        split at hnegative <;> omega
      rw [if_neg hnegative, hnat]
      exact lseek_run _
  unfold getBlock
  rw [if_neg hindex, bind_run (index_natCast_run block), bind_run hseek]
  rfl

/-- `get_block` reads whatever block stands at the position the inode gives. -/
theorem getBlock_fits {node : Inode} {block : Fin ndirect} (buffer : Store)
    (hnonneg : (node.direct block).toNat < 2 ^ 31)
    (hfits : (node.direct block).toNat + lfsBlockSize ≤ server.image.size) :
    getBlock node buffer ((block : ℕ) : ℤ) server =
      some (((lfsBlockSize : ℤ),
          server.image.pread (node.direct block).toNat lfsBlockSize buffer),
        server.seek ((node.direct block).toNat + lfsBlockSize)) := by
  rw [getBlock_eq buffer (origin_of_lt hnonneg _), server.image.available_eq_of_le hfits]

theorem getBlock_run {node : Inode} {block : Fin ndirect} {content : Store} (buffer : Store)
    (hnonneg : (node.direct block).toNat < 2 ^ 31)
    (hblock : BlockAt server.image (node.direct block).toNat content) :
    ∃ read, getBlock node buffer ((block : ℕ) : ℤ) server =
        some (((lfsBlockSize : ℤ), read),
          server.seek ((node.direct block).toNat + lfsBlockSize)) ∧
      AgreeOn read content 0 lfsBlockSize :=
  ⟨_, getBlock_fits buffer hnonneg hblock.fits, hblock.pread buffer⟩

/-! ## Searches that end in the block they are at -/

section Search

variable {node : Inode} {name : CString} {buffer found : Store} {fuel block slot : ℕ} {rc : ℤ}
  {next : Server}

theorem lookupBlocks_found
    (hblock : getBlock node buffer block server = some ((rc, found), next)) (hrc : rc ≠ -1)
    (hslot : Scan.first (entryNamed found name) dirEntries = some slot) :
    lookupBlocks node name (fuel + 1) block buffer server =
      some ((entryInum found slot).toInt, next) := by
  rw [lookupBlocks, bind_run hblock]
  dsimp only
  rw [if_neg hrc, hslot]
  rfl

theorem unlinkBlocks_found
    (hblock : getBlock node buffer block server = some ((rc, found), next)) (hrc : rc ≠ -1)
    (hslot : Scan.first (entryNamed found name) dirEntries = some slot) :
    unlinkBlocks node name (fuel + 1) block buffer server =
      some (some (setEntryInum found slot (-1), some (block, slot)), next) := by
  rw [unlinkBlocks, bind_run hblock]
  dsimp only
  rw [if_neg hrc, hslot]
  rfl

theorem creatBlocks_found {inum : Word}
    (hblock : getBlock node buffer block server = some ((rc, found), next)) (hrc : rc ≠ -1)
    (hslot : Scan.first (fun i ↦ entryInum found i = -1) dirEntries = some slot) :
    creatBlocks node name inum (fuel + 1) block buffer server =
      some (some (setEntry found slot name inum, block), next) := by
  rw [creatBlocks, bind_run hblock]
  dsimp only
  rw [if_neg hrc, hslot]
  rfl

variable (name) in
/-- `fsi_creat` takes the first free inode and the first free slot of the first block. -/
theorem creatPlace_found {inum : Fin 4096}
    (hinum : Scan.first (inodeFree server.inodes) 4096 = some (inum : ℕ))
    (hblock : getBlock node buffer (0 : ℕ) server = some ((rc, found), next)) (hrc : rc ≠ -1)
    (hslot : Scan.first (fun i ↦ entryInum found i = -1) dirEntries = some slot) :
    creatPlace node name buffer server =
      some (some ⟨node, inum, setEntry found slot name (BitVec.ofNat 32 inum), 0⟩, next) := by
  have hsearch : creatBlocks node name (BitVec.ofNat 32 inum) ndirect 0 buffer server =
      some (some (setEntry found slot name (BitVec.ofNat 32 inum), 0), next) :=
    creatBlocks_found hblock hrc hslot
  unfold creatPlace
  rw [bind_run get_run, hinum]
  dsimp only
  rw [bind_run (index_natCast_run inum), bind_run hsearch]
  rfl

theorem creatProbe_run {inum : Fin 4096} {frame : CreatFrame}
    (hnode : InodeIs server inum node) (hname : name.Fits)
    (hlookup : fsiLookup ((inum : ℕ) : ℤ) name frame.lookup
      (server.seek ((server.inodes inum).toNat + inodeSize)) = some (rc, next)) :
    creatProbe ((inum : ℕ) : ℤ) name frame server = some (some (node, rc), next) := by
  unfold creatProbe
  rw [bind_run (getInode_run frame.pnode hnode)]
  dsimp only
  rw [if_neg (by decide), if_neg (not_lt.mpr hname), bind_run hlookup]
  rfl

theorem creatReplace_absent {pinum present : ℤ} {frame : UnlinkFrame} (h : ¬ present > 0) :
    creatReplace pinum name frame present server = some ((), server) := by
  unfold creatReplace
  rw [if_neg h]
  rfl

section Creat

variable {pinum present : ℤ} (type : Word) {frame : CreatFrame} {plan : CreatPlan} {pnode : Inode}
  {probed replaced : Server}
  (hprobe : creatProbe pinum name frame server = some (some (pnode, present), probed))

include hprobe

/-- `fsi_creat` around its search for a place. -/
theorem fsiCreat_eq {place : Option CreatPlan}
    (hreplace : creatReplace pinum name frame.unlink present probed = some ((), replaced))
    (hplace : creatPlace pnode name frame.dirBlock replaced = some (place, next)) :
    fsiCreat pinum type name frame server = match place with
      | none => some (-1, next)
      | some plan => creatCommit pinum type frame.childDirBlock plan next := by
  unfold fsiCreat
  rw [bind_run hprobe]
  dsimp only
  rw [bind_run hreplace, bind_run hplace]
  cases place with
  | none => rfl
  | some plan => rfl

theorem fsiCreat_eq_commit (hpresent : ¬ present > 0)
    (hplace : creatPlace pnode name frame.dirBlock probed = some (some plan, next)) :
    fsiCreat pinum type name frame server =
      creatCommit pinum type frame.childDirBlock plan next :=
  fsiCreat_eq type hprobe (creatReplace_absent hpresent) hplace

/-- A creation of an absent name that finds no place for it. -/
theorem fsiCreat_eq_refused (hpresent : ¬ present > 0)
    (hplace : creatPlace pnode name frame.dirBlock probed = some (none, next)) :
    fsiCreat pinum type name frame server = some (-1, next) :=
  fsiCreat_eq type hprobe (creatReplace_absent hpresent) hplace

end Creat

end Search

/-! ## Looking a name up -/

theorem fsiLookup_not_directory {inum : Fin 4096} {node : Inode} (name : CString)
    (frame : LookupFrame) (hnode : InodeIs server inum node)
    (htype : node.type ≠ lfsDirectory) :
    fsiLookup ((inum : ℕ) : ℤ) name frame server =
      some (-1, server.seek ((server.inodes inum).toNat + inodeSize)) := by
  unfold fsiLookup
  rw [bind_run (getInode_run frame.node hnode)]
  dsimp only
  rw [if_neg (by decide), if_pos htype]
  rfl

/-- A name that stands in the first block of a directory. -/
theorem fsiLookup_first_block {inum : Fin 4096} {node : Inode} {content : Store} {slot : ℕ}
    {name : CString} (frame : LookupFrame) (hnode : InodeIs server inum node)
    (htype : node.type = lfsDirectory) (hpos : (node.direct 0).toNat < 2 ^ 31)
    (hcontent : BlockAt server.image (node.direct 0).toNat content) (hname : name.Fits)
    (hslot : Scan.first (entryNamed content name) dirEntries = some slot) :
    fsiLookup ((inum : ℕ) : ℤ) name frame server =
      some ((entryInum content slot).toInt,
        server.seek ((node.direct 0).toNat + lfsBlockSize)) := by
  have hcontent' : BlockAt (server.seek ((server.inodes inum).toNat + inodeSize)).image
      (node.direct 0).toNat content := hcontent
  obtain ⟨found, hblock, hfound⟩ := getBlock_run frame.dirBlock hpos hcontent'
  have hslot' : Scan.first (entryNamed found name) dirEntries = some slot := by
    rw [first_entryNamed_congr hfound hname, hslot]
  have hlt : slot < dirEntries := (Scan.first_eq_some_iff.mp hslot).1
  unfold fsiLookup
  rw [bind_run (getInode_run frame.node hnode)]
  dsimp only
  rw [if_neg (by decide), if_neg (not_not.mpr htype),
    ← entryInum_congr (AgreeOn.slot hfound hlt)]
  exact lookupBlocks_found hblock (by decide) hslot'

/-! ## Keeping a record -/

theorem holds_wrote (n : ℕ) (buffer : Store) :
    (server.wrote n buffer).image.Holds server.offset n buffer :=
  server.image.holds_pwrite server.offset n buffer

/-- A record that ends before the file offset survives the next append. -/
theorem holds_wrote_of_holds {pos n : ℕ} {source : Store} (h : server.image.Holds pos n source)
    (hle : pos + n ≤ server.offset) (m : ℕ) (buffer : Store) :
    (server.wrote m buffer).image.Holds pos n source :=
  h.pwrite buffer (Or.inl hle)

/-- A record between the checkpoint region and the file offset survives the commit. -/
theorem holds_committed {pos n : ℕ} {source : Store} (h : server.image.Holds pos n source)
    (hlow : crSize ≤ pos) (hle : pos + n ≤ server.offset) (inum : Fin 4096) (place : Word) :
    (server.committed inum place).image.Holds pos n source := by
  apply File.Holds.pwrite
  · exact h.pwrite (chunkBytes server.inodes (chunkOf inum)) (Or.inl hle)
  · exact Or.inr ((Nat.zero_add _).le.trans hlow)

/-! ## The first records of an image -/

theorem built_rootInode (dirBlock : Store) (place : Word) :
    InodeAt ((server.built dirBlock).committed 0 place).image 5124 rootInode := by
  apply holds_committed
  · exact holds_wrote inodeSize rootInode.toBytes
  · decide
  · exact le_rfl

theorem built_rootBlock (dirBlock : Store) (place : Word) :
    BlockAt ((server.built dirBlock).committed 0 place).image crSize (rootBlock dirBlock) := by
  have hblock : BlockAt ((server.seek crSize).wrote lfsBlockSize (rootBlock dirBlock)).image crSize
      (rootBlock dirBlock) := holds_wrote lfsBlockSize (rootBlock dirBlock)
  apply holds_committed
  · exact holds_wrote_of_holds hblock le_rfl inodeSize rootInode.toBytes
  · exact le_rfl
  · exact Nat.le_add_right _ 64

/-- A directory that does not pass the test for emptiness is not removed. -/
theorem unlinkSearch_refused {pinum cinum rc count : ℤ} {name : CString} {frame : UnlinkFrame}
    {pnode cnode : Inode} {server probed looked seen : Server} (hrc : 0 ≤ rc)
    (hparent : getInode pinum frame.pnode server = some ((rc, pnode), probed))
    (hlookup : fsiLookup pinum name frame.lookup probed = some (cinum, looked)) (hfound : 0 ≤ cinum)
    (hchild : getInode cinum frame.cnode looked = some ((count, cnode), seen))
    (htype : cnode.type = lfsDirectory)
    (hfull : cnode.size.toInt ≤ 4096 → ∃ result last,
      getBlock cnode frame.cdirBlocks 0 seen = some (result, last) ∧
        onlySelfAndParent result.2 cinum pinum = false) :
    ∃ offset, unlinkSearch pinum name frame server = some (.inl (-1), server.seek offset) := by
  obtain ⟨last, hsearch⟩ : ∃ last,
      unlinkSearch pinum name frame server = some (.inl (-1), last) := by
    unfold unlinkSearch
    rw [bind_run hparent]
    dsimp only
    rw [if_neg (by omega), bind_run hlookup, if_neg (by omega), bind_run hchild]
    dsimp only
    rw [if_pos htype]
    by_cases hsize : cnode.size.toInt > 4096
    · rw [if_pos hsize]
      exact ⟨_, rfl⟩
    · obtain ⟨result, last, hblock, hlive⟩ := hfull (not_lt.mp hsize)
      rw [if_neg hsize, bind_run hblock, hlive]
      exact ⟨_, rfl⟩
  have hlast : last = server.seek last.offset := readOnly_unlinkSearch _ _ _ _ _ _ hsearch
  rw [hlast] at hsearch
  exact ⟨_, hsearch⟩

end OS537.LFS
