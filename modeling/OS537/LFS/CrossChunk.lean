import OS537.LFS.Runs

/-!
# Parent and child in different chunks

When the inode numbers of parent and child fall in different chunks of the inode map, `fsi_creat`
writes the parent's chunk in between, and the statement that should move `pos` past it has become
the body of the test for a failed write. The child's inode lands 64 bytes behind the position that
`inodes` gets, and the checkpoint entry of the child's chunk points at that inode. So no server
restarts after such a call, and sixteen creations lead to one.
-/

namespace OS537.LFS

open Bytes Code Posix Run

variable {server : Server}

theorem creatCommit_cross_run (hfull : AllFull server) (parent : Fin 4096)
    (childDirBlock : Store) (plan : CreatPlan) (hchunk : chunkOf parent ≠ chunkOf plan.inum) :
    creatCommit ((parent : ℕ) : ℤ) lfsRegularFile childDirBlock plan server =
      creatChild plan.inum (newInode lfsRegularFile) (server.cr.endPos + 4096 + 64)
        ((server.appendedEntry parent plan).appendedParentChunk parent
          (server.cr.endPos + 4096 + 64)) := by
  rw [creatCommit_eq hfull parent lfsRegularFile childDirBlock plan, if_neg (by decide),
    parentChunked_cross hchunk]

/-- A new inode read as a chunk of the inode map has no plausible position in it. -/
theorem newInode_words (type : Word) {j : ℕ} (hj : j < imapChunkSize) :
    (newInode type).words j = 0 ∨ (newInode type).words j = type ∨
      (newInode type).words j = -1 := by
  match j, hj with
  | 0, _ => exact Or.inl rfl
  | 1, _ => exact Or.inr (Or.inl rfl)
  | j + 2, hj =>
    have hlt : j < ndirect := Nat.lt_of_succ_lt_succ (Nat.lt_of_succ_lt_succ hj)
    exact Or.inr (Or.inr (dif_pos hlt))

/-- The checkpoint entries of a server that has taken the cross-chunk path address records inside
the image, though not all of them the right ones. -/
theorem loadable_cross {last : Server} {pos : Word} (h : Running server)
    (hlast : Logging server last (pos + 64 + 64)) (hroom : pos.toNat + 128 < 2 ^ 31)
    (parent inum : Fin 4096)
    (hcr : last.cr = server.cr.setChunk (chunkOf parent) pos) :
    Loadable (last.committed inum (pos + 64)).image := by
  have hpos : (pos + 64).toNat = pos.toNat + 64 := toNat_after_record _ (by omega)
  have hpos' : (pos + 64 + 64).toNat = pos.toNat + 64 + 64 := by
    rw [← hpos]
    exact toNat_after_record _ (by omega)
  have hsize : pos.toNat + 128 ≤ (last.committed inum (pos + 64)).image.size := by
    have hle := hlast.pos_le
    rw [hpos'] at hle
    exact hle.trans (le_max_of_le_left (le_max_left _ _))
  have hchunks : (last.committed inum (pos + 64)).cr.chunks =
      Function.update (Function.update server.cr.chunks (chunkOf parent) pos) (chunkOf inum)
        (pos + 64) := by
    rw [committed_cr, hcr]
    rfl
  constructor
  · exact le_max_right _ _
  · intro k
    unfold diskCheckpoint
    rw [committed_checkpoint, hchunks]
    by_cases hinum : k = chunkOf inum
    · rw [hinum, Function.update_self, hpos]
      exact Or.inr ⟨by omega, hsize⟩
    · rw [Function.update_of_ne hinum]
      by_cases hparent : k = chunkOf parent
      · rw [hparent, Function.update_self]
        exact Or.inr ⟨by omega, (Nat.add_le_add_left (by decide) _).trans hsize⟩
      · rw [Function.update_of_ne hparent]
        rcases h.synced.chunk k with hunused | hdisk
        · exact Or.inl hunused.chunk
        · have hhigh := hdisk.high
          have hstart := hlast.start_le
          exact Or.inr ⟨hdisk.nonneg, by omega⟩

/-- No server restarts after a file has been created in another chunk than its parent's. -/
theorem creatCommit_cross_not_restarts (h : Running server) (parent : Fin 4096)
    (childDirBlock : Store) (plan : CreatPlan) (hchunk : chunkOf parent ≠ chunkOf plan.inum)
    (hroom : server.cr.endPos.toNat + 4288 < 2 ^ 31) :
    ∃ final, creatCommit ((parent : ℕ) : ℤ) lfsRegularFile childDirBlock plan server =
      some (0, final) ∧ ¬ Restarts final := by
  let pos := server.cr.endPos + 4096 + 64
  let entry := server.appendedEntry parent plan
  let beside := entry.appendedParentChunk parent pos
  let last := beside.appendedChild plan.inum (newInode lfsRegularFile) pos
  have hpos : pos.toNat = server.cr.endPos.toNat + 4160 := toNat_after_inode _ (by omega)
  have hpos' : (pos + 64).toNat = pos.toNat + 64 := toNat_after_record _ (by omega)
  have hlow : crSize ≤ pos.toNat := by
    have hcr := h.synced.crSize_le
    omega
  have hentry : Logging server entry pos := appendedEntry_logging h parent plan (by omega)
  have hlisted : Logging server (entry.putChunk (chunkOf parent) pos) pos :=
    hentry.of_image rfl rfl rfl
  have hbeside : Logging server beside (pos + 64) := hlisted.wrote chunkSize _ hpos'
  have hlast : Logging server last (pos + 64 + 64) :=
    (hbeside.putInode plan.inum pos).wrote_inode _ (by omega)
  have hload : Loadable (last.committed plan.inum (pos + 64)).image :=
    loadable_cross h hlast (by omega) parent plan.inum rfl
  rw [creatCommit_cross_run h.full parent childDirBlock plan hchunk, creatChild_run hbeside.full]
  refine ⟨_, rfl, ?_⟩
  rw [restarts_iff hload]
  rintro ⟨-, hinodes⟩
  -- The checkpoint entry of the child's chunk points at the child's inode.
  have hchild : InodeAt (last.committed plan.inum (pos + 64)).image (pos.toNat + 64)
      (newInode lfsRegularFile) := by
    have hwrote : InodeAt last.image (pos.toNat + 64) (newInode lfsRegularFile) := by
      rw [← hpos', ← hbeside.offset_eq]
      exact holds_wrote inodeSize _
    apply holds_committed hwrote (by omega)
    rw [hlast.offset_eq, ← hpos']
    exact (toNat_after_record _ (by omega)).ge
  have hchunks : (diskCheckpoint (last.committed plan.inum (pos + 64)).image).chunks
      (chunkOf plan.inum) = pos + 64 := by
    unfold diskCheckpoint
    rw [committed_checkpoint, committed_cr]
    exact Function.update_self _ _ _
  have hne : pos + 64 ≠ -1 := ne_neg_one_of_toNat_lt (by omega)
  have hmod : (plan.inum : ℕ) % imapChunkSize < imapChunkSize := Nat.mod_lt _ (by decide)
  have hword : 4 * ((plan.inum : ℕ) % imapChunkSize) + 4 ≤ inodeSize := by
    simp only [imapChunkSize, inodeSize] at hmod ⊢
    omega
  have hdisk : diskInodes (last.committed plan.inum (pos + 64)).image plan.inum =
      (newInode lfsRegularFile).words (plan.inum % imapChunkSize) := by
    unfold diskInodes
    rw [hchunks, if_neg hne, hpos', hchild.load32_eq hword]
    exact load32_wordBytes _ _
  have hmemory : (last.committed plan.inum (pos + 64)).inodes plan.inum = pos :=
    Function.update_self _ _ _
  rw [hinodes] at hdisk
  have hwords := newInode_words lfsRegularFile hmod
  rw [← hdisk, hmemory] at hwords
  rcases hwords with hzero | hone | hminus
  · rw [hzero] at hlow
    simp at hlow
  · rw [hone] at hlow
    simp at hlow
  · exact ne_neg_one_of_toNat_lt (by omega) hminus

/-! ## Sixteen creations -/

/-- The inodes up to `n` are allocated, and the file ends where the log does. -/
structure Numbered (n : Fin 4096) (server : Server) : Prop where
  running : Running server
  allocated : ∀ i, server.inodes i = -1 ↔ n < i
  size_eq : server.image.size = server.cr.endPos.toNat
  end_eq : server.cr.endPos.toNat = 5252 + 4288 * n

theorem Numbered.seek {n : Fin 4096} (h : Numbered n server) (offset : ℕ) :
    Numbered n (server.seek offset) where
  running := h.running.seek _
  allocated := h.allocated
  size_eq := h.size_eq
  end_eq := h.end_eq

theorem Numbered.first_free {n : Fin 4096} (h : Numbered n server) (hn : (n : ℕ) + 1 < 4096) :
    Scan.first (inodeFree server.inodes) 4096 = some ((⟨n + 1, hn⟩ : Fin 4096) : ℕ) := by
  have hfree (i : ℕ) (hi : i < 4096) :
      inodeFree server.inodes i = decide (n < (⟨i, hi⟩ : Fin 4096)) := by
    unfold inodeFree
    rw [dif_pos hi, decide_eq_decide]
    exact h.allocated ⟨i, hi⟩
  rw [Scan.first_eq_some_iff]
  refine ⟨hn, ?_, fun j hj ↦ ?_⟩
  · rw [hfree _ hn, decide_eq_true_iff]
    exact Nat.lt_succ_self n
  · have hlt : j < (n : ℕ) + 1 := hj
    rw [hfree j (by omega), decide_eq_false_iff_not]
    exact Nat.not_lt.mpr (Nat.le_of_lt_succ hlt)

/-- `fsi_creat` of the next object reaches its first write. -/
def Ready (n : Fin 4096) (server : Server) : Prop :=
  ∀ hn : (n : ℕ) + 1 < 4096, ∃ plan next,
    (nestedCreat n).exec server =
      creatCommit ((n : ℕ) : ℤ) lfsRegularFile junk plan next ∧
    plan.inum = ⟨n + 1, hn⟩ ∧ Numbered n next

/-- A file without blocks at the end of the log: as parent it is not searched, and the block that
is read for it is what stands behind its inode. -/
structure LastFile (n : Fin 4096) (server : Server) : Prop extends Numbered n server where
  node : InodeAt server.image (server.inodes n).toNat (newInode lfsRegularFile)
  last : (server.inodes n).toNat + 128 = server.cr.endPos.toNat
  nonneg : (server.inodes n).toNat < 2 ^ 31

theorem LastFile.ready {n : Fin 4096} (h : LastFile n server) : Ready n server := by
  intro hn
  let sought := server.seek ((server.inodes n).toNat + inodeSize)
  have hsought : Numbered n sought := h.toNumbered.seek _
  have hprobe : creatProbe ((n : ℕ) : ℤ) dot junkFrame server =
      some (some (newInode lfsRegularFile, -1), sought) := by
    have hnode : InodeIs server n (newInode lfsRegularFile) := .of_inodeAt h.nonneg h.node
    apply creatProbe_run hnode dot_fits
    exact fsiLookup_not_directory dot _ (hnode.seek _) (by decide)
  -- `direct[0]` is -1, so `lseek` fails and the 64 bytes up to the end of the file are read.
  let found := server.image.pread ((server.inodes n).toNat + inodeSize) lfsBlockSize junk
  have hcount : server.image.available ((server.inodes n).toNat + inodeSize) lfsBlockSize = 64 := by
    have hlast := h.last
    unfold File.available
    rw [h.size_eq, ← hlast]
    simp only [inodeSize, lfsBlockSize]
    omega
  have hblock : getBlock (newInode lfsRegularFile) junk (0 : ℕ) sought =
      some ((64, found), sought.seek ((server.inodes n).toNat + inodeSize + 64)) := by
    have hstart : origin sought.offset ((newInode lfsRegularFile).direct 0) =
        (server.inodes n).toNat + inodeSize := if_pos (by decide)
    have hread := getBlock_eq junk hstart
    have himage : sought.image = server.image := rfl
    rw [himage, hcount] at hread
    exact hread
  have hfree : entryInum found 2 = -1 := by
    have hjunk : entryInum found 2 = entryInum junk 2 := by
      apply entryInum_congr
      apply agreeOn_splice
      rw [hcount]
      exact Or.inr le_rfl
    rw [hjunk]
    decide
  have hhit : ∃ slot, Scan.first (fun i ↦ entryInum found i = -1) dirEntries = some slot ∧
      slot ≤ 2 := by
    apply Scan.exists_first_of_hit (by decide)
    rw [hfree]
    rfl
  obtain ⟨slot, hslot, -⟩ := hhit
  have hplace := creatPlace_found dot (hsought.first_free hn) hblock (by decide) hslot
  have hcommit := fsiCreat_eq_commit lfsRegularFile hprobe (by decide) hplace
  exact ⟨_, _, hcommit, rfl, hsought.seek _⟩

/-- The object created is the last file of the new state. -/
theorem Numbered.lastFile {n : Fin 4096} (h : Numbered n server) (hn : (n : ℕ) + 1 < imapChunkSize)
    (plan : CreatPlan) (hinum : (plan.inum : ℕ) = n + 1) :
    ∃ next, creatCommit ((n : ℕ) : ℤ) lfsRegularFile junk plan server = some (0, next) ∧
      LastFile plan.inum next := by
  let pos := server.cr.endPos + 4096 + 64
  let entry := server.appendedEntry n plan
  let last := entry.appendedChild plan.inum (newInode lfsRegularFile) pos
  have hend := h.end_eq
  simp only [imapChunkSize] at hn
  have hchunk : chunkOf n = chunkOf plan.inum := by
    apply Fin.ext
    change (n : ℕ) / 16 = plan.inum / 16
    omega
  have hpos : pos.toNat = server.cr.endPos.toNat + 4160 := toNat_after_inode _ (by omega)
  have hpos' : (pos + 64).toNat = pos.toNat + 64 := toNat_after_record _ (by omega)
  have hentry : Logging server entry pos := appendedEntry_logging h.running n plan (by omega)
  have hlast : Logging server last (pos + 64) :=
    (hentry.putInode plan.inum pos).wrote_inode _ (by omega)
  have hinodes : (last.committed plan.inum (pos + 64)).inodes plan.inum = pos :=
    Function.update_self _ _ _
  rw [creatCommit_run h.running.full n lfsRegularFile junk plan hchunk, if_neg (by decide),
    creatChild_run hentry.full]
  have hfinal : (last.committed plan.inum (pos + 64)).cr.endPos.toNat =
      server.cr.endPos.toNat + 4288 := by
    have hclosed : (pos + 64 + 64).toNat = (pos + 64).toNat + 64 :=
      toNat_after_record _ (by omega)
    rw [committed_cr]
    change (pos + 64 + 64).toNat = _
    omega
  refine ⟨_, rfl, ⟨?_, ?_, ?_, ?_⟩, ?_, ?_, ?_⟩
  · apply creatChild_running h.running hentry rfl plan.inum _ (by omega)
    intro i hi
    apply update_of_chunk_ne
    rwa [hchunk]
  · intro i
    change Function.update (Function.update server.inodes n (server.cr.endPos + 4096)) plan.inum pos
      i = -1 ↔ plan.inum < i
    by_cases hi : i = plan.inum
    · rw [hi, Function.update_self]
      exact iff_of_false (ne_neg_one_of_toNat_lt (by omega)) (lt_irrefl _)
    · rw [Function.update_of_ne hi]
      have hval : (i : ℕ) ≠ plan.inum := fun heq ↦ hi (Fin.ext heq)
      by_cases hparent : i = n
      · have hne : server.cr.endPos + 4096 ≠ -1 := by
          apply ne_neg_one_of_toNat_lt
          rw [toNat_after_block _ (by omega)]
          omega
        rw [hparent, Function.update_self, Fin.lt_def]
        exact iff_of_false hne (by omega)
      · have hval' : (i : ℕ) ≠ n := fun heq ↦ hparent (Fin.ext heq)
        rw [Function.update_of_ne hparent, h.allocated i, Fin.lt_def, Fin.lt_def]
        omega
  · have hsize : (last.committed plan.inum (pos + 64)).image.size =
        max (max (max (max (max server.image.size (server.cr.endPos.toNat + 4096))
          (server.cr.endPos.toNat + 4096 + 64)) (server.cr.endPos.toNat + 4096 + 64 + 64))
          (server.cr.endPos.toNat + 4096 + 64 + 64 + 64)) (0 + 1028) := rfl
    have hcr := h.running.synced.crSize_le
    rw [hsize, hfinal, h.size_eq]
    omega
  · rw [hfinal, hinum, hend]
    omega
  · rw [hinodes]
    have hwrote : InodeAt last.image pos.toNat (newInode lfsRegularFile) := by
      rw [← hentry.offset_eq]
      exact holds_wrote inodeSize _
    apply holds_committed hwrote
    · simp only [crSize]
      omega
    · rw [hlast.offset_eq, hpos']
  · rw [hinodes, hfinal, hpos]
  · rw [hinodes, hpos]
    omega

theorem built_numbered : Numbered 0
    ((freshServer.built junk).committed 0 (0 + 4096 + 64 + 1028)) where
  running := by
    obtain ⟨start, hstart, hrunning⟩ := fsiBuild_running freshServer_full junk
    rw [fsiBuild_run freshServer_full] at hstart
    cases hstart
    exact hrunning
  allocated := by
    intro i
    change (if i = 0 then (0 + 4096 + 1028 : Word) else -1) = -1 ↔ 0 < i
    by_cases hi : i = 0
    · rw [if_pos hi, hi]
      decide
    · rw [if_neg hi]
      exact iff_of_true rfl (Fin.pos_iff_ne_zero.mpr hi)
  size_eq := rfl
  end_eq := rfl

theorem built_ready : Ready 0
    ((freshServer.built junk).committed 0 (0 + 4096 + 64 + 1028)) := by
  intro hn
  let start := (freshServer.built junk).committed 0 (0 + 4096 + 64 + 1028)
  let probed := start.seek ((rootInode.direct 0).toNat + lfsBlockSize)
  have hprobed : Numbered 0 probed := built_numbered.seek _
  have hfree : Scan.first (fun i ↦ entryInum (rootBlock junk) i = -1) dirEntries = some 2 := by
    rw [Scan.first_eq_some_iff]
    refine ⟨by decide, ?_, fun j hj ↦ ?_⟩
    · rw [entryInum_rootBlock_free junk le_rfl (by decide)]
      rfl
    · rw [entryInum_rootBlock_dots junk hj]
      rfl
  have hroot : BlockAt probed.image (rootInode.direct 0).toNat (rootBlock junk) :=
    built_rootBlock junk _
  obtain ⟨found, hblock, hfound⟩ := getBlock_run junk (by decide) hroot
  rw [← first_free_congr hfound] at hfree
  have hplace := creatPlace_found dot (hprobed.first_free hn) hblock (by decide) hfree
  have hcommit := fsiCreat_eq_commit lfsRegularFile built_probe (by decide) hplace
  exact ⟨_, _, hcommit, rfl, hprobed.seek _⟩

def nestedCreats (n : ℕ) : List Call := (List.range n).map fun i ↦ nestedCreat (Fin.ofNat 4096 i)

theorem nestedCreats_succ {n : ℕ} (hn : n < 4096) :
    nestedCreats (n + 1) = nestedCreats n ++ [nestedCreat ⟨n, hn⟩] := by
  have hcast : Fin.ofNat 4096 n = ⟨n, hn⟩ := Fin.ext (Nat.mod_eq_of_lt hn)
  unfold nestedCreats
  rw [List.range_succ, List.map_append, List.map_singleton, hcast]

/-- Up to the last inode of the first chunk every creation succeeds. -/
theorem nestedCreats_ready {n : ℕ} (hn : n < imapChunkSize) :
    ∃ state, run Call.step ((freshServer.built junk).committed 0 (0 + 4096 + 64 + 1028))
      (nestedCreats n) = some state ∧ Ready ⟨n, hn.trans (by decide)⟩ state := by
  induction n with
  | zero => exact ⟨_, rfl, built_ready⟩
  | succ n ih =>
    have hlt : n < 4096 := by
      simp only [imapChunkSize] at hn
      omega
    obtain ⟨state, hstate, hready⟩ := ih (by omega)
    obtain ⟨plan, middle, hexec, hinum, hmiddle⟩ := hready (hn.trans (by decide))
    obtain ⟨next, hcommit, hlast⟩ := hmiddle.lastFile hn plan (congrArg Fin.val hinum)
    have hstep : (nestedCreat ⟨n, hlt⟩).step state = some next := by
      unfold Call.step
      rw [hexec, hcommit, Option.map_some]
    refine ⟨next, ?_, ?_⟩
    · rw [nestedCreats_succ hlt, run_append, hstate, Option.bind_some, run_cons_of_step [] hstep,
        run_nil]
    · rw [hinum] at hlast
      exact hlast.ready

/-- After the sixteenth creation, `fsi_init` does not load the memory of the server. -/
theorem sixteen_creations_not_restart :
    AllFull freshServer ∧ ∃ start final, fsiBuild junk freshServer = some ((), start) ∧
      run Call.step start (nestedCreats 16) = some final ∧ ¬ Restarts final := by
  obtain ⟨state, hstate, hready⟩ := nestedCreats_ready (n := 15) (by decide)
  obtain ⟨plan, middle, hexec, hinum, hmiddle⟩ := hready (by decide)
  have hchunk : chunkOf ⟨15, by decide⟩ ≠ chunkOf plan.inum := by
    rw [hinum]
    decide
  have hroom : middle.cr.endPos.toNat + 4288 < 2 ^ 31 := by
    rw [hmiddle.end_eq]
    decide
  obtain ⟨final, hcommit, hfinal⟩ := creatCommit_cross_not_restarts hmiddle.running
    ⟨15, by decide⟩ junk plan hchunk hroom
  have hstep : (nestedCreat ⟨15, by decide⟩).step state = some final := by
    unfold Call.step
    rw [hexec, hcommit, Option.map_some]
  refine ⟨freshServer_full, _, final, fsiBuild_run freshServer_full junk, ?_, hfinal⟩
  rw [nestedCreats_succ (n := 15) (by decide), run_append, hstate, Option.bind_some,
    run_cons_of_step [] hstep, run_nil]

end OS537.LFS
