import OS537.LFS.Usable

/-!
# Files created in runs

The statement about a new file for whole runs on a new image, and a run that fills the first chunk
of the inode map with files of the root, so that the next one is in another chunk.
-/

namespace OS537.LFS

open Bytes Code Posix Run

variable {server : Server}

/-! ## Files in the root -/

/-- A name of one character for every slot. -/
def fileName (k : ℕ) : CString where
  chars := [BitVec.ofNat 8 (97 + k % dirEntries)]
  no_nul := by
    have hlt : k % dirEntries < 128 := Nat.mod_lt k (by decide)
    intro char hchar heq
    rw [List.mem_singleton.mp hchar] at heq
    have hvalue := congrArg BitVec.toNat heq
    rw [BitVec.toNat_ofNat] at hvalue
    change (97 + k % dirEntries) % 256 = 0 at hvalue
    omega

/-- A stack in which the slots have these names from the start. A lookup then ends at a free slot
and gets to no block that is not allocated. -/
def fileNames : Store := fun i ↦
  if i % dirEntSize = 0 then BitVec.ofNat 8 (97 + i / dirEntSize % dirEntries) else 0

theorem fileName_fits (k : ℕ) : (fileName k).Fits := by
  change 1 ≤ 27
  decide

theorem fileName_ne_dot (k : ℕ) : fileName k ≠ dot ∧ fileName k ≠ dotDot := by
  have hlt : k % dirEntries < 128 := Nat.mod_lt k (by decide)
  have hhead (name : CString) (hdot : name.chars.head? = some 46) : fileName k ≠ name := by
    rintro rfl
    have hchar : BitVec.ofNat 8 (97 + k % dirEntries) = 46 := Option.some.inj hdot
    have hvalue := congrArg BitVec.toNat hchar
    rw [BitVec.toNat_ofNat] at hvalue
    change (97 + k % dirEntries) % 256 = 46 at hvalue
    omega
  exact ⟨hhead dot rfl, hhead dotDot rfl⟩

theorem entryNamed_fileNames {m k : ℕ} (hm : m < dirEntries) (hk : k < dirEntries) :
    entryNamed fileNames (fileName m) k = true ↔ k = m := by
  have hfirst : fileNames (dirEntSize * k) = BitVec.ofNat 8 (97 + k) := by
    unfold fileNames
    rw [if_pos (Nat.mul_mod_right _ _), Nat.mul_div_cancel_left _ (by decide), Nat.mod_eq_of_lt hk]
  have hsecond : fileNames (dirEntSize * k + 1) = 0 := by
    unfold fileNames
    rw [if_neg]
    simp only [dirEntSize]
    omega
  have hchars : (fileName m).chars = [BitVec.ofNat 8 (97 + m)] := by
    change [BitVec.ofNat 8 (97 + m % dirEntries)] = _
    rw [Nat.mod_eq_of_lt hm]
  simp only [dirEntries] at hm hk
  unfold entryNamed
  rw [hchars, strcmpEq, strcmpEq, hfirst, hsecond, Bool.and_eq_true, beq_iff_eq]
  constructor
  · rintro ⟨heq, -⟩
    have hvalue := congrArg BitVec.toNat heq
    rw [BitVec.toNat_ofNat, BitVec.toNat_ofNat] at hvalue
    omega
  · intro heq
    rw [heq]
    exact ⟨rfl, rfl⟩

theorem fileName_eq_iff {m k : ℕ} (hm : m < dirEntries) (hk : k < dirEntries) :
    fileName m = fileName k ↔ k = m := by
  constructor
  · intro heq
    have hnamed := (entryNamed_fileNames hk hk).mpr rfl
    rw [← heq] at hnamed
    exact (entryNamed_fileNames hm hk).mp hnamed
  · intro heq
    rw [heq]

/-- The root holds the files 1 to `n`, in the slots from 2 on. -/
structure Filled (n : ℕ) (server : Server) : Prop where
  flat : Flat server
  directory : IsDirectory server 0
  allocated : ∀ i : Fin 4096, server.inodes i = -1 ↔ n < i
  entries : ∀ k < dirEntries, entryInum (server.dirBlock 0 0) k = -1 ↔ n + 1 < k
  names : ∀ m, 2 ≤ m → m < dirEntries → ∀ k < dirEntries,
    entryNamed (server.dirBlock 0 0) (fileName m) k = true ↔ k = m
  end_le : server.cr.endPos.toNat ≤ 5252 + 8384 * n

theorem start_filled : Filled 0 (freshServer.start fileNames) where
  flat := start_flat freshServer_full fileNames
  directory := (start_root freshServer fileNames).directory
  allocated := by
    intro i
    change (if i = 0 then (0 + 4096 + 1028 : Word) else -1) = -1 ↔ 0 < (i : ℕ)
    by_cases hi : i = 0
    · rw [if_pos hi, hi]
      decide
    · rw [if_neg hi]
      exact iff_of_true rfl (Nat.pos_of_ne_zero fun hzero ↦ hi (Fin.ext hzero))
  entries := by
    intro k hk
    rw [(start_root freshServer fileNames).entryInum_eq hk]
    by_cases hlow : k < 2
    · rw [entryInum_rootBlock_dots fileNames hlow]
      exact iff_of_false (by decide) (by omega)
    · rw [entryInum_rootBlock_free fileNames (by omega) hk]
      exact iff_of_true rfl (by omega)
  names := by
    intro m hlow hm k hk
    have hfits := fileName_fits m
    rw [(start_root freshServer fileNames).entryNamed_eq hk hfits,
      entryNamed_rootBlock fileNames hfits]
    match k, hk with
    | 0, _ =>
      rw [entryNamed_childBlock_self fileNames 0 0 hfits]
      exact iff_of_false (fileName_ne_dot m).1 (by omega)
    | 1, _ =>
      rw [entryNamed_childBlock_parent fileNames 0 0 hfits]
      exact iff_of_false (fileName_ne_dot m).2 (by omega)
    | k + 2, hk =>
      rw [entryNamed_childBlock_other fileNames 0 0 hfits (Nat.le_add_left 2 k)]
      exact entryNamed_fileNames hm hk
  end_le := le_of_eq (start_endPos freshServer fileNames)

section Filled

variable {n : ℕ} (h : Filled n server)

include h

theorem Filled.first_free_slot (hn : n + 2 < dirEntries) :
    Scan.first (fun k ↦ entryInum (server.dirBlock 0 0) k = -1) dirEntries = some (n + 2) := by
  refine Scan.first_eq_some_iff.mpr ⟨hn, ?_, fun k hk ↦ ?_⟩
  · exact decide_eq_true ((h.entries _ hn).mpr (by omega))
  · apply decide_eq_false
    rw [h.entries k (hk.trans hn)]
    omega

theorem Filled.first_free_inode {child : Fin 4096} (hchild : (child : ℕ) = n + 1) :
    Scan.first (inodeFree server.inodes) 4096 = some (child : ℕ) := by
  refine Scan.first_eq_some_iff.mpr ⟨child.isLt, ?_, fun k hk ↦ ?_⟩
  · rw [inodeFree, dif_pos child.isLt, decide_eq_true_iff]
    exact (h.allocated child).mpr (by omega)
  · have hlt := hk.trans child.isLt
    rw [inodeFree, dif_pos hlt, decide_eq_false_iff_not, h.allocated]
    change ¬ n < k
    omega

/-- The next name is new. -/
theorem Filled.newName (hn : n + 2 < dirEntries) (frame : CreatFrame) :
    NewName server 0 (fileName (n + 2)) frame where
  directory := h.directory
  fits := fileName_fits _
  absent := by
    rintro ⟨dir, block, index⟩ rfl hlive hnamed
    have hzero : block = 0 := by
      by_contra hblock
      exact hlive.block (h.flat.laid.one_block 0 h.directory block hblock)
    subst hzero
    have hslot := (h.names (n + 2) (by omega) hn index index.isLt).mp hnamed
    have hfree : entryInum (server.dirBlock 0 0) index = -1 :=
      (h.entries index index.isLt).mpr (by omega)
    exact hlive.inum hfree
  not_found := by
    intro rc last hlookup
    have hscan : Scan.first (entryNamed (server.dirBlock 0 0) (fileName (n + 2))) dirEntries =
        some (n + 2) := by
      refine Scan.first_eq_some_iff.mpr
        ⟨hn, (h.names _ (by omega) hn _ hn).mpr rfl, fun k hk ↦ ?_⟩
      rw [← Bool.not_eq_true, h.names _ (by omega) hn k (hk.trans hn)]
      exact hk.ne
    obtain ⟨last', hfound⟩ :=
      h.flat.laid.fsiLookup_first h.directory (fileName_fits _) hscan frame.lookup
    cases hlookup.symm.trans hfound
    rw [(h.entries _ hn).mpr (by omega)]
    decide
  free := ⟨n + 2, hn, (h.entries _ hn).mpr (by omega)⟩

/-- The next file of the first chunk. -/
theorem Filled.step (hn : n + 1 < imapChunkSize) :
    ∃ next, Call.step server (.creat 0 lfsRegularFile (fileName (n + 2)) junkFrame) = some next ∧
      Filled (n + 1) next := by
  simp only [imapChunkSize] at hn
  have hslots : n + 2 < dirEntries := by
    simp only [dirEntries]
    omega
  have hfits := fileName_fits (n + 2)
  have hnew := h.newName hslots junkFrame
  let child : Fin 4096 := ⟨n + 1, by omega⟩
  have hinum := h.first_free_inode (show (child : ℕ) = n + 1 from rfl)
  have hchunk : chunkOf 0 = chunkOf child := chunkOf_eq_of_lt (by decide) hn
  have hne : (0 : Fin 4096) ≠ child := fun heq ↦ Nat.succ_ne_zero n (congrArg Fin.val heq).symm
  have hlaid := h.flat.laid
  have hend := h.end_le
  obtain ⟨found, hfound, hcreat⟩ := hlaid.fsiCreat_absent h.directory hfits hnew.not_found hinum
    (h.first_free_slot hslots) lfsRegularFile
  let sought := server.seek (((server.inodeRecord 0).direct 0).toNat + lfsBlockSize)
  have hroom : sought.cr.endPos.toNat + 8384 < 2 ^ 31 := by
    change server.cr.endPos.toNat + 8384 < 2 ^ 31
    omega
  obtain ⟨next, hrun, hflat⟩ := (h.flat.seek _).creatCommit hroom h.directory h.directory.2
    (hlaid.one_block 0 h.directory) (h.flat.size 0 h.directory) hne hchunk (n + 2)
    (fileName (n + 2)) lfsRegularFile found junk
  obtain ⟨next', hrun', hcreated⟩ := creatCommit_created (hlaid.seek _) hroom h.directory.2
    (hlaid.one_block 0 h.directory) hne hchunk (n + 2) (fileName (n + 2)) lfsRegularFile found junk
  cases hrun.symm.trans hrun'
  refine ⟨next, ?_, hflat, hcreated.parent_entry.directory, ?_, ?_, ?_, ?_⟩
  · have hexec : fsiCreat (((0 : Fin 4096) : ℕ) : ℤ) lfsRegularFile (fileName (n + 2)) junkFrame
        server = some (0, next) := hcreat.trans hrun
    exact congrArg (Option.map Prod.snd) hexec
  · intro i
    by_cases hchild : i = child
    · have hlive : next.inodes child ≠ -1 := by
        apply ne_neg_one_of_toNat_lt
        have hhigh := hcreated.child_node.2
        have hlast := hcreated.end_lt
        omega
      rw [hchild]
      exact iff_of_false hlive (lt_irrefl (n + 1))
    · by_cases hroot : i = 0
      · rw [hroot]
        exact iff_of_false hcreated.parent_entry.directory.1 (Nat.not_lt_zero _)
      · have hval : (i : ℕ) ≠ n + 1 := fun heq ↦ hchild (Fin.ext heq)
        rw [hcreated.other i hroot hchild]
        change server.inodes i = -1 ↔ _
        rw [h.allocated i]
        omega
  · intro k hk
    rw [hcreated.parent_entry.entryInum_eq hk]
    by_cases heq : k = n + 2
    · rw [heq, entryInum_setEntry_same]
      exact iff_of_false (ofNat_fin_ne_neg_one child) (by omega)
    · rw [entryInum_setEntry_other found hfits _ heq, entryInum_congr (AgreeOn.slot hfound hk),
        h.entries k hk]
      omega
  · intro m hlow hm k hk
    have hother := fileName_fits m
    rw [hcreated.parent_entry.entryNamed_eq hk hother]
    by_cases heq : k = n + 2
    · rw [heq, entryNamed_setEntry_same _ _ hother]
      exact fileName_eq_iff hm hslots
    · rw [entryNamed_setEntry_other found hfits hother _ heq,
        entryNamed_congr hother ((AgreeOn.slot hfound hk).mono le_rfl (by omega))]
      exact h.names m hlow hm k hk
  · calc
      next.cr.endPos.toNat ≤ server.cr.endPos.toNat + 8384 := hcreated.end_le
      _ ≤ 5252 + 8384 * n + 8384 := Nat.add_le_add_right hend _
      _ = 5252 + 8384 * (n + 1) := by ring

end Filled

/-- Regular files in the root. -/
def rootCreats (n : ℕ) : List Call :=
  (List.range n).map fun k ↦ .creat 0 lfsRegularFile (fileName (k + 2)) junkFrame

theorem rootCreats_filled {n : ℕ} (hn : n < imapChunkSize) :
    ∃ final, run Call.step (freshServer.start fileNames) (rootCreats n) = some final ∧
      Filled n final := by
  induction n with
  | zero => exact ⟨_, rfl, start_filled⟩
  | succ n ih =>
    obtain ⟨middle, hmiddle, hfilled⟩ := ih (by omega)
    obtain ⟨final, hstep, hfinal⟩ := hfilled.step hn
    refine ⟨final, ?_, hfinal⟩
    unfold rootCreats at hmiddle ⊢
    rw [List.range_succ, List.map_append, run_append, hmiddle, Option.bind_some,
      List.map_singleton, run_cons_of_step [] hstep, run_nil]

/-! ## Whole runs -/

/-- After a run that has kept directories in their first block, the file that `fsi_creat` makes for
a new name is usable exactly if its inode is in the parent's chunk. -/
theorem created_usable_iff (hfull : AllFull server) (dirBlock : Store) :
    ∃ start, fsiBuild dirBlock server = some ((), start) ∧
      ∀ calls, Guarded Call.step (fun state call ↦ call.KeepsFlat state) start calls →
        ∃ final, run Call.step start calls = some final ∧
          ∀ (parent child : Fin 4096) (name : CString) (frame : CreatFrame),
            NewName final parent name frame → final.cr.endPos.toNat + 8384 < 2 ^ 31 →
            Scan.first (inodeFree final.inodes) 4096 = some (child : ℕ) →
              ∃ next, fsiCreat ((parent : ℕ) : ℤ) lfsRegularFile name frame final =
                  some (0, next) ∧
                (Usable next final parent child name lfsRegularFile ↔
                  chunkOf parent = chunkOf child) := by
  refine ⟨server.start dirBlock, fsiBuild_run hfull dirBlock, fun calls hcalls ↦ ?_⟩
  obtain ⟨final, hfinal, hflat⟩ := flat_of_run hfull dirBlock hcalls
  exact ⟨final, hfinal, fun parent child name frame hnew hroom hinum ↦
    hflat.fsiCreat_usable_iff hroom hnew hinum⟩

/-- The first file of a new image is usable. -/
theorem first_file_usable :
    ∃ start next, fsiBuild fileNames freshServer = some ((), start) ∧
      fsiCreat (((0 : Fin 4096) : ℕ) : ℤ) lfsRegularFile (fileName 2) junkFrame start =
        some (0, next) ∧ Usable next start 0 1 (fileName 2) lfsRegularFile := by
  obtain ⟨start, hbuild, hruns⟩ := created_usable_iff freshServer_full fileNames
  cases (fsiBuild_run freshServer_full fileNames).symm.trans hbuild
  obtain ⟨final, hfinal, hcreated⟩ := hruns [] trivial
  cases hfinal
  have hroom : (freshServer.start fileNames).cr.endPos.toNat + 8384 < 2 ^ 31 := by
    rw [start_endPos]
    decide
  obtain ⟨next, hnext, husable⟩ := hcreated 0 1 (fileName 2) junkFrame
    (start_filled.newName (by decide) junkFrame) hroom (start_filled.first_free_inode rfl)
  exact ⟨_, next, hbuild, hnext, husable.mpr (by decide)⟩

/-- The sixteenth file of the root, whose inode is the first one of the second chunk, is not. -/
theorem sixteenth_file_not_usable :
    ∃ start final next, fsiBuild fileNames freshServer = some ((), start) ∧
      run Call.step start (rootCreats 15) = some final ∧
      NewName final 0 (fileName 17) junkFrame ∧
      Scan.first (inodeFree final.inodes) 4096 = some 16 ∧
      fsiCreat (((0 : Fin 4096) : ℕ) : ℤ) lfsRegularFile (fileName 17) junkFrame final =
        some (0, next) ∧ ¬ Usable next final 0 16 (fileName 17) lfsRegularFile := by
  obtain ⟨final, hfinal, hfilled⟩ := rootCreats_filled (n := 15) (by decide)
  have hnew : NewName final 0 (fileName 17) junkFrame := hfilled.newName (by decide) junkFrame
  have hinum : Scan.first (inodeFree final.inodes) 4096 = some ((16 : Fin 4096) : ℕ) :=
    hfilled.first_free_inode rfl
  have hroom : final.cr.endPos.toNat + 8384 < 2 ^ 31 := by
    have hend := hfilled.end_le
    omega
  obtain ⟨next, hnext, husable⟩ := hfilled.flat.fsiCreat_usable_iff hroom hnew hinum
  refine ⟨_, final, next, fsiBuild_run freshServer_full fileNames, hfinal, hnew, hinum, hnext, ?_⟩
  rw [husable]
  decide

end OS537.LFS
