import Mathlib.Data.List.Pairwise
import Mathlib.Data.List.Sort
import OS537.Fastsort.Reading

/-!
# What fastsort writes

`compare_records` subtracts the keys as `int`s. Two keys that are 2 ^ 31 or more apart compare the
wrong way round, so `fastsort` sorts a file exactly when its keys are closer together than that.
`qsort` is any function that sorts as the C library promises: nothing is known of it for a
comparison that is inconsistent on the array.
-/

namespace OS537.Fastsort

open Bytes Posix

/-! ## Comparison and sorting -/

/-- The bytes of a record in memory. -/
def recordBytes (record : Record) : Store :=
  fun j ↦ if h : j < recSize then record ⟨j, h⟩ else 0

/-- `record->key` -/
def key (record : Record) : Word := load32 (recordBytes record) 0

def compareRecords (recordA recordB : Record) : ℤ := (key recordA - key recordB).toInt

/-- The comparison is a total preorder on the elements of the array. -/
structure ConsistentOn (compare : Record → Record → ℤ) (records : List Record) : Prop where
  swap : ∀ a ∈ records, ∀ b ∈ records, compare a b < 0 ↔ 0 < compare b a
  trans : ∀ a ∈ records, ∀ b ∈ records, ∀ c ∈ records,
    compare a b ≤ 0 → compare b c ≤ 0 → compare a c ≤ 0

/-- `qsort` as the C library promises it. -/
def Conforming (qsort : (Record → Record → ℤ) → List Record → List Record) : Prop :=
  ∀ compare records, ConsistentOn compare records →
    (qsort compare records).Perm records ∧
      (qsort compare records).Pairwise fun a b ↦ compare a b ≤ 0

/-! ## The output loop -/

/-- `for (i = 0; i < count; i++) records[i] = allRecords[recordsWritten + i]`, from `i` on. -/
def fillBuffer (allRecords : List Record) (recordsWritten : ℕ) :
    (count i : ℕ) → Store → Option Store
  | 0, _, records => some records
  | count + 1, i, records =>
    (allRecords[recordsWritten + i]?).bind fun record ↦
      fillBuffer allRecords recordsWritten count (i + 1)
        (splice records (recSize * i) recSize (recordBytes record))

def bufferLength (numRecords recordsWritten : ℕ) : ℕ :=
  if numRecords - recordsWritten < 32 then numRecords - recordsWritten else bufSize

/-- The loop that writes the records, 32 at a time. -/
def writeLoop (allRecords : List Record) (numRecords : ℕ) :
    (fuel recordsWritten : ℕ) → Store → File → Option File
  | 0, _, _, out => some out
  | fuel + 1, recordsWritten, records, out =>
    if recordsWritten < numRecords then
      let length := bufferLength numRecords recordsWritten
      (fillBuffer allRecords recordsWritten length 0 records).bind fun records ↦
        writeLoop allRecords numRecords fuel (recordsWritten + length) records
          (out.pwrite out.size (length * recSize) records)
    else
      some out

/-- The results of `read` on a regular file: full buffers up to the end. -/
def fullReads (size : ℕ) : List ReadResult :=
  List.replicate (size / (bufSize * recSize)) (.count (bufSize * recSize)) ++
    if size % (bufSize * recSize) = 0 then [] else [.count (size % (bufSize * recSize))]

/-- `main` behind the opening of the input file; `records` and `later` are what the buffer holds
before the first read and before the first write. Each round of the output loop writes a record at
least. -/
def fastsort (qsort : (Record → Record → ℤ) → List Record → List Record) (file : File)
    (records later : Store) : Option File :=
  (readLoop file 0 (fullReads file.size) records Input.empty).bind fun input ↦
    writeLoop (qsort compareRecords input.allRecords) input.allRecords.length
      input.allRecords.length 0 later File.empty

/-! ## The records written -/

theorem recordAt_splice_recordBytes (store : Store) (addr : ℕ) (record : Record) :
    recordAt (splice store addr recSize (recordBytes record)) addr = record := by
  funext j
  rw [recordAt, splice_apply_inside _ _ j.isLt, recordBytes, dif_pos j.isLt]

/-- The buffer holds the next records, and what stands below is left. -/
theorem fillBuffer_run {allRecords : List Record} {recordsWritten count i : ℕ} (records : Store)
    (hcount : recordsWritten + i + count ≤ allRecords.length) :
    ∃ filled, fillBuffer allRecords recordsWritten count i records = some filled ∧
      recordsFrom filled (recSize * i) count = (allRecords.drop (recordsWritten + i)).take count ∧
      ∀ addr < recSize * i, filled addr = records addr := by
  induction count generalizing i records with
  | zero => exact ⟨records, rfl, by simp, fun _ _ ↦ rfl⟩
  | succ count ih =>
    have hlt : recordsWritten + i < allRecords.length := by omega
    let record := allRecords[recordsWritten + i]
    let stored := splice records (recSize * i) recSize (recordBytes record)
    obtain ⟨filled, hfill, hrecords, hbelow⟩ := ih stored (i := i + 1) (by omega)
    have hfirst : recordAt filled (recSize * i) = record := by
      rw [← recordAt_splice_recordBytes records (recSize * i) record]
      apply recordAt_congr
      intro j hj
      exact hbelow _ (by rw [Nat.mul_succ]; omega)
    refine ⟨filled, ?_, ?_, fun addr haddr ↦ ?_⟩
    · rw [fillBuffer, List.getElem?_eq_getElem hlt, Option.bind_some, hfill]
    · rw [recordsFrom_succ, hfirst, ← Nat.mul_succ, hrecords, ← Nat.add_assoc,
        List.drop_eq_getElem_cons hlt, List.take_succ_cons]
    · rw [hbelow addr (by rw [Nat.mul_succ]; omega)]
      exact splice_apply_outside _ _ (Or.inl haddr)

/-- A write of whole records to the end of a file of whole records. -/
theorem fileRecords_pwrite {out : File} {m : ℕ} (hsize : out.size = recSize * m) (n : ℕ)
    (records : Store) :
    fileRecords (out.pwrite out.size (n * recSize) records) =
      fileRecords out ++ recordsFrom records 0 n := by
  have hpos : 0 < recSize := by decide
  have hafter : (out.pwrite out.size (n * recSize) records).size / recSize = m + n := by
    rw [File.pwrite_size, max_eq_right (Nat.le_add_right _ _), hsize, Nat.mul_comm n, ← Nat.mul_add,
      Nat.mul_div_cancel_left _ hpos]
  have hbefore : out.size / recSize = m := by rw [hsize, Nat.mul_div_cancel_left _ hpos]
  rw [fileRecords, hafter, recordsFrom_add, fileRecords, hbefore]
  congr 1
  · apply recordsFrom_congr
    intro i hi
    exact out.agreeOn_pwrite records le_rfl (Or.inl le_rfl) _ (Nat.zero_le _) (by omega)
  · apply recordsFrom_congr
    intro i hi
    rw [Nat.zero_add, Nat.zero_add, ← hsize]
    exact out.pwrite_inside records (by rwa [Nat.mul_comm])

theorem bufferLength_bounds {numRecords recordsWritten : ℕ} (h : recordsWritten < numRecords) :
    0 < bufferLength numRecords recordsWritten ∧
      recordsWritten + bufferLength numRecords recordsWritten ≤ numRecords := by
  simp only [bufferLength, bufSize]
  split <;> omega

/-- The loop writes every record once, in order. -/
theorem writeLoop_run (allRecords : List Record) {fuel recordsWritten : ℕ} (records : Store)
    {out : File} (hfuel : allRecords.length - recordsWritten ≤ fuel)
    (hwritten : recordsWritten ≤ allRecords.length) (hsize : out.size = recSize * recordsWritten)
    (hout : fileRecords out = allRecords.take recordsWritten) :
    ∃ final, writeLoop allRecords allRecords.length fuel recordsWritten records out = some final ∧
      final.size = recSize * allRecords.length ∧ fileRecords final = allRecords := by
  induction fuel generalizing recordsWritten records out with
  | zero =>
    have hall : recordsWritten = allRecords.length := by omega
    exact ⟨out, rfl, by rw [hsize, hall], by rw [hout, hall, List.take_length]⟩
  | succ fuel ih =>
    rw [writeLoop]
    split
    case isTrue hlt =>
      have hbounds := bufferLength_bounds hlt
      obtain ⟨filled, hfill, hrecords, -⟩ := fillBuffer_run (i := 0) records hbounds.2
      dsimp only
      rw [hfill, Option.bind_some]
      apply ih filled (by omega) hbounds.2
      · rw [File.pwrite_size, max_eq_right (Nat.le_add_right _ _), hsize,
          Nat.mul_comm (bufferLength _ _), Nat.mul_add]
      · rw [Nat.mul_zero, Nat.add_zero] at hrecords
        rw [fileRecords_pwrite hsize, hout, hrecords, List.take_add]
    case isFalse hlt =>
      have hall : recordsWritten = allRecords.length := by omega
      exact ⟨out, rfl, by rw [hsize, hall], by rw [hout, hall, List.take_length]⟩

/-! ## Reading a regular file -/

theorem allowed_fullReads_from {size pos k : ℕ} {last : List ReadResult}
    (hsize : pos + bufSize * recSize * k ≤ size)
    (hlast : Allowed size (pos + bufSize * recSize * k) last) :
    Allowed size pos (List.replicate k (.count (bufSize * recSize)) ++ last) := by
  induction k generalizing pos with
  | zero => simpa using hlast
  | succ k ih =>
    rw [Nat.mul_succ, Nat.add_comm (_ * k), ← Nat.add_assoc] at hsize hlast
    exact ⟨⟨by decide, le_rfl, by omega⟩, ih hsize hlast⟩

theorem allowed_fullReads (size : ℕ) : Allowed size 0 (fullReads size) := by
  have hdiv := Nat.div_add_mod size (bufSize * recSize)
  have hmod := Nat.mod_lt size (show 0 < bufSize * recSize by decide)
  apply allowed_fullReads_from (by omega)
  split
  case isTrue hzero =>
    change _ = size
    omega
  case isFalse hzero => exact ⟨⟨by omega, hmod.le, by omega⟩, by change _ = size; omega⟩

theorem error_not_mem_fullReads (size : ℕ) : .error ∉ fullReads size := by
  unfold fullReads
  split <;> simp

/-- On a file of whole records no record is split. -/
theorem unsplit_of_dvd (size : ℕ) {pos : ℕ} {results : List ReadResult} (hpos : recSize ∣ pos)
    (hresults : ∀ n, .count n ∈ results → recSize ∣ n) : Unsplit size pos results := by
  induction results generalizing pos with
  | nil => trivial
  | cons result rest ih =>
    have hrest (n : ℕ) (hn : .count n ∈ rest) : recSize ∣ n :=
      hresults n (List.mem_cons_of_mem _ hn)
    cases result with
    | error => exact ih hpos hrest
    | count n =>
      have hdvd : recSize ∣ pos + n := Nat.dvd_add hpos (hresults n List.mem_cons_self)
      exact ⟨Or.inl hdvd, ih hdvd hrest⟩

theorem wholeRecords_fullReads (file : File) (hsize : recSize ∣ file.size) :
    wholeRecords file.bytes 0 (fullReads file.size) = fileRecords file := by
  have hbuffer : recSize ∣ bufSize * recSize := Nat.dvd_mul_left _ _
  have hresults (n : ℕ) (hn : .count n ∈ fullReads file.size) : recSize ∣ n := by
    unfold fullReads at hn
    obtain hfull | hlast := List.mem_append.mp hn
    · obtain ⟨-, heq⟩ := List.mem_replicate.mp hfull
      cases heq
      exact hbuffer
    · split at hlast
      · simp at hlast
      · simp only [List.mem_singleton, ReadResult.count.injEq] at hlast
        rw [hlast]
        exact (Nat.dvd_mod_iff hbuffer).mpr hsize
  have hunsplit := unsplit_of_dvd file.size (Nat.dvd_zero recSize) hresults
  exact (wholeRecords_eq_iff (Nat.dvd_zero _) (allowed_fullReads _)).mpr hunsplit file.bytes

/-- What `fastsort` writes is what `qsort` makes of the records of the file. -/
theorem fastsort_run {qsort : (Record → Record → ℤ) → List Record → List Record} {file : File}
    (records later : Store) (hsize : recSize ∣ file.size)
    (hbound : file.size / recSize + bufSize < intBound)
    (hlength : (qsort compareRecords (fileRecords file)).length = (fileRecords file).length) :
    ∃ out, fastsort qsort file records later = some out ∧ out.size = file.size ∧
      fileRecords out = qsort compareRecords (fileRecords file) := by
  have hreads : ReadsAll file (fullReads file.size) :=
    (readsAll_iff file (allowed_fullReads _)).mpr
      ⟨error_not_mem_fullReads _, hbound, wholeRecords_fullReads file hsize⟩
  obtain ⟨input, hrun, hrecords⟩ := hreads records
  have hempty : fileRecords File.empty = [] := rfl
  obtain ⟨out, hwrite, hout, hsorted⟩ :=
    writeLoop_run (qsort compareRecords (fileRecords file)) later le_rfl (Nat.zero_le _) rfl hempty
  refine ⟨out, ?_, ?_, hsorted⟩
  · rw [fastsort, hrun, Option.bind_some, hrecords (error_not_mem_fullReads _), ← hlength]
    exact hwrite
  · rw [hout, hlength, fileRecords, length_recordsFrom, Nat.mul_div_cancel' hsize]

/-- The records of a file that is sorted could be counted. -/
theorem fastsort_bound {qsort : (Record → Record → ℤ) → List Record → List Record} {file out : File}
    {records later : Store} (hsize : recSize ∣ file.size)
    (hrun : fastsort qsort file records later = some out) :
    file.size / recSize + bufSize < intBound := by
  rw [fastsort, Option.bind_eq_some_iff] at hrun
  obtain ⟨input, hread, -⟩ := hrun
  obtain ⟨-, hbound, hstored⟩ := readLoop_stored (allowed_fullReads _) Input.empty_roomy hread
  rw [wholeRecords_fullReads file hsize] at hstored
  obtain hnone | hbound := hbound
  · have hempty : 0 = file.size := by
      have hallowed := allowed_fullReads file.size
      rwa [hnone] at hallowed
    rw [← hempty]
    decide
  · rw [hstored] at hbound
    simpa [Input.empty, fileRecords] using hbound

/-! ## Keys that are far apart -/

theorem compareRecords_eq {recordA recordB : Record}
    (hlow : -2 ^ 31 ≤ (key recordA).toInt - (key recordB).toInt)
    (hhigh : (key recordA).toInt - (key recordB).toInt < 2 ^ 31) :
    compareRecords recordA recordB = (key recordA).toInt - (key recordB).toInt := by
  rw [compareRecords, BitVec.toInt_sub]
  exact Int.bmod_eq_of_le (by omega) (by omega)

/-- A difference that does not fit an `int` comes out negative. -/
theorem compareRecords_neg {recordA recordB : Record}
    (hfar : 2 ^ 31 ≤ (key recordA).toInt - (key recordB).toInt) :
    compareRecords recordA recordB < 0 := by
  have hA := BitVec.toInt_lt (x := key recordA)
  have hB := BitVec.le_toInt (key recordB)
  rw [compareRecords, BitVec.toInt_sub, Int.bmod_def]
  split <;> omega

/-- Any two keys differ by less than 2 ^ 31. -/
def KeysClose (records : List Record) : Prop :=
  ∀ a ∈ records, ∀ b ∈ records, (key a).toInt - (key b).toInt < 2 ^ 31

theorem KeysClose.compareRecords_eq {records : List Record} (h : KeysClose records) {a b : Record}
    (ha : a ∈ records) (hb : b ∈ records) :
    compareRecords a b = (key a).toInt - (key b).toInt := by
  have hlow := h b hb a ha
  exact Fastsort.compareRecords_eq (by omega) (h a ha b hb)

theorem KeysClose.consistentOn {records : List Record} (h : KeysClose records) :
    ConsistentOn compareRecords records where
  swap a ha b hb := by
    rw [h.compareRecords_eq ha hb, h.compareRecords_eq hb ha]
    omega
  trans a ha b hb c hc := by
    rw [h.compareRecords_eq ha hb, h.compareRecords_eq hb hc, h.compareRecords_eq ha hc]
    omega

/-- The records are in the order of their keys. -/
def SortedByKey (records : List Record) : Prop :=
  records.Pairwise fun a b ↦ (key a).toInt ≤ (key b).toInt

/-- Two elements of a sorted array stand in one of the two orders. -/
theorem rel_or_rel_of_mem {r : Record → Record → Prop} {records : List Record} {a b : Record}
    (h : records.Pairwise r) (ha : a ∈ records) (hb : b ∈ records) (hne : a ≠ b) :
    r a b ∨ r b a := by
  have hsymm : Std.Symm fun a b ↦ r a b ∨ r b a := ⟨fun _ _ ↦ Or.symm⟩
  have hboth : records.Pairwise fun a b ↦ r a b ∨ r b a := h.imp Or.inl
  exact hboth.forall ha hb hne

/-- The test for any type: the elements of the list are compared, not all records there are. -/
def decidableConsistent {α : Type} (compare : α → α → ℤ) (elements : List α) :
    Decidable ((∀ a ∈ elements, ∀ b ∈ elements, compare a b < 0 ↔ 0 < compare b a) ∧
      ∀ a ∈ elements, ∀ b ∈ elements, ∀ c ∈ elements,
        compare a b ≤ 0 → compare b c ≤ 0 → compare a c ≤ 0) :=
  inferInstance

instance (compare : Record → Record → ℤ) (records : List Record) :
    Decidable (ConsistentOn compare records) :=
  @decidable_of_iff _ _ ⟨fun h ↦ ⟨h.1, h.2⟩, fun h ↦ ⟨h.swap, h.trans⟩⟩
    (decidableConsistent compare records)

/-- A `qsort` that keeps its promise and no more: where the comparison is inconsistent, the keys
come out in descending order. -/
def adverseQsort (compare : Record → Record → ℤ) (records : List Record) : List Record :=
  if ConsistentOn compare records then
    (records.attach.mergeSort fun a b ↦ compare a b ≤ 0).map Subtype.val
  else
    records.mergeSort fun a b ↦ (key b).toInt ≤ (key a).toInt

theorem perm_adverseQsort (compare : Record → Record → ℤ) (records : List Record) :
    (adverseQsort compare records).Perm records := by
  unfold adverseQsort
  split
  · have hperm := (List.mergeSort_perm records.attach fun a b ↦ compare a b ≤ 0).map Subtype.val
    rwa [List.attach_map_subtype_val] at hperm
  · exact List.mergeSort_perm _ _

theorem conforming_adverseQsort : Conforming adverseQsort := by
  intro compare records hconsistent
  refine ⟨perm_adverseQsort compare records, ?_⟩
  rw [adverseQsort, if_pos hconsistent, List.pairwise_map]
  have htrans (a b c : { x // x ∈ records }) (hab : decide (compare a b ≤ 0) = true)
      (hbc : decide (compare b c ≤ 0) = true) : decide (compare a c ≤ 0) = true := by
    rw [decide_eq_true_eq] at hab hbc ⊢
    exact hconsistent.trans a a.2 b b.2 c c.2 hab hbc
  have htotal (a b : { x // x ∈ records }) :
      (decide (compare a b ≤ 0) || decide (compare b a ≤ 0)) = true := by
    have hswap := hconsistent.swap b b.2 a a.2
    rw [Bool.or_eq_true, decide_eq_true_eq, decide_eq_true_eq]
    omega
  simpa using List.pairwise_mergeSort htrans htotal records.attach

/-- Keys that are far apart do not come out in order. -/
theorem adverseQsort_not_sorted {records : List Record} (h : ¬ KeysClose records) :
    ¬ SortedByKey (adverseQsort compareRecords records) := by
  simp only [KeysClose, not_forall, not_lt] at h
  obtain ⟨a, ha, b, hb, hfar⟩ := h
  intro hsorted
  have ha' := (perm_adverseQsort compareRecords records).mem_iff.mpr ha
  have hb' := (perm_adverseQsort compareRecords records).mem_iff.mpr hb
  have hne : a ≠ b := by
    rintro rfl
    omega
  by_cases hconsistent : ConsistentOn compareRecords records
  · -- the comparison orders the two keys the wrong way round
    have hbefore := compareRecords_neg hfar
    have hafter := (hconsistent.swap a ha b hb).mp hbefore
    have hboth := hsorted.and (conforming_adverseQsort compareRecords records hconsistent).2
    obtain hab | hba := rel_or_rel_of_mem hboth ha' hb' hne
    · omega
    · omega
  · have hdescending : (adverseQsort compareRecords records).Pairwise
        fun a b ↦ (key b).toInt ≤ (key a).toInt := by
      rw [adverseQsort, if_neg hconsistent]
      have htrans (a b c : Record) (hab : decide ((key b).toInt ≤ (key a).toInt) = true)
          (hbc : decide ((key c).toInt ≤ (key b).toInt) = true) :
          decide ((key c).toInt ≤ (key a).toInt) = true := by
        rw [decide_eq_true_eq] at hab hbc ⊢
        exact hbc.trans hab
      have htotal (a b : Record) : (decide ((key b).toInt ≤ (key a).toInt) ||
          decide ((key a).toInt ≤ (key b).toInt)) = true := by
        rw [Bool.or_eq_true, decide_eq_true_eq, decide_eq_true_eq]
        exact le_total _ _
      simpa using List.pairwise_mergeSort htrans htotal records
    obtain hab | hba := rel_or_rel_of_mem (hsorted.and hdescending) ha' hb' hne
    · omega
    · omega

/-! ## Sorting a file -/

/-- With every `qsort` that keeps its promise, the output has the records of the file, in order. -/
def Sorts (file : File) : Prop :=
  ∀ qsort, Conforming qsort → ∀ records later, ∃ out,
    fastsort qsort file records later = some out ∧ out.size = file.size ∧
      (fileRecords out).Perm (fileRecords file) ∧ SortedByKey (fileRecords out)

theorem sorts_of_keysClose {file : File} (hsize : recSize ∣ file.size)
    (hbound : file.size / recSize + bufSize < intBound) (hclose : KeysClose (fileRecords file)) :
    Sorts file := by
  intro qsort hqsort records later
  obtain ⟨hperm, hsorted⟩ := hqsort compareRecords (fileRecords file) hclose.consistentOn
  obtain ⟨out, hrun, hout, hrecords⟩ := fastsort_run records later hsize hbound hperm.length_eq
  refine ⟨out, hrun, hout, by rwa [hrecords], ?_⟩
  rw [hrecords]
  refine hsorted.imp_of_mem fun {a b} ha hb hle ↦ ?_
  rw [hclose.compareRecords_eq (hperm.mem_iff.mp ha) (hperm.mem_iff.mp hb)] at hle
  omega

theorem keysClose_of_sorts {file : File} (hsize : recSize ∣ file.size) (h : Sorts file) :
    file.size / recSize + bufSize < intBound ∧ KeysClose (fileRecords file) := by
  let zero : Store := fun _ ↦ 0
  obtain ⟨out, hrun, -, -, hsorted⟩ := h adverseQsort conforming_adverseQsort zero zero
  have hbound := fastsort_bound hsize hrun
  refine ⟨hbound, ?_⟩
  by_contra hfar
  obtain ⟨out', hrun', -, hrecords⟩ := fastsort_run zero zero hsize hbound
    (perm_adverseQsort compareRecords (fileRecords file)).length_eq
  rw [hrun, Option.some.injEq] at hrun'
  rw [hrun', hrecords] at hsorted
  exact adverseQsort_not_sorted hfar hsorted

/-- `fastsort` sorts a file of whole records exactly when the records can be counted in an `int` and
no two keys are 2 ^ 31 or more apart. -/
theorem fastsort_sorts_iff (file : File) (hsize : recSize ∣ file.size) :
    Sorts file ↔
      file.size / recSize + bufSize < intBound ∧ KeysClose (fileRecords file) :=
  ⟨keysClose_of_sorts hsize, fun h ↦ sorts_of_keysClose hsize h.1 h.2⟩

theorem keysClose_two_iff (bytes : Store) :
    KeysClose (fileRecords ⟨bytes, 256⟩) ↔
      (key (recordAt bytes 0)).toInt - (key (recordAt bytes 128)).toInt < 2 ^ 31 ∧
      (key (recordAt bytes 128)).toInt - (key (recordAt bytes 0)).toInt < 2 ^ 31 := by
  have hrecords : fileRecords ⟨bytes, 256⟩ = [recordAt bytes 0, recordAt bytes 128] := by
    simp [fileRecords, recordsFrom, recSize, List.range_succ]
  simp [hrecords, KeysClose]

/-- A file of two records, with the keys 5 and -1. -/
theorem two_records_sorted :
    Sorts ⟨fun i ↦ if i = 0 then 5 else if 128 ≤ i then 255 else 0, 256⟩ := by
  refine (fastsort_sorts_iff _ ⟨2, rfl⟩).mpr ⟨by decide, (keysClose_two_iff _).mpr ?_⟩
  decide +kernel

/-- A file of two records, with the largest and the smallest key. -/
theorem extreme_keys_not_sorted :
    ¬ Sorts
      ⟨fun i ↦ if i < 3 then 255 else if i = 3 then 127 else if i = 131 then 128 else 0, 256⟩ := by
  intro h
  have hclose := (keysClose_two_iff _).mp (keysClose_of_sorts ⟨2, rfl⟩ h).2
  exact absurd hclose (by decide +kernel)

end OS537.Fastsort
