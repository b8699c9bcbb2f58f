import Mathlib.Data.List.Basic
import OS537.Base.Posix

/-!
# The input loop of fastsort

`fastsort` reads its input 32 records at a time. It copies the whole records of each `read` to the
end of an array that it then grows to 32 records more than it holds. The result of `read` is
used as it comes: what is left of a record at the end of a short read is lost, and the result -1,
divided by an unsigned size, is a count of 2 ^ 57 - 1 records.
-/

namespace OS537.Fastsort

open Bytes Posix

/-! ## Records -/

/-- `sizeof(rec_t)`: the key and 31 words. -/
def recSize : ℕ := 128

/-- `BUFSIZE` -/
def bufSize : ℕ := 32

/-- The bytes of a `rec_t`. -/
abbrev Record := Fin recSize → Byte

/-- The record at an address. -/
def recordAt (store : Store) (addr : ℕ) : Record := fun j ↦ store (addr + j)

/-- `count` records one after the other from `addr` on. -/
def recordsFrom (store : Store) (addr count : ℕ) : List Record :=
  (List.range count).map fun k ↦ recordAt store (addr + recSize * k)

/-- The whole records of a file. -/
def fileRecords (file : File) : List Record := recordsFrom file.bytes 0 (file.size / recSize)

theorem recordAt_congr {first second : Store} {addr addr' : ℕ}
    (h : ∀ j < recSize, first (addr + j) = second (addr' + j)) :
    recordAt first addr = recordAt second addr' := by
  funext j
  exact h j j.isLt

@[simp]
theorem length_recordsFrom (store : Store) (addr count : ℕ) :
    (recordsFrom store addr count).length = count := by
  simp [recordsFrom]

@[simp]
theorem recordsFrom_zero (store : Store) (addr : ℕ) : recordsFrom store addr 0 = [] := rfl

theorem recordsFrom_add (store : Store) (addr m n : ℕ) :
    recordsFrom store addr (m + n) =
      recordsFrom store addr m ++ recordsFrom store (addr + recSize * m) n := by
  simp [recordsFrom, List.range_add, Function.comp_def, Nat.mul_add, Nat.add_assoc]

theorem recordsFrom_succ (store : Store) (addr n : ℕ) :
    recordsFrom store addr (n + 1) =
      recordAt store addr :: recordsFrom store (addr + recSize) n := by
  rw [Nat.add_comm, recordsFrom_add]
  simp [recordsFrom]

theorem recordsFrom_congr {first second : Store} {addr addr' count : ℕ}
    (h : ∀ i < recSize * count, first (addr + i) = second (addr' + i)) :
    recordsFrom first addr count = recordsFrom second addr' count := by
  apply List.map_congr_left
  intro k hk
  have hk' : recSize * k + recSize ≤ recSize * count := by
    rw [← Nat.mul_succ]
    exact Nat.mul_le_mul_left _ (List.mem_range.mp hk)
  apply recordAt_congr
  intro j hj
  rw [Nat.add_assoc, Nat.add_assoc]
  exact h _ (by omega)

/-! ## The loop -/

/-- `allRecords`, with the `numRecords` records stored in it, and the number of records it was
allocated for. -/
structure Input where
  allRecords : List Record
  capacity : ℕ

/-- `numRecords` is an `int`. -/
def intBound : ℕ := 2 ^ 31

/-- `for (i = 0; i < count; i++) allRecords[numRecords++] = records[i]`, from `i` on. A store
outside of the allocation is undefined. -/
def copyRecords (records : Store) : (count i : ℕ) → Input → Option Input
  | 0, _, input => some input
  | count + 1, i, input =>
    if input.allRecords.length < input.capacity ∧ input.allRecords.length + 1 < intBound then
      copyRecords records count (i + 1)
        { input with allRecords := input.allRecords ++ [recordAt records (recSize * i)] }
    else
      none

/-- `realloc(allRecords, (numRecords + BUFSIZE) * sizeof(rec_t))` -/
def grow (input : Input) : Option Input :=
  if input.allRecords.length + bufSize < intBound then
    some { input with capacity := input.allRecords.length + bufSize }
  else
    none

/-- `rd / sizeof(rec_t)`: the division is unsigned. -/
def recordCount (rd : ℤ) : ℕ := (rd % 2 ^ 64).toNat / recSize

/-- One round of the loop, after the `read`. -/
def round (records : Store) (rd : ℤ) (input : Input) : Option Input :=
  (copyRecords records (recordCount rd) 0 input).bind grow

/-- What a call of `read` gives before the end of the file. -/
inductive ReadResult where
  | count (n : ℕ)
  | error
deriving DecidableEq

/-- The loop from the file offset `pos` on; behind the given results `read` gives 0. -/
def readLoop (file : File) : (pos : ℕ) → List ReadResult → Store → Input → Option Input
  | _, [], _, input => some input
  | pos, .count n :: rest, records, input =>
    let records := splice records 0 n fun i ↦ file.bytes (pos + i)
    (round records n input).bind (readLoop file (pos + n) rest records)
  | pos, .error :: rest, records, input =>
    (round records (-1) input).bind (readLoop file pos rest records)

/-- `allRecords` as it is first allocated. -/
def Input.empty : Input := ⟨[], bufSize⟩

/-- The results `read` may give on a file of `size` bytes at the offset `pos`. -/
def Allowed (size : ℕ) : (pos : ℕ) → List ReadResult → Prop
  | pos, [] => pos = size
  | pos, .count n :: rest =>
    (1 ≤ n ∧ n ≤ bufSize * recSize ∧ pos + n ≤ size) ∧ Allowed size (pos + n) rest
  | pos, .error :: rest => Allowed size pos rest

instance decidableAllowed (size pos : ℕ) (results : List ReadResult) :
    Decidable (Allowed size pos results) :=
  match results with
  | [] => inferInstanceAs (Decidable (pos = size))
  | .count n :: rest =>
    have := decidableAllowed size (pos + n) rest
    inferInstanceAs (Decidable (_ ∧ _))
  | .error :: rest => decidableAllowed size pos rest

/-! ## One round -/

/-- The copy is defined when the records fit, and then appends them. -/
theorem copyRecords_eq_some_iff (records : Store) (count i : ℕ) (input next : Input) :
    copyRecords records count i input = some next ↔
      (count = 0 ∨ input.allRecords.length + count ≤ input.capacity ∧
        input.allRecords.length + count < intBound) ∧
      next = { input with
        allRecords := input.allRecords ++ recordsFrom records (recSize * i) count } := by
  induction count generalizing i input with
  | zero => simp [copyRecords, eq_comm]
  | succ count ih =>
    rw [copyRecords]
    split
    case isTrue hfits =>
      rw [ih, recordsFrom_succ, Nat.mul_succ]
      simp only [List.length_append, List.length_singleton, List.append_assoc,
        List.singleton_append]
      refine and_congr_left fun _ ↦ ?_
      omega
    case isFalse hfits =>
      have hnot : ¬ (input.allRecords.length + (count + 1) ≤ input.capacity ∧
          input.allRecords.length + (count + 1) < intBound) := by omega
      simp [hnot]

/-- Before each `read` there is room for the records of a full buffer. -/
def Input.Roomy (input : Input) : Prop := input.capacity = input.allRecords.length + bufSize

theorem round_eq_some_iff {records : Store} {rd : ℤ} {input next : Input} (hroomy : input.Roomy) :
    round records rd input = some next ↔
      recordCount rd ≤ bufSize ∧
      input.allRecords.length + recordCount rd + bufSize < intBound ∧
      next.allRecords = input.allRecords ++ recordsFrom records 0 (recordCount rd) ∧
      next.Roomy := by
  unfold Input.Roomy at hroomy ⊢
  rw [round, Option.bind_eq_some_iff]
  constructor
  · rintro ⟨middle, hcopy, hgrow⟩
    obtain ⟨hfits, rfl⟩ := (copyRecords_eq_some_iff ..).mp hcopy
    simp only [grow, List.length_append, length_recordsFrom] at hgrow
    split at hgrow
    case isTrue hlt =>
      cases hgrow
      refine ⟨by omega, hlt, by simp, by simp⟩
    case isFalse => cases hgrow
  · rintro ⟨hcount, hlt, hrecords, hcapacity⟩
    refine ⟨_, (copyRecords_eq_some_iff ..).mpr ⟨by omega, rfl⟩, ?_⟩
    obtain ⟨allRecords, capacity⟩ := next
    simp only at hrecords hcapacity
    simp [grow, hlt, hrecords, hcapacity]

theorem recordCount_natCast {n : ℕ} (hn : n ≤ bufSize * recSize) : recordCount n = n / recSize := by
  have hmod : ((n : ℤ) % 2 ^ 64).toNat = n := by
    simp only [bufSize, recSize] at hn
    omega
  rw [recordCount, hmod]

/-- An error makes the loop run past the array. -/
theorem round_error {records : Store} {input : Input} (hroomy : input.Roomy) :
    round records (-1) input = none := by
  rw [Option.eq_none_iff_forall_ne_some]
  intro next h
  have hcount : recordCount (-1) = 2 ^ 57 - 1 := by decide
  have hle := ((round_eq_some_iff hroomy).mp h).1
  rw [hcount] at hle
  exact absurd hle (by decide)

/-! ## The whole loop -/

/-- The records that lie whole in one of the reads, in order. -/
def wholeRecords (bytes : Store) : (pos : ℕ) → List ReadResult → List Record
  | _, [] => []
  | pos, .count n :: rest =>
    recordsFrom bytes pos (n / recSize) ++ wholeRecords bytes (pos + n) rest
  | pos, .error :: rest => wholeRecords bytes pos rest

/-- One round on the bytes that a `read` has delivered. -/
theorem round_delivered_iff {bytes : Store} {pos n : ℕ} (records : Store) {input next : Input}
    (hn : n ≤ bufSize * recSize) (hroomy : input.Roomy) :
    round (splice records 0 n fun i ↦ bytes (pos + i)) n input = some next ↔
      input.allRecords.length + n / recSize + bufSize < intBound ∧
      next.allRecords = input.allRecords ++ recordsFrom bytes pos (n / recSize) ∧ next.Roomy := by
  have hdelivered : recordsFrom (splice records 0 n fun i ↦ bytes (pos + i)) 0 (n / recSize) =
      recordsFrom bytes pos (n / recSize) := by
    apply recordsFrom_congr
    intro i hi
    rw [Nat.zero_add]
    exact splice_zero_apply_inside _ _ (hi.trans_le (Nat.mul_div_le n recSize))
  have hcount : n / recSize ≤ bufSize := Nat.div_le_of_le_mul (by rwa [Nat.mul_comm])
  rw [round_eq_some_iff hroomy, recordCount_natCast hn, hdelivered]
  simp only [hcount, true_and]

/-- What the loop has stored when it ends. -/
theorem readLoop_stored {file : File} {pos : ℕ} {results : List ReadResult} {records : Store}
    {input next : Input} (hallowed : Allowed file.size pos results) (hroomy : input.Roomy)
    (hrun : readLoop file pos results records input = some next) :
    .error ∉ results ∧ (results = [] ∨ next.allRecords.length + bufSize < intBound) ∧
      next.allRecords = input.allRecords ++ wholeRecords file.bytes pos results := by
  induction results generalizing pos records input with
  | nil =>
    cases hrun
    simp [wholeRecords]
  | cons result rest ih =>
    cases result with
    | error => simp [readLoop, round_error hroomy] at hrun
    | count n =>
      obtain ⟨⟨-, hn, -⟩, hrest⟩ := hallowed
      rw [readLoop, Option.bind_eq_some_iff] at hrun
      obtain ⟨middle, hround, hrun⟩ := hrun
      obtain ⟨hlt, hmiddle, hroomy'⟩ := (round_delivered_iff records hn hroomy).mp hround
      obtain ⟨herror, hbound, hnext⟩ := ih hrest hroomy' hrun
      refine ⟨by simp [herror], Or.inr ?_, ?_⟩
      · obtain rfl | hbound := hbound
        · rw [hnext, hmiddle]
          simpa [wholeRecords] using hlt
        · exact hbound
      · rw [hnext, hmiddle, wholeRecords, List.append_assoc]

/-- Without an error, and as long as the records can be counted, the loop is defined to its end. -/
theorem readLoop_defined {file : File} {pos : ℕ} {results : List ReadResult} (records : Store)
    {input : Input} (hallowed : Allowed file.size pos results) (hroomy : input.Roomy)
    (herror : .error ∉ results)
    (hbound : input.allRecords.length + (wholeRecords file.bytes pos results).length + bufSize <
      intBound) :
    ∃ next, readLoop file pos results records input = some next := by
  induction results generalizing pos records input with
  | nil => exact ⟨input, rfl⟩
  | cons result rest ih =>
    cases result with
    | error => simp at herror
    | count n =>
      obtain ⟨⟨-, hn, -⟩, hrest⟩ := hallowed
      simp only [wholeRecords, List.length_append, length_recordsFrom] at hbound
      let middle : Input := ⟨input.allRecords ++ recordsFrom file.bytes pos (n / recSize),
        (input.allRecords ++ recordsFrom file.bytes pos (n / recSize)).length + bufSize⟩
      have hround : round (splice records 0 n fun i ↦ file.bytes (pos + i)) n input =
          some middle :=
        (round_delivered_iff records hn hroomy).mpr ⟨by omega, rfl, rfl⟩
      have hroomy' : middle.Roomy := rfl
      have hbound' : middle.allRecords.length +
          (wholeRecords file.bytes (pos + n) rest).length + bufSize < intBound := by
        simp only [middle, List.length_append, length_recordsFrom]
        omega
      obtain ⟨next, hnext⟩ := ih (splice records 0 n fun i ↦ file.bytes (pos + i)) hrest hroomy'
        (by simpa using herror) hbound'
      exact ⟨next, by rw [readLoop, hround, Option.bind_some, hnext]⟩

/-! ## Reads that split a record -/

/-- After each read the file offset is at the end of a record or behind the last whole one. -/
def Unsplit (size : ℕ) : (pos : ℕ) → List ReadResult → Prop
  | _, [] => True
  | pos, .count n :: rest =>
    (recSize ∣ pos + n ∨ size / recSize ≤ (pos + n) / recSize) ∧ Unsplit size (pos + n) rest
  | pos, .error :: rest => Unsplit size pos rest

/-- Behind the last whole record nothing is stored or split. -/
theorem wholeRecords_rest (bytes : Store) {size pos : ℕ} {results : List ReadResult}
    (hallowed : Allowed size pos results) (hpos : size / recSize ≤ pos / recSize) :
    wholeRecords bytes pos results = [] ∧ Unsplit size pos results := by
  induction results generalizing pos with
  | nil => exact ⟨rfl, trivial⟩
  | cons result rest ih =>
    cases result with
    | error => exact ih hallowed hpos
    | count n =>
      obtain ⟨⟨-, -, hend⟩, hrest⟩ := hallowed
      simp only [recSize] at hpos ih ⊢
      have hnext : size / 128 ≤ (pos + n) / 128 := hpos.trans (by omega)
      have hnone : n / 128 = 0 := by omega
      obtain ⟨hwhole, hunsplit⟩ := ih hrest hnext
      refine ⟨?_, Or.inr hnext, hunsplit⟩
      rw [wholeRecords, hwhole, recSize, hnone]
      rfl

/-- The records of zeroed bytes. -/
theorem wholeRecords_zero {bytes : Store} {pos : ℕ} (hzero : ∀ i ≥ pos, bytes i = 0)
    (results : List ReadResult) :
    ∀ record ∈ wholeRecords bytes pos results, record = fun _ ↦ 0 := by
  induction results generalizing pos with
  | nil => simp [wholeRecords]
  | cons result rest ih =>
    cases result with
    | error => exact ih hzero
    | count n =>
      intro record hrecord
      obtain hfirst | hrest := List.mem_append.mp hrecord
      · obtain ⟨k, -, rfl⟩ := List.mem_map.mp hfirst
        funext j
        exact hzero _ (by omega)
      · exact ih (fun i hi ↦ hzero i (by omega)) record hrest

/-- A record that is split is lost: with a mark in it, what is stored differs from the file. -/
theorem exists_lost {size pos n : ℕ} (hpos : recSize ∣ pos) (hsplit : ¬ recSize ∣ pos + n)
    (hlast : (pos + n) / recSize < size / recSize) (rest : List ReadResult) :
    ∃ bytes : Store, wholeRecords bytes pos (.count n :: rest) ≠
      recordsFrom bytes pos ((size - pos) / recSize) := by
  let mark := recSize * ((pos + n) / recSize)
  let bytes : Store := fun i ↦ if i = mark then 1 else 0
  refine ⟨bytes, fun h ↦ ?_⟩
  obtain ⟨q, rfl⟩ := hpos
  have hmark : recSize * q + recSize * (n / recSize) = mark := by
    simp only [mark, recSize]
    omega
  have hcount : (size - recSize * q) / recSize =
      n / recSize + ((size - recSize * q) / recSize - n / recSize - 1 + 1) := by
    simp only [recSize] at hlast ⊢
    omega
  rw [wholeRecords, hcount, recordsFrom_add, List.append_cancel_left_eq, recordsFrom_succ,
    hmark] at h
  have hlater (i : ℕ) (hi : i ≥ recSize * q + n) : bytes i = 0 := by
    apply if_neg
    have hlt : mark < recSize * q + n := by
      simp only [mark, recSize] at hsplit ⊢
      omega
    omega
  have hzero := wholeRecords_zero hlater rest (recordAt bytes mark) (by simp [h])
  have hbyte := congrFun hzero ⟨0, by decide⟩
  simp [recordAt, bytes] at hbyte

/-- Whatever the file holds, all its records are stored, exactly when no record is split. -/
theorem wholeRecords_eq_iff {size pos : ℕ} {results : List ReadResult} (hpos : recSize ∣ pos)
    (hallowed : Allowed size pos results) :
    (∀ bytes, wholeRecords bytes pos results = recordsFrom bytes pos ((size - pos) / recSize)) ↔
      Unsplit size pos results := by
  induction results generalizing pos with
  | nil =>
    have hend : pos = size := hallowed
    simp [hend, wholeRecords, Unsplit]
  | cons result rest ih =>
    cases result with
    | error => exact ih hpos hallowed
    | count n =>
      obtain ⟨⟨-, -, hend⟩, hrest⟩ := hallowed
      rw [Unsplit]
      by_cases hdvd : recSize ∣ pos + n
      · obtain ⟨m, rfl⟩ := (Nat.dvd_add_right hpos).mp hdvd
        have hcount : (size - pos) / recSize = m + (size - (pos + recSize * m)) / recSize := by
          simp only [recSize] at hend ⊢
          omega
        have hm : recSize * m / recSize = m := Nat.mul_div_cancel_left m (by decide)
        simp only [hdvd, true_or, true_and, ← ih hdvd hrest, wholeRecords, hcount, recordsFrom_add,
          hm, List.append_cancel_left_eq]
      · by_cases hlast : size / recSize ≤ (pos + n) / recSize
        · have hcount : (size - pos) / recSize = n / recSize := by
            obtain ⟨q, rfl⟩ := hpos
            simp only [recSize] at hend hlast ⊢
            omega
          simp only [hlast, or_true, true_and, (wholeRecords_rest (fun _ ↦ 0) hrest hlast).2,
            iff_true]
          intro bytes
          rw [wholeRecords, (wholeRecords_rest bytes hrest hlast).1, List.append_nil, hcount]
        · obtain ⟨bytes, hbytes⟩ := exists_lost hpos hdvd (Nat.lt_of_not_le hlast) rest
          simp only [hdvd, hlast, or_self, false_and, iff_false, not_forall]
          exact ⟨bytes, hbytes⟩

/-! ## The input is read whole -/

/-- Whatever the buffer holds at first, every store is within the allocation, the loop ends, and
without an error the array then holds the records of the file. -/
def ReadsAll (file : File) (results : List ReadResult) : Prop :=
  ∀ records, ∃ input, readLoop file 0 results records Input.empty = some input ∧
    (.error ∉ results → input.allRecords = fileRecords file)

theorem Input.empty_roomy : Input.empty.Roomy := rfl

theorem readsAll_iff (file : File) {results : List ReadResult}
    (hallowed : Allowed file.size 0 results) :
    ReadsAll file results ↔ .error ∉ results ∧ file.size / recSize + bufSize < intBound ∧
      wholeRecords file.bytes 0 results = fileRecords file := by
  have hlength : (fileRecords file).length = file.size / recSize := length_recordsFrom ..
  constructor
  · intro h
    obtain ⟨input, hrun, hrecords⟩ := h fun _ ↦ 0
    obtain ⟨herror, hbound, hstored⟩ := readLoop_stored hallowed Input.empty_roomy hrun
    have hwhole : wholeRecords file.bytes 0 results = fileRecords file := by
      rw [← hrecords herror, hstored]
      rfl
    refine ⟨herror, ?_, hwhole⟩
    obtain rfl | hbound := hbound
    · have hempty : 0 = file.size := hallowed
      rw [← hempty]
      decide
    · rwa [hrecords herror, hlength] at hbound
  · rintro ⟨herror, hbound, hwhole⟩ records
    have hstored : Input.empty.allRecords.length + (wholeRecords file.bytes 0 results).length +
        bufSize < intBound := by
      rw [hwhole, hlength]
      simpa [Input.empty] using hbound
    obtain ⟨input, hrun⟩ :=
      readLoop_defined records hallowed Input.empty_roomy herror hstored
    refine ⟨input, hrun, fun _ ↦ ?_⟩
    rw [(readLoop_stored hallowed Input.empty_roomy hrun).2.2, hwhole]
    rfl

/-- The loop reads a file whole exactly when no `read` fails, the records can be counted in an `int`
and the records that lie whole in one of the reads are those of the file. The last is so for all
contents of the file exactly when no record is split between two reads. -/
theorem reads_all_iff_unsplit {size : ℕ} {results : List ReadResult}
    (hallowed : Allowed size 0 results) :
    (∀ bytes, ReadsAll ⟨bytes, size⟩ results ↔
      .error ∉ results ∧ size / recSize + bufSize < intBound ∧
        wholeRecords bytes 0 results = fileRecords ⟨bytes, size⟩) ∧
    ((∀ bytes, ReadsAll ⟨bytes, size⟩ results) ↔
      .error ∉ results ∧ size / recSize + bufSize < intBound ∧ Unsplit size 0 results) := by
  have hiff (bytes : Store) := readsAll_iff ⟨bytes, size⟩ hallowed
  refine ⟨hiff, ?_⟩
  have hunsplit := wholeRecords_eq_iff (Nat.dvd_zero recSize) hallowed
  simp only [Nat.sub_zero] at hunsplit
  simp only [hiff, forall_and, forall_const, ← hunsplit, fileRecords]

/-- A file of three records and four bytes, read in two parts. -/
theorem two_reads_at_record_end :
    Allowed 388 0 [.count 256, .count 132] ∧
      ∀ bytes, ReadsAll ⟨bytes, 388⟩ [.count 256, .count 132] := by
  have hallowed : Allowed 388 0 [.count 256, .count 132] := by decide
  have hunsplit : Unsplit 388 0 [.count 256, .count 132] :=
    ⟨Or.inl ⟨2, rfl⟩, Or.inr (by decide), trivial⟩
  exact ⟨hallowed, (reads_all_iff_unsplit hallowed).2.mpr ⟨by decide, by decide, hunsplit⟩⟩

/-- One record that is read in two halves is not stored, and a failing `read` makes the loop store
outside of the array. -/
theorem halves_and_error_not_read :
    (Allowed 128 0 [.count 64, .count 64] ∧
      ¬ ReadsAll ⟨fun _ ↦ 0, 128⟩ [.count 64, .count 64]) ∧
    Allowed 0 0 [.error] ∧ ¬ ReadsAll ⟨fun _ ↦ 0, 0⟩ [.error] := by
  have hhalves : Allowed 128 0 [.count 64, .count 64] := by decide
  have herror : Allowed 0 0 [.error] := by decide
  refine ⟨⟨hhalves, fun h ↦ ?_⟩, herror, fun h ↦ ?_⟩
  · have hwhole := ((readsAll_iff ⟨fun _ ↦ 0, 128⟩ hhalves).mp h).2.2
    have hlength := congrArg List.length hwhole
    simp [wholeRecords, fileRecords, recSize] at hlength
  · exact absurd ((readsAll_iff ⟨fun _ ↦ 0, 0⟩ herror).mp h).1 (by decide)

end OS537.Fastsort
