import OS537.Base.Bytes

/-!
# Files with an offset

The part of the POSIX file interface the file server uses: an image of a given size, positioned
reads that stop at the end of the file, and positioned writes that extend it. Bytes between the
old end and a write past it read as zero.
-/

namespace OS537.Posix

open Bytes

structure File where
  bytes : Store
  size : ℕ

/-- The empty file. -/
def File.empty : File := ⟨fun _ ↦ 0, 0⟩

/-- The file after `n` bytes of `source` are written at `offset`. -/
def File.pwrite (file : File) (offset n : ℕ) (source : Store) : File where
  bytes := splice (fun i ↦ if i < file.size then file.bytes i else 0) offset n source
  size := max file.size (offset + n)

/-- How many of `n` bytes a read at `offset` delivers. -/
def File.available (file : File) (offset n : ℕ) : ℕ := min n (file.size - offset)

/-- The buffer after a read of `n` bytes at `offset`: a short read leaves the rest as it was. -/
def File.pread (file : File) (offset n : ℕ) (buffer : Store) : Store :=
  splice buffer 0 (file.available offset n) fun i ↦ file.bytes (offset + i)

theorem File.agreeOn_pwrite (file : File) (source : Store) {offset n lo hi : ℕ}
    (hsize : hi ≤ file.size) (h : hi ≤ offset ∨ offset + n ≤ lo) :
    AgreeOn (file.pwrite offset n source).bytes file.bytes lo hi := by
  intro i hl hh
  have hlt : i < file.size := by omega
  have hout : i < offset ∨ offset + n ≤ i := by omega
  simp only [File.pwrite, splice_apply_outside _ _ hout, if_pos hlt]

theorem File.pwrite_inside (file : File) (source : Store) {offset n i : ℕ} (h : i < n) :
    (file.pwrite offset n source).bytes (offset + i) = source i := by
  simp only [File.pwrite, splice_apply_inside _ _ h]

@[simp]
theorem File.pwrite_size (file : File) (source : Store) (offset n : ℕ) :
    (file.pwrite offset n source).size = max file.size (offset + n) := rfl

theorem File.available_eq_of_le (file : File) {offset n : ℕ} (h : offset + n ≤ file.size) :
    file.available offset n = n := by
  rw [File.available]
  omega

/-- A read that ends inside the file fills the whole of its part of the buffer. -/
theorem File.pread_apply_of_le (file : File) (buffer : Store) {offset n i : ℕ}
    (h : offset + n ≤ file.size) (hi : i < n) :
    file.pread offset n buffer i = file.bytes (offset + i) := by
  rw [File.pread, file.available_eq_of_le h, splice_zero_apply_inside _ _ hi]

/-- Two reads of the same bytes deliver the same buffer. -/
theorem File.pread_congr {first second : File} (buffer : Store) {offset offset' n : ℕ}
    (hfirst : offset + n ≤ first.size) (hsecond : offset' + n ≤ second.size)
    (h : ∀ i < n, second.bytes (offset' + i) = first.bytes (offset + i)) :
    second.pread offset' n buffer = first.pread offset n buffer := by
  funext i
  unfold File.pread
  rw [first.available_eq_of_le hfirst, second.available_eq_of_le hsecond]
  by_cases hi : i < n
  · rw [splice_zero_apply_inside _ _ hi, splice_zero_apply_inside _ _ hi]
    exact h i hi
  · have hout : i < 0 ∨ 0 + n ≤ i := by omega
    rw [splice_apply_outside _ _ hout, splice_apply_outside _ _ hout]

theorem File.load32_pread (file : File) (buffer : Store) {offset n i : ℕ}
    (h : offset + n ≤ file.size) (hi : i + 4 ≤ n) :
    load32 (file.pread offset n buffer) i = load32 file.bytes (offset + i) := by
  unfold load32
  congr 1
  apply loadLE_congr
  intro j hj
  rw [file.pread_apply_of_le buffer h (by omega), Nat.add_assoc]

/-! ## Records in a file -/

/-- The first `n` bytes of `source` stand at `pos` in the file. -/
structure File.Holds (file : File) (pos n : ℕ) (source : Store) : Prop where
  fits : pos + n ≤ file.size
  bytes : ∀ i < n, file.bytes (pos + i) = source i

theorem File.holds_pwrite (file : File) (pos n : ℕ) (source : Store) :
    (file.pwrite pos n source).Holds pos n source where
  fits := le_max_right _ _
  bytes := fun _ hi ↦ file.pwrite_inside source hi

/-- A write that does not meet a record leaves it. -/
theorem File.Holds.pwrite {file : File} {pos n : ℕ} {source : Store} (h : file.Holds pos n source)
    {offset m : ℕ} (other : Store) (hapart : pos + n ≤ offset ∨ offset + m ≤ pos) :
    (file.pwrite offset m other).Holds pos n source where
  fits := le_max_of_le_left h.fits
  bytes := by
    intro i hi
    rw [← h.bytes i hi]
    exact file.agreeOn_pwrite other h.fits hapart _ (Nat.le_add_right _ _) (by omega)

/-- A record stays where the bytes of the file stay. -/
theorem File.Holds.of_agree {file other : File} {pos n lo hi : ℕ} {source : Store}
    (h : file.Holds pos n source) (hagree : AgreeOn other.bytes file.bytes lo hi)
    (hsize : hi ≤ other.size) (hlow : lo ≤ pos) (hhigh : pos + n ≤ hi) :
    other.Holds pos n source where
  fits := hhigh.trans hsize
  bytes := fun i hi ↦ (hagree _ (by omega) (by omega)).trans (h.bytes i hi)

/-- A read of a record delivers all of it. -/
theorem File.Holds.pread {file : File} {pos n : ℕ} {source : Store} (h : file.Holds pos n source)
    (buffer : Store) : AgreeOn (file.pread pos n buffer) source 0 n := by
  intro i _ hi
  rw [file.pread_apply_of_le buffer h.fits hi, h.bytes i hi]

theorem File.Holds.load32_eq {file : File} {pos n i : ℕ} {source : Store}
    (h : file.Holds pos n source) (hi : i + 4 ≤ n) :
    load32 file.bytes (pos + i) = load32 source i := by
  unfold load32
  congr 1
  apply loadLE_congr
  intro j hj
  rw [Nat.add_assoc]
  exact h.bytes (i + j) (by omega)

end OS537.Posix
