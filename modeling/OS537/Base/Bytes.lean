import Mathlib.Data.BitVec
import Mathlib.Tactic.Ring

/-!
# Byte stores and little-endian words

A file image, a stack buffer and a heap are all functions from addresses to bytes. Words are
read and written in little-endian order, and `splice` overwrites one interval of a store by the
start of another. Every lemma about a store is a statement about the interval it reads, so a
write elsewhere is discharged by disjointness alone.
-/

namespace OS537.Bytes

abbrev Byte := BitVec 8
abbrev Word := BitVec 32

instance lawfulBEqWord : LawfulBEq Word := inferInstance

/-- One byte at every address. The length of a buffer or a file is kept beside its store. -/
abbrev Store := ℕ → Byte

/-- The two stores hold the same bytes at the addresses from `lo` up to `hi`. -/
def AgreeOn (first second : Store) (lo hi : ℕ) : Prop :=
  ∀ i, lo ≤ i → i < hi → first i = second i

theorem AgreeOn.mono {first second : Store} {lo hi lo' hi' : ℕ} (h : AgreeOn first second lo hi)
    (hlo : lo ≤ lo') (hhi : hi' ≤ hi) : AgreeOn first second lo' hi' :=
  fun i hl hh ↦ h i (hlo.trans hl) (hh.trans_le hhi)

theorem AgreeOn.symm {first second : Store} {lo hi : ℕ} (h : AgreeOn first second lo hi) :
    AgreeOn second first lo hi :=
  fun i hl hh ↦ (h i hl hh).symm

theorem AgreeOn.trans {first second third : Store} {lo hi : ℕ}
    (h : AgreeOn first second lo hi) (h' : AgreeOn second third lo hi) :
    AgreeOn first third lo hi :=
  fun i hl hh ↦ (h i hl hh).trans (h' i hl hh)

/-! ## Splicing -/

/-- The first `n` bytes of `source` replace those of `store` from `addr` on. -/
def splice (store : Store) (addr n : ℕ) (source : Store) : Store :=
  fun i ↦ if addr ≤ i ∧ i < addr + n then source (i - addr) else store i

theorem splice_apply_inside (store source : Store) {addr n i : ℕ} (h : i < n) :
    splice store addr n source (addr + i) = source i := by
  have hin : addr ≤ addr + i ∧ addr + i < addr + n := by omega
  simp only [splice, if_pos hin, Nat.add_sub_cancel_left]

theorem splice_zero_apply_inside (store source : Store) {n i : ℕ} (h : i < n) :
    splice store 0 n source i = source i := by
  have hsplice : splice store 0 n source (0 + i) = source i := splice_apply_inside store source h
  rwa [Nat.zero_add] at hsplice

theorem splice_apply_outside (store source : Store) {addr n i : ℕ} (h : i < addr ∨ addr + n ≤ i) :
    splice store addr n source i = store i := by
  have hout : ¬ (addr ≤ i ∧ i < addr + n) := by omega
  simp only [splice, if_neg hout]

/-- A splice into a part of a store. -/
theorem splice_add (store source : Store) (base addr n i : ℕ) :
    splice store (base + addr) n source (base + i) =
      splice (fun i ↦ store (base + i)) addr n source i := by
  simp only [splice, Nat.add_assoc, Nat.add_le_add_iff_left, Nat.add_lt_add_iff_left,
    Nat.add_sub_add_left]

/-- Two splices, one after the other, of the two parts of a source. -/
theorem splice_append (store source : Store) (addr m n : ℕ) :
    splice (splice store addr m source) (addr + m) n (fun i ↦ source (m + i)) =
      splice store addr (m + n) source := by
  funext i
  simp only [splice]
  by_cases hsecond : addr + m ≤ i ∧ i < addr + m + n
  · have hboth : addr ≤ i ∧ i < addr + (m + n) := by omega
    have hindex : m + (i - (addr + m)) = i - addr := by omega
    rw [if_pos hsecond, if_pos hboth, hindex]
  · rw [if_neg hsecond]
    by_cases hfirst : addr ≤ i ∧ i < addr + m
    · have hboth : addr ≤ i ∧ i < addr + (m + n) := by omega
      rw [if_pos hfirst, if_pos hboth]
    · have hneither : ¬ (addr ≤ i ∧ i < addr + (m + n)) := by omega
      rw [if_neg hfirst, if_neg hneither]

/-- A splice leaves every interval alone that it does not meet. -/
theorem agreeOn_splice (store source : Store) {addr n lo hi : ℕ}
    (h : hi ≤ addr ∨ addr + n ≤ lo) : AgreeOn (splice store addr n source) store lo hi := by
  intro i hl hh
  exact splice_apply_outside store source (by omega)

/-- Splices at intervals that do not meet commute. -/
theorem splice_comm (store first second : Store) {addr n addr' n' : ℕ}
    (h : addr + n ≤ addr' ∨ addr' + n' ≤ addr) :
    splice (splice store addr n first) addr' n' second =
      splice (splice store addr' n' second) addr n first := by
  funext i
  simp only [splice]
  by_cases hfirst : addr ≤ i ∧ i < addr + n
  · have hsecond : ¬ (addr' ≤ i ∧ i < addr' + n') := by omega
    rw [if_neg hsecond, if_pos hfirst, if_pos hfirst]
  · rw [if_neg hfirst, if_neg hfirst]

/-! ## Little-endian numbers -/

/-- The number whose `n` bytes stand at `addr`, least significant byte first. -/
def loadLE (store : Store) : (addr n : ℕ) → ℕ
  | _, 0 => 0
  | addr, n + 1 => (store addr).toNat + 256 * loadLE store (addr + 1) n

/-- Byte `i` of the little-endian form of `value`. -/
def encodeLE (value : ℕ) : Store := fun i ↦ BitVec.ofNat 8 (value / 256 ^ i)

theorem loadLE_congr {first second : Store} (addr addr' n : ℕ)
    (h : ∀ i < n, first (addr + i) = second (addr' + i)) :
    loadLE first addr n = loadLE second addr' n := by
  induction n generalizing addr addr' with
  | zero => rfl
  | succ n ih =>
    have hhead := h 0 (by omega)
    simp only [Nat.add_zero] at hhead
    rw [loadLE, loadLE, hhead, ih (addr + 1) (addr' + 1)]
    intro i hi
    have hnext := h (i + 1) (by omega)
    rwa [← Nat.add_assoc, ← Nat.add_assoc, Nat.add_right_comm addr,
      Nat.add_right_comm addr'] at hnext

theorem AgreeOn.loadLE_eq {first second : Store} {lo hi addr n : ℕ} (h : AgreeOn first second lo hi)
    (hlo : lo ≤ addr) (hhi : addr + n ≤ hi) : loadLE first addr n = loadLE second addr n :=
  loadLE_congr addr addr n fun i hi' ↦ h (addr + i) (by omega) (by omega)

theorem loadLE_splice_inside (store source : Store) {addr n i len : ℕ} (h : i + len ≤ n) :
    loadLE (splice store addr n source) (addr + i) len = loadLE source i len := by
  apply loadLE_congr
  intro j hj
  rw [Nat.add_assoc]
  exact splice_apply_inside store source (by omega)

theorem loadLE_encodeLE (value i n : ℕ) :
    loadLE (encodeLE value) i n = value / 256 ^ i % 256 ^ n := by
  induction n generalizing i with
  | zero => simp [loadLE, Nat.mod_one]
  | succ n ih =>
    have hstep : value / 256 ^ (i + 1) = value / 256 ^ i / 256 := by
      rw [pow_succ, Nat.div_div_eq_div_mul]
    rw [loadLE, ih, hstep, pow_succ, Nat.mul_comm (256 ^ n), Nat.mod_mul]
    simp [encodeLE]

/-! ## Words -/

/-- The 32-bit word at `addr`. -/
def load32 (store : Store) (addr : ℕ) : Word := BitVec.ofNat 32 (loadLE store addr 4)

def store32 (store : Store) (addr : ℕ) (word : Word) : Store :=
  splice store addr 4 (encodeLE word.toNat)

theorem AgreeOn.load32_eq {first second : Store} {lo hi addr : ℕ} (h : AgreeOn first second lo hi)
    (hlo : lo ≤ addr) (hhi : addr + 4 ≤ hi) : load32 first addr = load32 second addr := by
  rw [load32, load32, h.loadLE_eq hlo hhi]

theorem load32_splice_inside (store source : Store) {addr n i : ℕ} (h : i + 4 ≤ n) :
    load32 (splice store addr n source) (addr + i) = load32 source i := by
  rw [load32, load32, loadLE_splice_inside store source h]

theorem load32_encodeLE (word : Word) : load32 (encodeLE word.toNat) 0 = word := by
  apply BitVec.eq_of_toNat_eq
  rw [load32, loadLE_encodeLE, BitVec.toNat_ofNat]
  have hword := word.isLt
  norm_num
  omega

theorem load32_store32_same (store : Store) (addr : ℕ) (word : Word) :
    load32 (store32 store addr word) addr = word := by
  have h : load32 (store32 store addr word) (addr + 0) = load32 (encodeLE word.toNat) 0 :=
    load32_splice_inside store (encodeLE word.toNat) le_rfl
  exact h.trans (load32_encodeLE word)

theorem agreeOn_store32 (store : Store) (word : Word) {addr lo hi : ℕ}
    (h : hi ≤ addr ∨ addr + 4 ≤ lo) : AgreeOn (store32 store addr word) store lo hi :=
  agreeOn_splice store _ h

theorem load32_store32_other (store : Store) (word : Word) {addr other : ℕ}
    (h : other + 4 ≤ addr ∨ addr + 4 ≤ other) :
    load32 (store32 store addr word) other = load32 store other :=
  (agreeOn_store32 store word h).load32_eq le_rfl le_rfl

/-- The bytes of an array of words. -/
def wordBytes (words : ℕ → Word) : Store :=
  fun i ↦ BitVec.ofNat 8 ((words (i / 4)).toNat / 256 ^ (i % 4))

theorem load32_wordBytes (words : ℕ → Word) (k : ℕ) :
    load32 (wordBytes words) (4 * k) = words k := by
  rw [← load32_encodeLE (words k), load32, load32]
  congr 1
  apply loadLE_congr
  intro i hi
  have hdiv : (4 * k + i) / 4 = k := by omega
  have hmod : (4 * k + i) % 4 = 0 + i := by omega
  simp only [wordBytes, encodeLE, hdiv, hmod]

/-! ## Pointers -/

abbrev Ptr := BitVec 64

/-- The pointer at `addr`. -/
def load64 (store : Store) (addr : ℕ) : Ptr := BitVec.ofNat 64 (loadLE store addr 8)

def store64 (store : Store) (addr : ℕ) (ptr : Ptr) : Store :=
  splice store addr 8 (encodeLE ptr.toNat)

theorem AgreeOn.load64_eq {first second : Store} {lo hi addr : ℕ} (h : AgreeOn first second lo hi)
    (hlo : lo ≤ addr) (hhi : addr + 8 ≤ hi) : load64 first addr = load64 second addr := by
  rw [load64, load64, h.loadLE_eq hlo hhi]

theorem load64_store64_same (store : Store) (addr : ℕ) (ptr : Ptr) :
    load64 (store64 store addr ptr) addr = ptr := by
  have hload : loadLE (store64 store addr ptr) (addr + 0) 8 = loadLE (encodeLE ptr.toNat) 0 8 :=
    loadLE_splice_inside store (encodeLE ptr.toNat) le_rfl
  rw [Nat.add_zero] at hload
  apply BitVec.eq_of_toNat_eq
  rw [load64, hload, loadLE_encodeLE, BitVec.toNat_ofNat]
  have hptr := ptr.isLt
  norm_num
  omega

theorem agreeOn_store64 (store : Store) (ptr : Ptr) {addr lo hi : ℕ}
    (h : hi ≤ addr ∨ addr + 8 ≤ lo) : AgreeOn (store64 store addr ptr) store lo hi :=
  agreeOn_splice store _ h

end OS537.Bytes
