import Mathlib.Computability.Language
import OS537.Base.Strtok

/-!
# The patterns of `grep`

The matcher of `grep.c` goes through pattern and text character by character. A pattern stands for a
language, and the matcher accepts the lines of that language.
-/

namespace OS537.Grep

open Computability Strtok

/-! ## The code -/

/-- `matchstar`; the second argument matches the pattern behind the star. -/
def matchstar (c : Char) (matchrest : List Char → Bool) : List Char → Bool
  | [] => matchrest []
  | a :: text => matchrest (a :: text) || ((a = c || c = '.') && matchstar c matchrest text)

def matchhere : (re text : List Char) → Bool
  | [], _ => true
  | c :: '*' :: re, text => matchstar c (matchhere re) text
  | ['$'], text => text.isEmpty
  | _ :: _, [] => false
  | c :: re, a :: text => (c = '.' || c = a) && matchhere re text

/-- The loop of `match`. -/
def matchany (re : List Char) : (text : List Char) → Bool
  | [] => matchhere re []
  | a :: text => matchhere re (a :: text) || matchany re text

def «match» (re text : CString) : Bool :=
  match re.chars with
  | '^' :: re => matchhere re text.chars
  | re => matchany re text.chars

/-! ## The languages -/

/-- The texts of one character that a character of a pattern stands for. -/
def one (c : Char) : Language Char := {text | ∃ a, text = [a] ∧ (c = '.' ∨ c = a)}

/-- The texts that begin as the pattern says; `$` at its end asks for the end of the text. -/
def begins : List Char → Language Char
  | [] => ⊤
  | c :: '*' :: re => (one c)∗ * begins re
  | ['$'] => 1
  | c :: re => one c * begins re

/-- Without `^` the pattern may be met anywhere in the text. -/
def language : List Char → Language Char
  | '^' :: re => begins re
  | re => {text | ∃ rest ∈ begins re, rest <:+ text}

variable {c : Char} {re text : List Char}

theorem cons_mem_one_mul {a : Char} {rest : Language Char} :
    a :: text ∈ one c * rest ↔ (c = '.' ∨ c = a) ∧ text ∈ rest := by
  rw [Language.mem_mul]
  constructor
  · rintro ⟨_, ⟨a', rfl, hc⟩, rest', hrest, heq⟩
    cases heq
    exact ⟨hc, hrest⟩
  · rintro ⟨hc, htext⟩
    exact ⟨[a], ⟨a, rfl, hc⟩, text, htext, rfl⟩

theorem nil_notMem_one_mul {rest : Language Char} : [] ∉ one c * rest := by
  rw [Language.mem_mul]
  rintro ⟨_, ⟨a, rfl, -⟩, rest', -, heq⟩
  cases heq

theorem matchstar_iff {matchrest : List Char → Bool} {rest : Language Char}
    (hrest : ∀ text, matchrest text ↔ text ∈ rest) (text : List Char) :
    matchstar c matchrest text ↔ text ∈ (one c)∗ * rest := by
  have hstar (text : List Char) : text ∈ (one c)∗ * rest ↔
      text ∈ rest ∨ text ∈ one c * ((one c)∗ * rest) := by
    rw [← mul_assoc, ← Language.mem_add, ← one_add_mul, Language.one_add_self_mul_kstar_eq_kstar]
  induction text with
  | nil => simp [matchstar, hrest, hstar, nil_notMem_one_mul]
  | cons a text ih =>
    rw [hstar, cons_mem_one_mul, matchstar, Bool.or_eq_true, hrest, Bool.and_eq_true]
    refine or_congr_right (and_congr ?_ ih)
    grind

theorem matchhere_iff (re text : List Char) : matchhere re text ↔ text ∈ begins re := by
  induction re using begins.induct generalizing text with
  | case1 => exact iff_of_true rfl trivial
  | case2 c re ih => exact matchstar_iff ih text
  | case3 => simp [matchhere, begins, Language.mem_one]
  | case4 c re hstar hdollar ih =>
    rw [begins.eq_4 c re hstar hdollar]
    cases text with
    | nil =>
      rw [matchhere.eq_4 _ _ hstar hdollar]
      exact iff_of_false Bool.false_ne_true nil_notMem_one_mul
    | cons a text =>
      rw [matchhere.eq_5 _ _ _ _ hstar hdollar, cons_mem_one_mul, Bool.and_eq_true, ih]
      simp

theorem matchany_iff (re text : List Char) :
    matchany re text ↔ ∃ rest ∈ begins re, rest <:+ text := by
  induction text with
  | nil => simp [matchany, matchhere_iff]
  | cons a text ih =>
    rw [matchany, Bool.or_eq_true, matchhere_iff, ih]
    simp [List.suffix_cons_iff, and_or_left, exists_or]

/-- `match` accepts a text exactly if it is in the language of the pattern. -/
theorem match_iff_mem_language (re text : CString) :
    «match» re text ↔ text.chars ∈ language re.chars := by
  obtain ⟨re, hre⟩ := re
  unfold «match»
  fun_cases language re with
  | case1 re => exact matchhere_iff re text.chars
  | case2 re hcaret =>
    split
    next caret => exact (hcaret _ caret).elim
    next => exact matchany_iff re text.chars

end OS537.Grep
