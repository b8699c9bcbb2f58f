import Mathlib.Data.List.TakeWhile

/-!
# Strings of C and `strtok`

`strtok` skips delimiters, takes the run up to the next one, and goes on behind it in the next
call, where the set of delimiters may be another one. Called with one set to the end of the text,
it gives the words of the text: the maximal runs without a delimiter.
-/

namespace OS537.Strtok

/-- A C string: its characters, none of which is the terminating NUL. -/
structure CString where
  chars : List Char
  no_nul : '\x00' ∉ chars

variable {α : Type*} (delim : α → Bool)

/-- The maximal runs of a text without a delimiter. -/
def words (text : List α) : List (List α) := (text.splitOnP delim).filter fun word ↦ !word.isEmpty

/-- The token that `strtok` finds and the text behind the delimiter that ends it. -/
def strtok (text : List α) : Option (List α × List α) :=
  match text.dropWhile delim with
  | [] => none
  | char :: rest =>
    some ((char :: rest).takeWhile (!delim ·), ((char :: rest).dropWhile (!delim ·)).drop 1)

variable {delim} {text token rest : List α} {char : α}

/-! ## Words -/

@[simp]
theorem words_nil : words delim [] = [] := by simp [words]

theorem words_append_cons (before behind : List α) (hchar : delim char = true) :
    words delim (before ++ char :: behind) = words delim before ++ words delim behind := by
  rw [words, List.splitOnP_append_cons _ _ hchar, List.filter_append]
  rfl

theorem words_cons (behind : List α) (hchar : delim char = true) :
    words delim (char :: behind) = words delim behind := by
  have h := words_append_cons [] behind hchar
  rwa [words_nil, List.nil_append, List.nil_append] at h

theorem words_eq_singleton (hclean : ∀ char ∈ text, delim char = false) (hne : text ≠ []) :
    words delim text = [text] := by
  rw [words, List.splitOnP_eq_singleton hclean]
  simp [hne]

theorem words_dropWhile (text : List α) :
    words delim (text.dropWhile delim) = words delim text := by
  induction text with
  | nil => rfl
  | cons char rest ih =>
    rw [List.dropWhile_cons]
    split
    case isTrue hchar => rw [ih, words_cons rest hchar]
    case isFalse => rfl

theorem words_congr {other : α → Bool} (h : ∀ char ∈ text, delim char = other char) :
    words delim text = words other text := by
  have hsplit : text.splitOnP delim = text.splitOnP other := by
    induction text with
    | nil => rfl
    | cons char rest ih =>
      rw [List.splitOnP_cons_eq_if_modifyHead, List.splitOnP_cons_eq_if_modifyHead,
        h char List.mem_cons_self, ih fun char hchar ↦ h char (List.mem_cons_of_mem _ hchar)]
  rw [words, words, hsplit]

theorem words_eq_nil (hall : ∀ char ∈ text, delim char = true) : words delim text = [] := by
  rw [← words_dropWhile, List.dropWhile_eq_nil_iff.mpr hall, words_nil]

/-! ## One call -/

/-- Delimiters, the token, and the end of the text or a delimiter with the text behind it. -/
theorem strtok_parts (h : strtok delim text = some (token, rest)) :
    ∃ skipped tail, text = skipped ++ (token ++ tail) ∧ (∀ c ∈ skipped, delim c = true) ∧
      token ≠ [] ∧ (∀ c ∈ token, delim c = false) ∧
      (tail = [] ∧ rest = [] ∨ ∃ c, delim c = true ∧ tail = c :: rest) := by
  unfold strtok at h
  cases hskip : text.dropWhile delim with
  | nil =>
    rw [hskip] at h
    cases h
  | cons first behind =>
    rw [hskip] at h
    cases h
    have hfirst : delim first = false := by
      have hhead := List.head_dropWhile_not delim (l := text) (by simp [hskip])
      simpa [hskip] using hhead
    refine ⟨text.takeWhile delim, (first :: behind).dropWhile (!delim ·), ?_, ?_, ?_, ?_, ?_⟩
    · rw [List.takeWhile_append_dropWhile, ← hskip, List.takeWhile_append_dropWhile]
    · exact fun c hc ↦ List.mem_takeWhile_imp hc
    · simp [hfirst]
    · exact fun c hc ↦ by simpa using List.mem_takeWhile_imp hc
    · cases htail : (first :: behind).dropWhile (!delim ·) with
      | nil => exact Or.inl ⟨rfl, rfl⟩
      | cons c rest =>
        have hhead := List.head_dropWhile_not (!delim ·) (l := first :: behind) (by simp [htail])
        exact Or.inr ⟨c, by simpa [htail] using hhead, rfl⟩

/-- The token is the first word, and the other words stand behind it. -/
theorem words_of_strtok (h : strtok delim text = some (token, rest)) :
    words delim text = token :: words delim rest := by
  obtain ⟨skipped, tail, rfl, hskipped, hne, hclean, htail⟩ := strtok_parts h
  have hfirst : words delim (skipped ++ (token ++ tail)) = words delim (token ++ tail) := by
    rw [← words_dropWhile, List.dropWhile_append_of_pos hskipped, words_dropWhile]
  rw [hfirst]
  obtain ⟨rfl, rfl⟩ | ⟨c, hc, rfl⟩ := htail
  · rw [List.append_nil, words_eq_singleton hclean hne, words_nil]
  · rw [words_append_cons _ _ hc, words_eq_singleton hclean hne, List.singleton_append]

theorem length_of_strtok (h : strtok delim text = some (token, rest)) :
    rest.length < text.length := by
  obtain ⟨skipped, tail, rfl, -, hne, -, htail⟩ := strtok_parts h
  have htoken := List.length_pos_iff.mpr hne
  simp only [List.length_append]
  obtain ⟨rfl, rfl⟩ | ⟨c, -, rfl⟩ := htail
  · simp only [List.length_nil]
    omega
  · simp only [List.length_cons]
    omega

theorem strtok_eq_none_iff : strtok delim text = none ↔ ∀ char ∈ text, delim char = true := by
  rw [← List.dropWhile_eq_nil_iff, strtok]
  cases text.dropWhile delim with
  | nil => simp
  | cons first behind => simp

theorem words_of_strtok_none (h : strtok delim text = none) : words delim text = [] :=
  words_eq_nil (strtok_eq_none_iff.mp h)

/-- Delimiters, a run and a delimiter: the run is the token. -/
theorem strtok_run {skipped : List α} (hskipped : ∀ c ∈ skipped, delim c = true)
    (hne : token ≠ []) (hclean : ∀ c ∈ token, delim c = false) (hchar : delim char = true)
    (behind : List α) :
    strtok delim (skipped ++ (token ++ char :: behind)) = some (token, behind) := by
  obtain ⟨first, others, rfl⟩ := List.exists_cons_of_ne_nil hne
  have hfirst : delim first = false := hclean first List.mem_cons_self
  have hskip : (skipped ++ (first :: others ++ char :: behind)).dropWhile delim =
      first :: (others ++ char :: behind) := by
    rw [List.dropWhile_append_of_pos hskipped]
    simp [hfirst]
  have hrun : ∀ c ∈ first :: others, (!delim c) = true := fun c hc ↦ by simp [hclean c hc]
  rw [strtok, hskip]
  dsimp only
  rw [← List.cons_append, List.takeWhile_append_of_pos hrun, List.dropWhile_append_of_pos hrun]
  simp [hchar]

/-- A longer text has the same first token, unless it goes on without a delimiter. -/
theorem strtok_append (h : strtok delim text = some (token, rest)) (hchar : delim char = true)
    (behind : List α) :
    strtok delim (text ++ char :: behind) = some (token, rest ++ char :: behind) ∨
      rest = [] ∧ strtok delim (text ++ char :: behind) = some (token, behind) := by
  obtain ⟨skipped, tail, rfl, hskipped, hne, hclean, htail⟩ := strtok_parts h
  obtain ⟨rfl, rfl⟩ | ⟨c, hc, rfl⟩ := htail
  · right
    rw [List.append_nil, List.append_assoc]
    exact ⟨rfl, strtok_run hskipped hne hclean hchar behind⟩
  · left
    simp only [List.append_assoc, List.cons_append]
    exact strtok_run hskipped hne hclean hc _

end OS537.Strtok
