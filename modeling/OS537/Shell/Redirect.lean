import OS537.Shell.Prompt

/-!
# Redirection in mysh

A line redirects its output when it has one '>' with a command before it and one word behind it.
`redirectOutput` does not look for that: it skips the first run without '>', tab and newline, and
then counts the words behind that run. So it refuses a command with a word behind a tab, and it
takes a line for a redirection that has a second '>' or only blanks before the first one.
-/

namespace OS537.Shell

open Strtok

/-! ## Lines with a redirection -/

/-- The line has one '>', with words before it and one word behind it. -/
structure Splits (line before behind word : List Char) : Prop where
  line_eq : line = before ++ '>' :: behind
  before_clean : '>' ∉ before
  behind_clean : '>' ∉ behind
  command : words isBlank before ≠ []
  file : words isBlank behind = [word]

def WellFormed (line : List Char) : Prop := ∃ before behind word, Splits line before behind word

/-- `redirectOutput` and `prompt` treat the line as its redirection says. -/
structure ParsesExactly (line : CString) : Prop where
  zero_iff : (redirectOutput line).rc = 0 ↔ '>' ∉ line.chars
  one_iff : (redirectOutput line).rc = 1 ↔ WellFormed line.chars
  otherwise : (redirectOutput line).rc = -1 ↔ '>' ∈ line.chars ∧ ¬ WellFormed line.chars
  parts : (redirectOutput line).rc = 1 → ∃ before behind word,
    Splits line.chars before behind word ∧ (redirectOutput line).outFile = some word ∧
    ∀ batchMode fresh, prompt batchMode fresh (some line) = some (.returned
      ⟨(words isBlank before).map .string, (words isBlank before).length, 1, some word⟩)

/-- The text behind the first run without '>', tab and newline. -/
def behindFirst (text : List Char) : List Char := ((strtok isFirstDelim text).map Prod.snd).getD []

/-- The words that `redirectOutput` counts. -/
def wordsBehind (line : List Char) : List (List Char) := words isNextDelim (behindFirst line)

/-! ## What `redirectOutput` returns -/

theorem redirectOutput_absent {line : CString} (h : '>' ∉ line.chars) :
    redirectOutput line = ⟨0, none, line.chars⟩ :=
  if_neg h

theorem all_isFirstDelim {text : List Char} (h : ¬ ∃ char ∈ text, isFirstDelim char = false) :
    ∀ char ∈ text, isFirstDelim char = true := by
  intro char hchar
  by_contra hfalse
  exact h ⟨char, hchar, eq_false_of_ne_true hfalse⟩

/-- The first run and the text behind it. -/
theorem exists_first_run {text : List Char} (hrun : ∃ char ∈ text, isFirstDelim char = false) :
    ∃ token, strtok isFirstDelim text = some (token, behindFirst text) := by
  cases hfirst : strtok isFirstDelim text with
  | none =>
    obtain ⟨char, hmem, hchar⟩ := hrun
    rw [strtok_eq_none_iff.mp hfirst char hmem] at hchar
    cases hchar
  | some pair => exact ⟨pair.1, by simp [behindFirst, hfirst]⟩

section Present

variable {line : CString} (h : '>' ∈ line.chars)

include h

/-- No run at all is taken for a redirection to the empty name. -/
theorem rc_no_run (hrun : ∀ char ∈ line.chars, isFirstDelim char = true) :
    (redirectOutput line).rc = 1 := by
  simp [redirectOutput, h, strtok_eq_none_iff.mpr hrun, redirectLoop]

variable (hrun : ∃ char ∈ line.chars, isFirstDelim char = false)

include hrun

/-- One word behind the first run is the name of the file. -/
theorem rc_one_word {word : List Char} (hwords : wordsBehind line.chars = [word]) :
    (redirectOutput line).rc = 1 ∧ (redirectOutput line).outFile = some word := by
  obtain ⟨token, hfirst⟩ := exists_first_run hrun
  rw [wordsBehind] at hwords
  cases hnext : strtok isNextDelim (behindFirst line.chars) with
  | none => simp [words_of_strtok_none hnext] at hwords
  | some pair =>
    obtain ⟨found, rest⟩ := pair
    rw [words_of_strtok hnext, List.cons.injEq] at hwords
    cases hlast : strtok isNextDelim rest with
    | none => simp [redirectOutput, h, hfirst, redirectLoop, hnext, hlast, hwords.1]
    | some pair => simp [words_of_strtok hlast] at hwords

/-- Another number of words is an error. -/
theorem rc_other_words (hwords : (wordsBehind line.chars).length ≠ 1) :
    (redirectOutput line).rc = -1 := by
  obtain ⟨token, hfirst⟩ := exists_first_run hrun
  rw [wordsBehind] at hwords
  cases hnext : strtok isNextDelim (behindFirst line.chars) with
  | none => simp [redirectOutput, h, hfirst, redirectLoop, hnext]
  | some pair =>
    obtain ⟨found, rest⟩ := pair
    rw [words_of_strtok hnext] at hwords
    cases hlast : strtok isNextDelim rest with
    | none => simp [words_of_strtok_none hlast] at hwords
    | some pair => simp [redirectOutput, h, hfirst, redirectLoop, hnext, hlast]

end Present

/-! ## Lines that are well formed -/

/-- Without a '>' the words are the same for both sets of delimiters. -/
theorem words_isNextDelim {text : List Char} (h : '>' ∉ text) :
    words isNextDelim text = words isBlank text := by
  apply words_congr
  intro char hchar
  have hne : (char == '>') = false := beq_eq_false_iff_ne.mpr fun heq ↦ h (heq ▸ hchar)
  rw [isNextDelim, isBlank, hne, Bool.or_false]

/-- A command starts a run. -/
theorem exists_run {text : List Char} (hclean : '>' ∉ text) (hwords : words isBlank text ≠ []) :
    ∃ char ∈ text, isFirstDelim char = false := by
  by_contra hnone
  apply hwords
  apply words_eq_nil
  intro char hchar
  have hdelim := all_isFirstDelim hnone char hchar
  have hne : (char == '>') = false := beq_eq_false_iff_ne.mpr fun heq ↦ hclean (heq ▸ hchar)
  rw [isFirstDelim, hne, Bool.false_or] at hdelim
  rw [isBlank, Bool.or_assoc, hdelim, Bool.or_true]

/-- The words behind the first run of a text go on behind a '>'. -/
theorem wordsBehind_append {before : List Char} (behind : List Char)
    (hrun : ∃ char ∈ before, isFirstDelim char = false) :
    wordsBehind (before ++ '>' :: behind) = wordsBehind before ++ words isNextDelim behind := by
  obtain ⟨token, hfirst⟩ := exists_first_run hrun
  have hbefore : wordsBehind before = words isNextDelim (behindFirst before) := rfl
  obtain hlonger | ⟨hnone, hlonger⟩ := strtok_append hfirst (show isFirstDelim '>' = true by decide)
    behind
  · rw [hbefore, wordsBehind, behindFirst, hlonger]
    exact words_append_cons _ _ (by decide)
  · rw [hbefore, hnone, words_nil, wordsBehind, behindFirst, hlonger]
    rfl

section Splits

variable {line before behind word : List Char}

theorem Splits.mem (h : Splits line before behind word) : '>' ∈ line := by
  rw [h.line_eq]
  simp

theorem Splits.exists_run (h : Splits line before behind word) :
    ∃ char ∈ line, isFirstDelim char = false := by
  obtain ⟨char, hmem, hchar⟩ := Shell.exists_run h.before_clean h.command
  exact ⟨char, by simp [h.line_eq, hmem], hchar⟩

/-- Behind the first run stand the other words of the command and the name of the file. -/
theorem Splits.wordsBehind_eq (h : Splits line before behind word) :
    wordsBehind line = wordsBehind before ++ [word] := by
  rw [h.line_eq, wordsBehind_append behind (Shell.exists_run h.before_clean h.command),
    words_isNextDelim h.behind_clean, h.file]

theorem Splits.strtok_eq (h : Splits line before behind word) :
    strtok (· == '>') line = some (before, behind) := by
  have hne : before ≠ [] := by
    intro hnil
    exact h.command (by rw [hnil, words_nil])
  have hclean (char : Char) (hchar : char ∈ before) : (char == '>') = false :=
    beq_eq_false_iff_ne.mpr fun heq ↦ h.before_clean (heq ▸ hchar)
  have hnone (char : Char) (hchar : char ∈ []) : (char == '>') = true := by simp at hchar
  rw [h.line_eq]
  exact strtok_run hnone hne hclean (by decide) behind

/-- The part that `prompt` cuts into words is the command. -/
theorem Splits.commandPart_eq {line : CString} (h : Splits line.chars before behind word)
    (hrc : (redirectOutput line).rc = 1) : commandPart line = before := by
  rw [commandPart, if_pos hrc, h.strtok_eq]
  rfl

theorem Splits.prompt_eq {line : CString} (h : Splits line.chars before behind word)
    (hrc : (redirectOutput line).rc = 1) (hfile : (redirectOutput line).outFile = some word)
    (batchMode : Bool) (fresh : ℕ → Entry) :
    prompt batchMode fresh (some line) = some (.returned
      ⟨(words isBlank before).map .string, (words isBlank before).length, 1, some word⟩) := by
  rw [prompt_some, h.commandPart_eq hrc, wordEntries, if_neg h.command, hrc, hfile]

end Splits

/-! ## When the line is parsed exactly -/

/-- The lines that `redirectOutput` gets right: without a '>'; with a redirection, when no word of
the command stands behind its first run without tab and newline; and without one, when there is such
a run and not exactly one word behind it. -/
def Parsable (line : CString) : Prop :=
  '>' ∉ line.chars ∨
  (∃ before behind word, Splits line.chars before behind word ∧ wordsBehind before = []) ∨
  (¬ WellFormed line.chars ∧ (∃ char ∈ line.chars, isFirstDelim char = false) ∧
    (wordsBehind line.chars).length ≠ 1)

theorem parsesExactly_of_absent {line : CString} (h : '>' ∉ line.chars) : ParsesExactly line := by
  have hmalformed : ¬ WellFormed line.chars := fun ⟨_, _, _, hsplits⟩ ↦ h hsplits.mem
  constructor <;> simp [redirectOutput_absent h, h, hmalformed]

theorem Splits.parsesExactly {line : CString} {before behind word : List Char}
    (h : Splits line.chars before behind word) (hbefore : wordsBehind before = []) :
    ParsesExactly line := by
  have hwords : wordsBehind line.chars = [word] := by
    rw [h.wordsBehind_eq, hbefore, List.nil_append]
  obtain ⟨hrc, hfile⟩ := rc_one_word h.mem h.exists_run hwords
  have hwell : WellFormed line.chars := ⟨before, behind, word, h⟩
  refine ⟨?_, ?_, ?_, fun _ ↦ ⟨before, behind, word, h, hfile, h.prompt_eq hrc hfile⟩⟩
  · simp [hrc, h.mem]
  · simp [hrc, hwell]
  · simp [hrc, hwell]

theorem parsesExactly_of_malformed {line : CString} (hmem : '>' ∈ line.chars)
    (hmalformed : ¬ WellFormed line.chars) (hrc : (redirectOutput line).rc = -1) :
    ParsesExactly line := by
  constructor <;> simp [hrc, hmem, hmalformed]

/-- `redirectOutput` treats a line as its redirection says exactly when the line is one of these. -/
theorem parses_exactly_iff (line : CString) : ParsesExactly line ↔ Parsable line := by
  constructor
  · intro h
    by_cases hmem : '>' ∈ line.chars
    · right
      by_cases hwell : WellFormed line.chars
      · left
        have hrc := h.one_iff.mpr hwell
        obtain ⟨before, behind, word, hsplits⟩ := hwell
        refine ⟨before, behind, word, hsplits, ?_⟩
        by_contra hwords
        have hlength : (wordsBehind line.chars).length ≠ 1 := by
          rw [hsplits.wordsBehind_eq]
          simpa using hwords
        rw [rc_other_words hmem hsplits.exists_run hlength] at hrc
        cases hrc
      · right
        have hrc := h.otherwise.mpr ⟨hmem, hwell⟩
        have hrun : ∃ char ∈ line.chars, isFirstDelim char = false := by
          by_contra hnone
          rw [rc_no_run hmem (all_isFirstDelim hnone)] at hrc
          cases hrc
        refine ⟨hwell, hrun, fun hlength ↦ ?_⟩
        obtain ⟨word, hword⟩ := List.length_eq_one_iff.mp hlength
        rw [(rc_one_word hmem hrun hword).1] at hrc
        cases hrc
    · exact Or.inl hmem
  · rintro (habsent | ⟨before, behind, word, hsplits, hbefore⟩ | ⟨hmalformed, hrun, hlength⟩)
    · exact parsesExactly_of_absent habsent
    · exact hsplits.parsesExactly hbefore
    · by_cases hmem : '>' ∈ line.chars
      · exact parsesExactly_of_malformed hmem hmalformed (rc_other_words hmem hrun hlength)
      · exact parsesExactly_of_absent hmem

/-- A line with a tab between the words of the command is refused, and one with a second '>' or
without a command is taken for a redirection. -/
theorem tab_twice_and_empty_not_parsed :
    ¬ ParsesExactly ⟨['l', 's', '\t', '-', 'l', ' ', '>', ' ', 'o', 'u', 't', '\n'], by decide⟩ ∧
      ¬ ParsesExactly ⟨['l', 's', ' ', '>', '>', ' ', 'o', 'u', 't', '\n'], by decide⟩ ∧
      ¬ ParsesExactly ⟨[' ', '>', ' ', 'o', 'u', 't', '\n'], by decide⟩ := by
  refine ⟨fun h ↦ ?_, fun h ↦ ?_, fun h ↦ ?_⟩
  · have hwell : WellFormed ['l', 's', '\t', '-', 'l', ' ', '>', ' ', 'o', 'u', 't', '\n'] :=
      ⟨['l', 's', '\t', '-', 'l', ' '], [' ', 'o', 'u', 't', '\n'], ['o', 'u', 't'],
        rfl, by decide, by decide, by decide, by decide⟩
    exact absurd (h.one_iff.mpr hwell) (by decide)
  · obtain ⟨before, behind, word, hsplits⟩ := h.one_iff.mp (by decide)
    cases hsplits.strtok_eq
    exact absurd hsplits.behind_clean (by decide)
  · obtain ⟨before, behind, word, hsplits⟩ := h.one_iff.mp (by decide)
    cases hsplits.strtok_eq
    exact absurd hsplits.command (by decide)

end OS537.Shell
