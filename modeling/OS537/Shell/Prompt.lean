import OS537.Base.Strtok
import Mathlib.Data.List.Infix

/-!
# Reading a command in mysh

`prompt` reads a line, looks for a redirection and cuts the line into words. The words are stored in
an array that grows by one entry with each of them, so it has no entry behind the last word, and
nothing ever stores the NULL that `execvp` looks for. `runProcess` uses the first entry as a string
before it asks whether there is one.
-/

namespace OS537.Shell

open Strtok

/-! ## Redirection -/

/-- The delimiters `" \n\t"`. -/
def isBlank (char : Char) : Bool := char == ' ' || char == '\n' || char == '\t'

/-- The delimiters `">\n\t"` of the first call of `strtok`. -/
def isFirstDelim (char : Char) : Bool := char == '>' || char == '\n' || char == '\t'

/-- The delimiters `" >\n\t"` of the other calls. -/
def isNextDelim (char : Char) : Bool := char == ' ' || char == '>' || char == '\n' || char == '\t'

/-- What `redirectOutput` returns, the file name it sets and the string it leaves in the line, where
`strtok` has ended the first token by a NUL. -/
structure Redirected where
  rc : ℤ
  outFile : Option (List Char)
  inputLine : List Char

/-- The loop of `redirectOutput`; it returns in the third round at the latest. -/
def redirectLoop : (fuel i : ℕ) → Option (List Char × List Char) → List Char → ℤ × List Char
  | 0, _, _, outFile => (1, outFile)
  | _ + 1, _, none, outFile => (1, outFile)
  | fuel + 1, i, some (a, rest), outFile =>
    if i > 1 then
      (-1, outFile)
    else
      let outFile := if i = 1 then a else outFile
      let next := strtok isNextDelim rest
      if i = 0 ∧ next.isNone then (-1, outFile) else redirectLoop fuel (i + 1) next outFile

def redirectOutput (inputLine : CString) : Redirected :=
  if '>' ∈ inputLine.chars then
    let first := strtok isFirstDelim inputLine.chars
    let (rc, outFile) := redirectLoop 3 0 first []
    let left := match first with
      | some (token, _) => inputLine.chars.takeWhile isFirstDelim ++ token
      | none => inputLine.chars
    ⟨rc, some outFile, left⟩
  else
    ⟨0, none, inputLine.chars⟩

/-! ## The argument vector -/

/-- An entry of the array: NULL, a string, or a pointer to neither. -/
inductive Entry where
  | null
  | wild
  | string (text : List Char)
deriving DecidableEq

/-- `realloc(tokens, n * sizeof(char *))`; `fresh` is what new memory holds. -/
def realloc (fresh : ℕ → Entry) (tokens : List Entry) (n : ℕ) : List Entry :=
  tokens.take n ++ (List.range' tokens.length (n - tokens.length)).map fresh

/-- The loop of `prompt` over the words of the line: the array and `argcount`. -/
def promptLoop (fresh : ℕ → Entry) : (fuel i : ℕ) → List Char → List Entry → List Entry × ℕ
  | 0, i, _, tokens => (tokens, i)
  | fuel + 1, i, inputLine, tokens =>
    match strtok isBlank inputLine with
    | none => (tokens, i)
    | some (currToken, rest) =>
      promptLoop fresh fuel (i + 1) rest
        ((realloc fresh tokens (i + 1)).set i (.string currToken))

/-- The array that `prompt` returns and the globals it sets. -/
structure Prompted where
  tokens : List Entry
  argcount : ℕ
  redirect : ℤ
  outFile : Option (List Char)

inductive PromptResult where
  | exited
  | returned (prompted : Prompted)

/-- The string at `inputLine` when the words are cut: the line, or its part before the '>'. -/
def commandPart (returnValue : CString) : List Char :=
  if (redirectOutput returnValue).rc = 1 then
    -- without a token, the next call of `strtok` goes on at the end of the line
    ((strtok (· == '>') returnValue.chars).map Prod.fst).getD []
  else
    (redirectOutput returnValue).inputLine

/-- `prompt`, given what `fgets` delivers. At the end of a batch file the shell exits; at the end of
the standard input `strdup` is called with NULL, which is undefined. -/
def prompt (batchMode : Bool) (fresh : ℕ → Entry) : Option CString → Option PromptResult
  | none => if batchMode then some .exited else none
  | some returnValue =>
    let inputLine := commandPart returnValue
    let (tokens, argcount) := promptLoop fresh (inputLine.length + 1) 0 inputLine [fresh 0]
    some (.returned ⟨tokens, argcount, (redirectOutput returnValue).rc,
      (redirectOutput returnValue).outFile⟩)

/-! ## Running the command -/

/-- What `runProcess` does; the branch for C programs formats into an uninitialised pointer. -/
inductive Action where
  | exit
  | chdir (dir : List Char)
  | chdirHome
  | error
  | wildStore
  | pwd
  | exec (file : List Char) (arguments : List (List Char))

/-- An entry that is used as a string. -/
def stringAt (tokens : List Entry) (i : ℕ) : Option (List Char) :=
  match tokens[i]? with
  | some (.string text) => some text
  | _ => none

/-- The strings `execvp` finds up to the NULL. -/
def execArguments : List Entry → Option (List (List Char))
  | [] => none
  | .null :: _ => some []
  | .wild :: _ => none
  | .string text :: rest => (execArguments rest).map (text :: ·)

/-- `runProcess`, undefined when an entry is read that is not there or used as a string without
being one. -/
def runProcess (prompted : Prompted) : Option Action := do
  let name ← stringAt prompted.tokens 0
  if name = ['e', 'x', 'i', 't'] then
    return .exit
  else if name = ['c', 'd'] then
    if prompted.argcount = 2 then
      return .chdir (← stringAt prompted.tokens 1)
    else if prompted.argcount = 1 then
      return .chdirHome
    else
      return .error
  else if prompted.redirect = -1 then
    return .error
  else if ['.', 'c'] <:+: name then
    return .wildStore
  else if name = ['p', 'w', 'd'] then
    return .pwd
  else
    return .exec name (← execArguments prompted.tokens)

/-! ## The words of the line -/

theorem set_realloc (fresh : ℕ → Entry) (tokens : List Entry) (entry : Entry) :
    (realloc fresh tokens (tokens.length + 1)).set tokens.length entry = tokens ++ [entry] := by
  simp [realloc, List.take_of_length_le]

/-- Behind the first word the array grows by one entry with each word. -/
theorem promptLoop_strings (fresh : ℕ → Entry) {fuel : ℕ} {inputLine : List Char}
    (hfuel : inputLine.length < fuel) (done : List (List Char)) :
    promptLoop fresh fuel done.length inputLine (done.map .string) =
      ((done ++ words isBlank inputLine).map .string,
        (done ++ words isBlank inputLine).length) := by
  induction fuel generalizing inputLine done with
  | zero => exact absurd hfuel (Nat.not_lt_zero _)
  | succ fuel ih =>
    rw [promptLoop]
    cases htoken : strtok isBlank inputLine with
    | none => simp [words_of_strtok_none htoken]
    | some pair =>
      obtain ⟨currToken, rest⟩ := pair
      have hstore := set_realloc fresh (done.map .string) (.string currToken)
      rw [List.length_map] at hstore
      have hrest : rest.length < fuel := by
        have hshorter := length_of_strtok htoken
        omega
      have hnext := ih hrest (done ++ [currToken])
      simp only [List.length_append, List.length_singleton, List.map_append, List.map_cons,
        List.map_nil] at hnext
      dsimp only
      rw [hstore, hnext, words_of_strtok htoken]
      simp [Nat.add_assoc, Nat.add_comm 1]

/-- The array of the words; without a word it is one entry that nothing was stored to. -/
def wordEntries (fresh : ℕ → Entry) (inputLine : List Char) : List Entry :=
  if words isBlank inputLine = [] then [fresh 0] else (words isBlank inputLine).map .string

theorem promptLoop_run (fresh : ℕ → Entry) (inputLine : List Char) :
    promptLoop fresh (inputLine.length + 1) 0 inputLine [fresh 0] =
      (wordEntries fresh inputLine, (words isBlank inputLine).length) := by
  rw [promptLoop, wordEntries]
  cases htoken : strtok isBlank inputLine with
  | none => simp [words_of_strtok_none htoken]
  | some pair =>
    obtain ⟨currToken, rest⟩ := pair
    have hfirst : (realloc fresh [fresh 0] 1).set 0 (.string currToken) =
        [currToken].map .string := rfl
    have hnext := promptLoop_strings fresh (length_of_strtok htoken) [currToken]
    rw [List.length_singleton] at hnext
    dsimp only
    rw [Nat.zero_add, hfirst, hnext, words_of_strtok htoken]
    simp

theorem prompt_some (batchMode : Bool) (fresh : ℕ → Entry) (line : CString) :
    prompt batchMode fresh (some line) = some (.returned
      ⟨wordEntries fresh (commandPart line), (words isBlank (commandPart line)).length,
        (redirectOutput line).rc, (redirectOutput line).outFile⟩) := by
  simp only [prompt, promptLoop_run]

/-- On a line without a redirection, the first `argcount` entries are the words of the line. -/
theorem prompt_line (batchMode : Bool) (fresh : ℕ → Entry) {line : CString}
    (hline : '>' ∉ line.chars) :
    prompt batchMode fresh (some line) = some (.returned
      ⟨wordEntries fresh line.chars, (words isBlank line.chars).length, 0, none⟩) := by
  have hredirected : redirectOutput line = ⟨0, none, line.chars⟩ := if_neg hline
  have hcommand : commandPart line = line.chars := by simp [commandPart, hredirected]
  rw [prompt_some, hcommand, hredirected]

/-! ## No vector is terminated -/

/-- `prompt` returns the words of the line followed by a NULL in the array, and `runProcess` reads
no entry behind it and none as a string that is not one. -/
def ValidVector (batchMode : Bool) (fresh : ℕ → Entry) (input : Option CString) : Prop :=
  ∃ prompted, prompt batchMode fresh input = some (.returned prompted) ∧
    prompted.argcount = (words isBlank ((input.map (·.chars)).getD [])).length ∧
    prompted.tokens.take prompted.argcount =
      (words isBlank ((input.map (·.chars)).getD [])).map .string ∧
    prompted.tokens[prompted.argcount]? = some .null ∧
    ∃ action, runProcess prompted = some action

/-- The array ends with the last word. -/
theorem wordEntries_ne_null (fresh : ℕ → Entry) {inputLine : List Char}
    (hwords : words isBlank inputLine ≠ []) :
    (wordEntries fresh inputLine)[(words isBlank inputLine).length]? ≠ some .null := by
  simp [wordEntries, hwords]

/-- Without a word, a NULL in the array is used as a string. -/
theorem runProcess_no_word {fresh : ℕ → Entry} {inputLine : List Char}
    (hwords : words isBlank inputLine = []) (hnull : fresh 0 = .null) (argcount : ℕ) (redirect : ℤ)
    (outFile : Option (List Char)) :
    runProcess ⟨wordEntries fresh inputLine, argcount, redirect, outFile⟩ = none := by
  simp [runProcess, wordEntries, hwords, stringAt, hnull]

/-- No line gets a vector with a NULL behind its words: the array ends with the last word, and for a
line without words, and at the end of the input, there is nothing to run. -/
theorem prompt_vector_never_valid (batchMode : Bool) (fresh : ℕ → Entry)
    (input : Option CString) : ¬ ValidVector batchMode fresh input := by
  rintro ⟨prompted, hprompt, -, -, hnull, action, hrun⟩
  cases input with
  | none => cases batchMode <;> cases hprompt
  | some line =>
    rw [prompt_some] at hprompt
    cases hprompt
    by_cases hwords : words isBlank (commandPart line) = []
    · have hfresh : fresh 0 = .null := by simpa [wordEntries, hwords] using hnull
      rw [runProcess_no_word hwords hfresh] at hrun
      cases hrun
    · exact wordEntries_ne_null fresh hwords hnull

/-- `ls` has no room for the NULL, and for an empty line `arguments[0]` is used as a string. -/
theorem one_word_and_empty_line_invalid :
    ¬ ValidVector false (fun _ ↦ .null) (some ⟨['l', 's', '\n'], by decide⟩) ∧
      ¬ ValidVector false (fun _ ↦ .null) (some ⟨['\n'], by decide⟩) := by
  constructor
  · rintro ⟨prompted, hprompt, -, -, hnull, -⟩
    cases hprompt
    cases hnull
  · rintro ⟨prompted, hprompt, -, -, -, action, hrun⟩
    cases hprompt
    cases hrun

end OS537.Shell
