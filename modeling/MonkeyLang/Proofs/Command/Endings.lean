import MonkeyLang.Command.Basic
import MonkeyLang.Proofs.Ast.Simulation
import MonkeyLang.Proofs.Session.Congruence

namespace MonkeyLang.Command

/-- The command ends with status 0 and tells no error, or with status 1 or 2 and tells nothing else. -/
def Output.Regular (output : Output) : Prop :=
  output.ending = .status 0 ∧ output.err = "" ∨
    (output.ending = .status 1 ∨ output.ending = .status 2) ∧ output.out = "" ∧ output.err ≠ ""

theorem Output.regular_success (text : String) : (success text).Regular :=
  .inl ⟨rfl, rfl⟩

theorem Output.regular_failure {code : Nat} (h : code = 1 ∨ code = 2) (message : String) :
    (failure code message).Regular := by
  refine .inr ⟨?_, rfl, ?_⟩
  · rcases h with rfl | rfl
    · exact .inl rfl
    · exact .inr rfl
  · simp [failure]

theorem regular_refuse (refusal : Refusal) : (refuse refusal).Regular := by
  cases refusal with
  | help => exact Output.regular_success usage
  | _ => exact Output.regular_failure (.inr rfl) _

/-- A tree is asked for, and what stops the reading of the file is an internal error. -/
def Options.Escapes (options : Options) (content : String) : Prop :=
  options.mode = .tree ∧ ∃ error, parse (sourceText content) = .error error ∧ error.isInternal = true

theorem error_of_tokenize {source : String} {error : LexError} (h : tokenize source = .error error) :
    ∃ error, parse source = .error error := by
  cases hparse : parse source with
  | error error => exact ⟨error, rfl⟩
  | ok program =>
    obtain ⟨tokens, htokens⟩ := tokenize_of_parseWithin hparse
    cases h.symm.trans htokens

theorem listTokens_error {source : String} {error : LexError} (h : tokenize source = .error error) :
    listTokens source = .failure 1 (error.kind ++ ": " ++ error.message) := by
  rw [listTokens, Snapshot.ofSource, h]
  rfl

theorem regular_listTokens (source : String) : (listTokens source).Regular := by
  rw [listTokens]
  split
  · exact Output.regular_success _
  · exact Output.regular_failure (.inl rfl) _

theorem listTree_error {source : String} {error : ParseError} (h : parse source = .error error) :
    listTree source =
      if error.isInternal then ⟨.uncaught error, "", ""⟩
      else .failure 1 (error.kind ++ ": " ++ error.message) := by
  rw [listTree, h]

theorem runProgram_error (writeYaml : Data → String) (format : Format) {source : String} {error : ParseError}
    (h : parse source = .error error) :
    runProgram writeYaml format source = .failure 1 ((ScriptError.parse error).report source).text := by
  rw [runProgram, Session.run_of_parse_error h]

theorem regular_runProgram (writeYaml : Data → String) (format : Format) (source : String) : (runProgram writeYaml format source).Regular := by
  rw [runProgram]
  split
  · exact Output.regular_failure (.inl rfl) _
  · split
    · exact Output.regular_success _
    · exact Output.regular_failure (.inl rfl) _

theorem regular_onSource (writeYaml : Data → String) {options : Options} {content : String} (h : ¬ options.Escapes content) :
    (onSource writeYaml options (sourceText content)).Regular := by
  rw [onSource]
  cases hmode : options.mode with
  | run => exact regular_runProgram _ _ _
  | tokens => exact regular_listTokens _
  | tree =>
    simp only
    cases hparse : parse (sourceText content) with
    | ok program =>
      rw [listTree, hparse]
      exact Output.regular_success _
    | error error =>
      have hinternal : ¬ error.isInternal = true := fun hinternal => h ⟨hmode, error, hparse, hinternal⟩
      rw [listTree_error hparse, if_neg hinternal]
      exact Output.regular_failure (.inl rfl) _

theorem uncaught_of_escapes (writeYaml : Data → String) {options : Options} {content : String} (h : options.Escapes content) :
    ∃ error, onSource writeYaml options (sourceText content) = ⟨.uncaught error, "", ""⟩ := by
  obtain ⟨hmode, error, hparse, hinternal⟩ := h
  refine ⟨error, ?_⟩
  rw [onSource, hmode]
  simp only
  rw [listTree_error hparse, if_pos hinternal]

theorem failed_onSource (writeYaml : Data → String) {options : Options} {content : String} (h : ¬ options.Escapes content)
    (hfails : (∃ error, tokenize (sourceText content) = .error error) ∨
      options.mode ≠ .tokens ∧ ∃ error, parse (sourceText content) = .error error) :
    (onSource writeYaml options (sourceText content)).ending = .status 1 := by
  have hparse : options.mode ≠ .tokens → ∃ error, parse (sourceText content) = .error error := by
    intro hmode
    rcases hfails with ⟨error, htokens⟩ | ⟨-, hparse⟩
    · exact error_of_tokenize htokens
    · exact hparse
  rw [onSource]
  cases hmode : options.mode with
  | run =>
    obtain ⟨error, herror⟩ := hparse (by simp [hmode])
    simp only
    rw [runProgram_error _ _ herror]
    rfl
  | tokens =>
    obtain ⟨error, htokens⟩ := hfails.resolve_right fun h => h.1 hmode
    simp only
    rw [listTokens_error htokens]
    rfl
  | tree =>
    obtain ⟨error, herror⟩ := hparse (by simp [hmode])
    have hinternal : ¬ error.isInternal = true := fun hinternal => h ⟨hmode, error, herror, hinternal⟩
    simp only
    rw [listTree_error herror, if_neg hinternal]
    rfl

namespace Prompt

def saysExit (line : String) : Bool :=
  Text.trim line == "exit"

def answered (lines : List String) : List String :=
  lines.takeWhile (!saysExit ·)

def closing (lines : List String) : String :=
  if lines.any saysExit then "" else farewell

theorem reply_eq_quit_iff {session : Session} {line : String} :
    reply session line = .quit ↔ saysExit line = true := by
  rw [saysExit, beq_iff_eq]
  unfold reply
  simp only
  split
  next h => simp [h]
  next =>
    split
    next h => simp [h]
    next h =>
      split <;> simp [h]

/-- What each line is answered with on the two channels, up to the line that ends the dialogue. -/
def answers (session : Session) : List String → List (String × String × String)
  | [] => []
  | line :: lines =>
    match reply session line with
    | .silence => (line, "", "") :: answers session lines
    | .quit => []
    | .value text session => (line, text, "") :: answers session lines
    | .failure text session => (line, "", text) :: answers session lines

theorem lines_answers (session : Session) (lines : List String) :
    (answers session lines).map Prod.fst = answered lines := by
  induction lines generalizing session with
  | nil => rfl
  | cons line lines ih =>
    by_cases hexit : saysExit line = true
    · rw [answers, reply_eq_quit_iff.mpr hexit]
      simp [answered, hexit]
    · have hcons : answered (line :: lines) = line :: answered lines := by
        simp [answered, hexit]
      rw [answers, hcons]
      cases hreply : reply session line with
      | quit => exact absurd (reply_eq_quit_iff.mp hreply) hexit
      | _ => exact congrArg (line :: ·) (ih _)

theorem dialogue_eq (session : Session) (lines : List String) :
    dialogue session lines =
      (String.join ((answers session lines).map fun answer => sign ++ answer.2.1) ++ (sign ++ closing lines),
        String.join ((answers session lines).map fun answer => answer.2.2)) := by
  induction lines generalizing session with
  | nil => rfl
  | cons line lines ih =>
    rw [dialogue, answers]
    by_cases hexit : saysExit line = true
    · rw [reply_eq_quit_iff.mpr hexit]
      simp [closing, hexit]
    · have hclosing : closing (line :: lines) = closing lines := by
        simp [closing, hexit]
      rw [hclosing]
      cases hreply : reply session line with
      | quit => exact absurd (reply_eq_quit_iff.mp hreply) hexit
      | _ => simp [ih, String.append_assoc]

theorem dialogue_answers (session : Session) (lines : List String) :
    ∃ answers : List (String × String), answers.length = (answered lines).length ∧
      dialogue session lines =
        (String.join (answers.map fun answer => sign ++ answer.1) ++ (sign ++ closing lines),
          String.join (answers.map Prod.snd)) := by
  refine ⟨(answers session lines).map Prod.snd, ?_, ?_⟩
  · rw [← lines_answers session lines, List.length_map, List.length_map]
  · rw [dialogue_eq, List.map_map, List.map_map]
    rfl

theorem run_answers (input : String) :
    ∃ answers : List (String × String), answers.length = (answered (inputLines input)).length ∧
      run input = ⟨.status 0,
        banner ++ String.join (answers.map fun answer => sign ++ answer.1) ++
          (sign ++ closing (inputLines input)),
        String.join (answers.map Prod.snd)⟩ := by
  obtain ⟨answers, hlength, hdialogue⟩ := dialogue_answers (.start true) (inputLines input)
  refine ⟨answers, hlength, ?_⟩
  rw [run, hdialogue, String.append_assoc]

end Prompt

theorem run_of_file (writeYaml : Data → String) {words : List String} {options : Options}
    (h : Options.read words = .ok options) (hfile : options.file ≠ "") (files : String → Option String) (input : String) :
    run writeYaml words files input = onFile writeYaml options (files options.file) := by
  rw [run, h]
  exact if_neg hfile

/-- A command line that is refused, a missing file, a file that is worked on and a dialogue all end
regularly, with status 1 for a file that cannot be read as tokens or, where a program is asked for, as a
program. Only an internal error on the way to a tree is not caught. -/
theorem run_ends (writeYaml : Data → String) (words : List String) (files : String → Option String) (input : String) :
    (∀ refusal, Options.read words = .error refusal → (run writeYaml words files input).Regular) ∧
    (∀ options, Options.read words = .ok options → options.file = "" →
      ∃ answers : List (String × String),
        answers.length = (Prompt.answered (Prompt.inputLines input)).length ∧
        run writeYaml words files input = ⟨.status 0,
          Prompt.banner ++ String.join (answers.map fun answer => Prompt.sign ++ answer.1) ++
            (Prompt.sign ++ Prompt.closing (Prompt.inputLines input)),
          String.join (answers.map Prod.snd)⟩) ∧
    (∀ options, Options.read words = .ok options → options.file ≠ "" → files options.file = none →
      (run writeYaml words files input).Regular ∧ (run writeYaml words files input).ending = .status 1) ∧
    ∀ options content, Options.read words = .ok options → options.file ≠ "" →
      files options.file = some content →
      (options.Escapes content → ∃ error, run writeYaml words files input = ⟨.uncaught error, "", ""⟩) ∧
      (¬ options.Escapes content → (run writeYaml words files input).Regular ∧
        ((∃ error, tokenize (sourceText content) = .error error) ∨
            options.mode ≠ .tokens ∧ (∃ error, parse (sourceText content) = .error error) →
          (run writeYaml words files input).ending = .status 1)) := by
  refine ⟨?_, ?_, ?_, ?_⟩
  · intro refusal hread
    rw [run, hread]
    exact regular_refuse refusal
  · intro options hread hfile
    rw [run, hread]
    simp only [if_pos hfile]
    exact Prompt.run_answers input
  · intro options hread hfile hnone
    rw [run_of_file writeYaml hread hfile, hnone]
    exact ⟨Output.regular_failure (.inl rfl) _, rfl⟩
  · intro options content hread hfile hsome
    rw [run_of_file writeYaml hread hfile, hsome]
    exact ⟨uncaught_of_escapes writeYaml, fun h => ⟨regular_onSource writeYaml h, failed_onSource writeYaml h⟩⟩

/-- A string literal over two lines is told when the tokens are listed, and not caught on the way to the
tree. -/
theorem run_tree_uncaught :
    (∀ writeYaml, run writeYaml ["--tokens", "a.mk"] (fun _ => some "\"a\nb\"") "" =
      .failure 1 "ValueError: multi-line tokens are not supported (lines 0-1)") ∧
    ∀ writeYaml, run writeYaml ["--ast", "a.mk"] (fun _ => some "\"a\nb\"") "" =
      ⟨.uncaught (.lexical (.multiLine 0 1)), "", ""⟩ := by
  have htokens : Options.read ["--tokens", "a.mk"] = .ok ⟨"a.mk", .text, .tokens⟩ := by
    cbv
  have htree : Options.read ["--ast", "a.mk"] = .ok ⟨"a.mk", .text, .tree⟩ := by
    cbv
  have htext : sourceText "\"a\nb\"" = "\"a\nb\"" := by
    cbv
  have htokenize : tokenize "\"a\nb\"" = .error (.multiLine 0 1) := by
    cbv
  have hparse : parse "\"a\nb\"" = .error (.lexical (.multiLine 0 1)) := by
    cbv
  constructor <;> intro writeYaml
  · rw [run_of_file writeYaml htokens (by decide)]
    simp only [onFile, onSource, htext]
    rw [listTokens_error htokenize]
    rfl
  · rw [run_of_file writeYaml htree (by decide)]
    simp only [onFile, onSource, htext]
    rw [listTree_error hparse]
    rfl

end MonkeyLang.Command
