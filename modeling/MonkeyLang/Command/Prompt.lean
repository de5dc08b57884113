import MonkeyLang.Command.Output
import MonkeyLang.Session.Basic
import MonkeyLang.Text.Blank

namespace MonkeyLang.Command.Prompt

def banner : String :=
  "Monkey REPL v0.1\nType 'exit' or press Ctrl+D to quit.\n"

def sign : String := ">> "

def farewell : String := "\nExiting.\n"

inductive Reply where
  | silence
  | quit
  | value (text : String) (session : Session)
  | failure (text : String) (session : Session)

def reply (session : Session) (line : String) : Reply :=
  let line := Text.trim line
  if line = "" then .silence
  else if line = "exit" then .quit
  else
    match session.run line with
    | (.ok value, session) => .value (value.debug ++ "\n") session
    | (.error error, session) => .failure ((error.report line).text ++ "\n") session

def dialogue (session : Session) : List String → String × String
  | [] => (sign ++ farewell, "")
  | line :: lines =>
    match reply session line with
    | .silence =>
      let (out, err) := dialogue session lines
      (sign ++ out, err)
    | .quit => (sign, "")
    | .value text session =>
      let (out, err) := dialogue session lines
      (sign ++ text ++ out, err)
    | .failure text session =>
      let (out, err) := dialogue session lines
      (sign ++ out, text ++ err)

def inputLines (input : String) : List String :=
  let lines := Text.lines input
  if lines.getLast? = some "" then lines.dropLast else lines

def run (input : String) : Output :=
  let (out, err) := dialogue (.start true) (inputLines input)
  ⟨.status 0, banner ++ out, err⟩

end MonkeyLang.Command.Prompt
