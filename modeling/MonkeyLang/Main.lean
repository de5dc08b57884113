import MonkeyLang.Command.Basic
import MonkeyLang.Data.Yaml

namespace MonkeyLang.Command

partial def converse (session : Session) : IO Unit := do
  let out ← IO.getStdout
  out.putStr Prompt.sign
  out.flush
  let line ← (← IO.getStdin).getLine
  if line.isEmpty then out.putStr Prompt.farewell
  else
    match Prompt.reply session line with
    | .silence => converse session
    | .quit => return
    | .value text session =>
      out.putStr text
      converse session
    | .failure text session =>
      (← IO.getStderr).putStr text
      converse session

def finish (output : Output) : IO UInt32 := do
  (← IO.getStdout).putStr output.out
  (← IO.getStderr).putStr output.err
  match output.ending with
  | .status code => return code.toUInt32
  | .uncaught error =>
    (← IO.getStderr).putStr (error.kind ++ ": " ++ error.message ++ "\n")
    return 1

def readSource (file : String) : IO (Option String) := do
  try
    return some (← IO.FS.readFile file)
  catch
    | .noFileOrDirectory .. => return none
    | error => throw error

end MonkeyLang.Command

open MonkeyLang MonkeyLang.Command in
def main (words : List String) : IO UInt32 := do
  match Options.read words with
  | .error refusal => finish (refuse refusal)
  | .ok options =>
    if options.file = "" then
      (← IO.getStdout).putStr Prompt.banner
      converse (.start true)
      return 0
    else finish (onFile Yaml.render options (← readSource options.file))
