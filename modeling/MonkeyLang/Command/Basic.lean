import MonkeyLang.Command.Arguments
import MonkeyLang.Command.Prompt
import MonkeyLang.Token.Snapshot

namespace MonkeyLang.Command

def usage : String :=
  "monkey [OPTIONS] [FILE]\n\n" ++
  "Run a Monkey program. Without FILE, start the interactive REPL.\n\n" ++
  "Options:\n" ++
  "  -i, --input FILE   Read the program from FILE\n" ++
  "  --format FORMAT    Render the result as text (default), debug, json or yaml\n" ++
  "  --tokens           Print the token stream instead of evaluating\n" ++
  "  --ast              Print the parsed program instead of evaluating\n" ++
  "  -h, --help         Show this help message\n"

def dropNewlines (text : String) : String :=
  String.ofList (text.toList.reverse.dropWhile (· == '\n')).reverse

def listTokens (source : String) : Output :=
  match Snapshot.ofSource source with
  | .ok text => .success text
  | .error error => .failure 1 (error.kind ++ ": " ++ error.message)

def listTree (source : String) : Output :=
  match parse source with
  | .ok program => .success (program.printProgram displayIndent 0 ++ "\n")
  | .error error =>
    if error.isInternal then ⟨.uncaught error, "", ""⟩
    else .failure 1 (error.kind ++ ": " ++ error.message)

/-- The text of a program file; every kind of line end counts as a newline. -/
def sourceText (content : String) : String :=
  String.ofList (Text.unifyBreaks content.toList)

def refuse (refusal : Refusal) : Output :=
  match refusal with
  | .help => .success usage
  | refusal => .failure 2 refusal.message

section Rendering

variable (writeYaml : Data → String)

def render (format : Format) (value : Value) : Except SerializeError String :=
  match format with
  | .text => .ok value.display
  | .debug => .ok value.debug
  | .data format => (value.serialize writeYaml format .indented).map dropNewlines

def runProgram (format : Format) (source : String) : Output :=
  match ((Session.start false).run source).1 with
  | .error error => .failure 1 (error.report source).text
  | .ok value =>
    match render writeYaml format value with
    | .ok text => .success (text ++ "\n")
    | .error error =>
      .failure 1 (s!"Error: cannot render result as {format.name}: " ++ error.message)

def onSource (options : Options) (source : String) : Output :=
  match options.mode with
  | .run => runProgram writeYaml options.format source
  | .tokens => listTokens source
  | .tree => listTree source

def onFile (options : Options) (content : Option String) : Output :=
  match content with
  | some content => onSource writeYaml options (sourceText content)
  | none => .failure 1 ("Error: file not found: " ++ options.file)

def run (words : List String) (files : String → Option String) (input : String) : Output :=
  match Options.read words with
  | .error refusal => refuse refusal
  | .ok options =>
    if options.file = "" then Prompt.run input else onFile writeYaml options (files options.file)

end Rendering

end MonkeyLang.Command
