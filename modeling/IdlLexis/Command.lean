import IdlLexis.Decimal.Shortest
import IdlLexis.Text.Quoted
import IdlLexis.TokenStream
/-!
The command line: what the arguments ask for, and the report that answers it. A report holds
what goes to the two outputs and the exit code; reading the file is left to the caller.
-/

namespace IdlLexis

inductive Command
  | help
  | version
  | lex (path : String)
  | explain (code : String)
  | lexUsage
  | explainUsage
  | unknown (name : String)
  deriving DecidableEq, Repr

/-- Why a file has no content. -/
inductive ReadFailure
  | missing
  | forbidden
  | other (cause : String)
  deriving DecidableEq, Repr

structure Report where
  output : List String
  errors : List String
  exitCode : Nat
  deriving DecidableEq, Repr

namespace Command

def ofArguments : List String → Command
  | [] => help
  | name :: rest =>
      if name = "lex" then
        match rest with
        | [] => lexUsage
        | path :: _ => lex path
      else if name = "--explain" ∨ name = "explain" then
        match rest with
        | [] => explainUsage
        | code :: _ => explain code
      else if name = "help" ∨ name = "--help" ∨ name = "-h" then help
      else if name = "version" ∨ name = "--version" ∨ name = "-V" then version
      else unknown name

/-- The file that a command reads. -/
def file? : Command → Option String
  | lex path => some path
  | _ => none

end Command

namespace Report

def versionLine : String := "idlc 0.1.0"

def usage : List String :=
  ["IDL front-end driver",
    "",
    "Usage: idlc <command> [options]",
    "",
    "Commands:",
    "  lex <file>           Tokenize and display tokens",
    "  --explain <code>     Explain an error code (e.g., E0002)",
    "  help                 Show this help message",
    "  version              Show version information",
    "",
    "Set RUST_LOG (e.g. RUST_LOG=idl_lexer=trace) to enable tracing output."]

def succeed (output : List String) : Report := ⟨output, [], 0⟩

def fail (errors : List String) : Report := ⟨[], errors, 1⟩

def explanation (spelling : String) : Report :=
  match Diagnostic.Code.ofText? spelling with
  | some code => succeed [code.text ++ ": " ++ code.description]
  | none => fail ["unknown error code '" ++ spelling ++ "'"]

def unreadable (path : String) : ReadFailure → Report
  | .missing => fail ["cannot find file '" ++ path ++ "'"]
  | .forbidden => fail ["permission denied reading '" ++ path ++ "'"]
  | .other cause => fail ["error reading '" ++ path ++ "': " ++ cause]

/-- The value of a token as it is shown after its kind. -/
def payload : Token.Kind → String
  | .identifier name => " " ++ name
  | .integer value => " " ++ toString value
  | .real value => " " ++ value.display
  | .text value => " " ++ String.ofList (Text.quoted value.toList)
  | _ => ""

def tokenLine (t : Token) : String :=
  toString t.line ++ ":" ++ t.span.display ++ " " ++ t.kind.display ++ payload t.kind

def diagnosticLine (path : String) (d : Diagnostic) : String :=
  path ++ ":" ++ d.display ++ " [" ++ d.code.text ++ "]"

/-- One line for each token, the end of the text among them, and one for each error. -/
def listing (path : String) (text : Bytes) : Except Fault Report := do
  let (tokens, last) ← (TokenStream.ofBytes text).tokens
  return {
    output := (tokens ++ [last.endToken]).map tokenLine
    errors := last.log.toList.map (diagnosticLine path)
    exitCode := if last.failed then 1 else 0 }

/-- The report on a command, given the content of its file; a command that reads none does not
look at it. -/
def answer (command : Command) (content : Except ReadFailure Bytes) : Except Fault Report :=
  match command with
  | .help => .ok (succeed usage)
  | .version => .ok (succeed [versionLine])
  | .lexUsage => .ok (fail ["Usage: idlc lex <file.thrift>"])
  | .explainUsage => .ok (fail ["Usage: idlc --explain <code>"])
  | .unknown name => .ok ⟨usage, ["Unknown command: " ++ name, ""], 1⟩
  | .explain code => .ok (explanation code)
  | .lex path =>
      match content with
      | .ok text => listing path text
      | .error failure => .ok (unreadable path failure)

def joinLines (lines : List String) : String := String.join (lines.map (· ++ "\n"))

end Report

end IdlLexis
