import CatScript.Code.Lower
import CatScript.CommandLine.Files
import CatScript.CommandLine.Options
import CatScript.CommandLine.Reply
import CatScript.Eval.Run
import CatScript.Grammar.Program
import CatScript.JavaScript.Emit
import CatScript.StackMachine.Run
import CatScript.Typing.Stmt

/-!
# Commands (specification §4.6)

The file of a command is read, parsed and checked. Its diagnostics go to the error output and
end the command. A program without any is interpreted, or lowered and run on the stack machine,
or listed after lowering, or written as JavaScript. With `-e` the file is one expression.
-/
namespace CatScript.CommandLine

/-- How deep calls may nest in an interpreted run. -/
def callDepth : Nat := 100000

/-- How many steps a run on the stack machine may take. -/
def stepLimit : Nat := 1000000000

/-- The program that consists of one expression. -/
def ofExpression (e : Expr) : Program := ⟨.expression e, e.span⟩

/-- The checked program of a source, or the diagnostics that it has. -/
def load (source file : String) (expression : Bool) : Except (List Diagnostic) Program := do
  let program ←
    if expression then
      match Expr.parse source file with
      | .error d => .error [d]
      | .ok e => .ok (ofExpression (e.check .empty))
    else .ok (Program.parse source file).check
  match program.diagnostics with
  | [] => .ok program
  | ds => .error ds

/-- What a checked program gives in the mode of the options. -/
def perform (o : Options) (p : Program) : Reply :=
  match o.mode with
  | .check => success ""
  | .run =>
    match p.run callDepth with
    | .ok output => success output
    | .error h => failure "Interpreting program" h.message
  | .bytecode =>
    match p.lower with
    | .error f => failure "Lowering program" f.message
    | .ok code =>
      if o.disassemble then success code.listing
      else
        match StackMachine.run stepLimit code with
        | .ok output => success output
        | .error h => failure "Executing bytecode" h.message
  | .transpile => success p.javaScript

/-- The reply to a command whose file has been read, or not. -/
def reply (o : Options) (path : String) (content : Except ReadFault String) : Reply :=
  match content with
  | .error f => failure ("Reading " ++ path) f.message
  | .ok source =>
    match load source (fileName path) o.expression with
    | .error ds => rejection ds source (fileName path)
    | .ok p => perform o p

/-- Runs a command against a way of reading files. -/
def run {m : Type → Type} [Monad m] (read : String → m (Except ReadFault String))
    (args : List String) : m Reply :=
  match Options.ofArguments? args with
  | none => pure usage
  | some o =>
    match o.path with
    | none => pure usage
    | some path => do
      let content ← read path
      pure (reply o path content)

end CatScript.CommandLine
