/-!
# Options

    catscript [-m run|bytecode|transpile|check] [-e] [--disassemble] FILE

A mode is written `--mode x`, `--mode=x`, `-m x`, `-mx` or `-m=x`, and short options may be
joined, as in `-em x`. Behind `--` everything is a file name.
-/
namespace CatScript.CommandLine

/-- What is done with a program that has no diagnostics (specification §4.6). -/
inductive Mode where
  | run
  | bytecode
  | transpile
  | check
  deriving DecidableEq, Repr

def Mode.ofName? (name : String) : Option Mode :=
  match name with
  | "run" => some .run
  | "bytecode" => some .bytecode
  | "transpile" => some .transpile
  | "check" => some .check
  | _ => none

structure Options where
  path : Option String
  mode : Mode
  expression : Bool
  disassemble : Bool
  deriving DecidableEq, Repr

/-- The options of an empty command line. -/
def Options.none : Options := ⟨Option.none, .run, false, false⟩

/-- One argument, taken apart. -/
inductive Argument where
  | path (text : String)
  | option (long : String) (value : Option String)  -- `--long` or `--long=value`
  | flags (letters : List Char)                      -- `-abc`
  | separator
  deriving DecidableEq, Repr

def Argument.ofText (text : String) : Argument :=
  match text.toList with
  | ['-', '-'] => .separator
  | '-' :: '-' :: rest =>
    match rest.dropWhile (· ≠ '=') with
    | [] => .option (String.ofList rest) none
    | _ :: value =>
      .option (String.ofList (rest.takeWhile (· ≠ '='))) (some (String.ofList value))
  | ['-'] => .path text
  | '-' :: letters => .flags letters
  | _ => .path text

/-- What a run of short options does to the options, and whether the mode is still to come in
the next argument. -/
def shortOptions (o : Options) : List Char → Option (Options × Bool)
  | [] => some (o, false)
  | 'e' :: letters => shortOptions { o with expression := true } letters
  | ['m'] => some (o, true)
  | 'm' :: '=' :: value =>
    (Mode.ofName? (String.ofList value)).map fun m => ({ o with mode := m }, false)
  | 'm' :: value => (Mode.ofName? (String.ofList value)).map fun m => ({ o with mode := m }, false)
  | _ => none

def setPath (o : Options) (path : String) : Option Options :=
  match o.path with
  | none => some { o with path := some path }
  | some _ => none

/-- Takes every argument for a file name. -/
def pathsOnly (o : Options) : List String → Option Options
  | [] => some o
  | a :: args => (setPath o a).bind fun o => pathsOnly o args

/-- Reads arguments on top of options. With `pending` the next one names the mode. -/
def readArguments (o : Options) (pending : Bool) : List String → Option Options
  | [] => if pending then none else some o
  | a :: args =>
    if pending then
      (Mode.ofName? a).bind fun m => readArguments { o with mode := m } false args
    else
      match Argument.ofText a with
      | .path p => (setPath o p).bind fun o => readArguments o false args
      | .option "mode" none => readArguments o true args
      | .option "mode" (some v) =>
        (Mode.ofName? v).bind fun m => readArguments { o with mode := m } false args
      | .option "expression" none => readArguments { o with expression := true } false args
      | .option "disassemble" none => readArguments { o with disassemble := true } false args
      | .option _ _ => none
      | .flags letters =>
        (shortOptions o letters).bind fun (o, pending) => readArguments o pending args
      | .separator => pathsOnly o args

/-- The options that the arguments give, `none` if they make no command. -/
def Options.ofArguments? (args : List String) : Option Options :=
  (readArguments .none false args).bind fun o => if o.path.isSome then some o else Option.none

end CatScript.CommandLine
