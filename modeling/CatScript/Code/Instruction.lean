import CatScript.Table
import CatScript.Text.Decimal
import CatScript.Text.Quoted

/-!
# Instructions and methods

Code for the stack machine. A value is held in one of two ways: integers and booleans as
native numbers, where a boolean is 0 or 1, and everything else as a reference. `box` and
`unbox` go from one to the other. A program is a set of methods, of which `<main>` runs; a
jump names the offset of an instruction in its method.

A program with diagnostics has no code. In one without, but unchecked, a name may turn out to be
unknown, and in code written by hand a jump may lead to a label that was never placed (`Fault`).
-/
namespace CatScript.Code

/-- Why there is no code (specification §7). -/
inductive Fault where
  | invalidProgram (count : Nat)
  | unplacedLabel (label : Nat)
  | unknownVariable (name : String)
  | unknownFunction (name : String)
  deriving DecidableEq, Repr

namespace Fault

def name : Fault → String
  | invalidProgram _ => "InvalidProgram"
  | unplacedLabel _ => "UnplacedLabel"
  | unknownVariable _ => "UnknownVariable"
  | unknownFunction _ => "UnknownFunction"

def message : Fault → String
  | invalidProgram count => "program has " ++ count.repr ++ " unresolved diagnostics"
  | unplacedLabel label => "label " ++ label.repr ++ " was never placed"
  | unknownVariable name => "unknown variable " ++ Text.quoted name
  | unknownFunction name => "unknown function " ++ Text.quoted name

end Fault

/-- When a jump is taken. A comparison compares the number below the top with the top. -/
inductive Jump where
  | always
  | ifTrue
  | ifFalse
  | ifEq
  | ifNe
  | ifLt
  | ifLe
  | ifGt
  | ifGe
  deriving DecidableEq, Repr

namespace Jump

def name : Jump → String
  | always => "Goto"
  | ifTrue => "IfTrue"
  | ifFalse => "IfFalse"
  | ifEq => "IfICmpEq"
  | ifNe => "IfICmpNe"
  | ifLt => "IfICmpLt"
  | ifLe => "IfICmpLe"
  | ifGt => "IfICmpGt"
  | ifGe => "IfICmpGe"

def all : List Jump := [always, ifTrue, ifFalse, ifEq, ifNe, ifLt, ifLe, ifGt, ifGe]

def ofName? (name : String) : Option Jump := all.find? fun j => j.name == name

end Jump

/-- What a native number stands for. -/
inductive Native where
  | int
  | bool
  deriving DecidableEq, Repr

/-- The instructions (specification §4.4). Operands are taken from the stack, the right one
first, and results are left there. -/
inductive Instruction where
  | pushInt (value : Int64)
  | pushString (value : String)
  | pushNull
  | box (native : Native)
  | unbox
  | pop
  | getGlobal (name : String)
  | putGlobal (name : String)
  | loadLocal (slot : Nat)
  | storeLocal (slot : Nat)
  | add
  | sub
  | mul
  | div
  | neg
  | concat                                -- joins the texts of two references
  | equals                                -- compares two references
  | makeList (count : Nat)
  | getIterator
  | hasNext
  | next
  | print
  | invoke (name : String) (arity : Nat)
  | ret
  | retValue
  | jump (jump : Jump) (target : Nat)
  deriving DecidableEq, Repr

def Instruction.display : Instruction → String
  | pushInt v => "PushInt(" ++ Text.decimal v ++ ")"
  | pushString v => "PushString " ++ Text.quoted v
  | pushNull => "PushNull"
  | box .int => "Box(Int)"
  | box .bool => "Box(Boolean)"
  | unbox => "Unbox"
  | pop => "Pop"
  | getGlobal x => "GetGlobal(" ++ Text.quoted x ++ ")"
  | putGlobal x => "PutGlobal(" ++ Text.quoted x ++ ")"
  | loadLocal n => "LoadLocal(" ++ n.repr ++ ")"
  | storeLocal n => "StoreLocal(" ++ n.repr ++ ")"
  | add => "IAdd"
  | sub => "ISub"
  | mul => "IMul"
  | div => "IDiv"
  | neg => "INeg"
  | concat => "Concat"
  | equals => "RefEquals"
  | makeList n => "MakeList(" ++ n.repr ++ ")"
  | getIterator => "GetIterator"
  | hasNext => "HasNext"
  | next => "Next"
  | print => "Print"
  | invoke f n => "InvokeStatic " ++ f ++ "/" ++ n.repr
  | ret => "Return"
  | retValue => "ReturnValue"
  | jump j n => j.name ++ " -> " ++ n.repr

/-- A method: how many arguments a call takes, how many locals it has with them, and its code. -/
structure Method where
  name : String
  params : Nat
  locals : Nat
  code : List Instruction
  deriving DecidableEq, Repr

/-- The name of the method that runs. It is no identifier, so no function has it. -/
def mainName : String := "<main>"

/-- The text of an offset, at least four characters wide. -/
def offsetText (n : Nat) : String :=
  String.ofList (List.replicate (4 - n.repr.length) ' ') ++ n.repr

/-- One line for each instruction, from offset `n` on. -/
def listingFrom : Nat → List Instruction → String
  | _, [] => ""
  | n, i :: is => "  " ++ offsetText n ++ ": " ++ i.display ++ "\n" ++ listingFrom (n + 1) is

def Method.listing (m : Method) : String :=
  "method " ++ m.name ++ "(" ++ m.params.repr ++ ") locals=" ++ m.locals.repr ++ "\n" ++
    listingFrom 0 m.code

end CatScript.Code

namespace CatScript

/-- Methods by name, and their names in the order in which they were added. -/
structure Code where
  methods : Table Code.Method
  order : List String
  deriving DecidableEq, Repr

namespace Code

def empty : Code := ⟨[], []⟩

/-- Adds a method. One of the same name is replaced, and its name is kept in the order. -/
def add (c : Code) (m : Method) : Code :=
  ⟨c.methods.insert m.name m, c.order ++ [m.name]⟩

def listing (c : Code) : String :=
  String.join (c.order.map fun name => ((c.methods.find? name).map Method.listing).getD "")

end Code

end CatScript
