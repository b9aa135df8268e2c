import CatScript.JavaScript.Emit

/-!
# JavaScript trees

The lines of a program are those of a tree of JavaScript statements, in which the blocks and
the names can be seen. An expression is a row of pieces: names of variables, names of called
functions, and the text between them. A function and a call keep the symbol that checking gave
them, of which nothing shows in the text.

Statements keep their numbers: the statement of a block with the number `i` becomes the one with
the number `i` of the block's tree. One that is not written is `nothing`, and the return behind
a function's body stands last.

Results:
* `Program.lines_script`: a program's lines are those of its tree.
-/
namespace CatScript

namespace JavaScript

/-- A part of an expression's text. -/
inductive Piece where
  | text (s : String)
  | name (x : String)
  | callee (f : String) (symbol : Option String)
  deriving DecidableEq, Repr

def Piece.spelling : Piece → String
  | text s | name s | callee s _ => s

/-- The text of an expression. -/
def spelled : List Piece → String
  | [] => ""
  | p :: ps => p.spelling ++ spelled ps

@[simp] theorem spelled_nil : spelled [] = "" := rfl

@[simp] theorem spelled_cons (p : Piece) (ps : List Piece) :
    spelled (p :: ps) = p.spelling ++ spelled ps := rfl

@[simp] theorem spelled_append (ps qs : List Piece) :
    spelled (ps ++ qs) = spelled ps ++ spelled qs := by
  induction ps with
  | nil => simp
  | cons p ps ih => simp [ih, String.append_assoc]

/-- A statement. -/
inductive Script where
  | log (e : List Piece)
  | bind (x : String) (e : List Piece)
  | assign (x : String) (e : List Piece)
  | run (e : List Piece)
  | forOf (x : String) (e : List Piece) (body : List Script)
  | branch (test : List Piece) (yes : List Script) (no : Option (List Script))
  | function (symbol name : String) (params : List String) (body : List Script)
  | ret (e : Option (List Piece))
  | nothing
  deriving Repr

namespace Script

mutual

/-- The lines of a statement, `depth` blocks deep. -/
def lines (depth : Nat) : Script → List Line
  | log e => [⟨depth, "console.log($str(" ++ spelled e ++ "));"⟩]
  | bind x e => [⟨depth, "let " ++ x ++ " = " ++ spelled e ++ ";"⟩]
  | assign x e => [⟨depth, x ++ " = " ++ spelled e ++ ";"⟩]
  | run e => [⟨depth, spelled e ++ ";"⟩]
  | forOf x e body =>
    ⟨depth, "for (const " ++ x ++ " of " ++ spelled e ++ ") \x7b"⟩ ::
      linesOfAll (depth + 1) body ++ [⟨depth, "\x7d"⟩]
  | branch e yes none =>
    ⟨depth, "if (" ++ spelled e ++ ") \x7b"⟩ ::
      linesOfAll (depth + 1) yes ++ [⟨depth, "\x7d"⟩]
  | branch e yes (some no) =>
    ⟨depth, "if (" ++ spelled e ++ ") \x7b"⟩ ::
      linesOfAll (depth + 1) yes ++ elseLines depth no ++ [⟨depth, "\x7d"⟩]
  | function _ name params body =>
    ⟨depth, "function " ++ name ++ "(" ++ ", ".intercalate params ++ ") \x7b"⟩ ::
      linesOfAll (depth + 1) body ++ [⟨depth, "\x7d"⟩]
  | ret none => [⟨depth, "return null;"⟩]
  | ret (some e) => [⟨depth, "return " ++ spelled e ++ ";"⟩]
  | nothing => []

def linesOfAll (depth : Nat) : List Script → List Line
  | [] => []
  | s :: ss => s.lines depth ++ linesOfAll depth ss

/-- The lines of an else part, up to its closing brace. -/
def elseLines (depth : Nat) : List Script → List Line
  | [] => [⟨depth, "\x7d else \x7b"⟩]
  | [branch e yes none] =>
    ⟨depth, "\x7d else if (" ++ spelled e ++ ") \x7b"⟩ :: linesOfAll (depth + 1) yes
  | [branch e yes (some no)] =>
    ⟨depth, "\x7d else if (" ++ spelled e ++ ") \x7b"⟩ ::
      linesOfAll (depth + 1) yes ++ elseLines depth no
  | s :: ss =>
    ⟨depth, "\x7d else \x7b"⟩ :: s.lines (depth + 1) ++ linesOfAll (depth + 1) ss

end

theorem linesOfAll_append (depth : Nat) (ss rest : List Script) :
    linesOfAll depth (ss ++ rest) = linesOfAll depth ss ++ linesOfAll depth rest := by
  induction ss with
  | nil => simp [linesOfAll]
  | cons s ss ih => simp [linesOfAll, ih]

end Script

end JavaScript

open JavaScript

/-! ## Expressions -/

def BinaryOp.pieces (op : BinaryOp) (l r : List Piece) : List Piece :=
  match op with
  | add => .text "$add(" :: l ++ .text ", " :: r ++ [.text ")"]
  | sub | mul | gt | ge | lt | le => l ++ .text (" " ++ op.text ++ " ") :: r
  | div => .text "Math.trunc(" :: l ++ .text " / " :: r ++ [.text ")"]
  | eq => .text "$eq(" :: l ++ .text ", " :: r ++ [.text ")"]
  | ne => .text "!$eq(" :: l ++ .text ", " :: r ++ [.text ")"]

theorem BinaryOp.spelled_pieces (op : BinaryOp) (l r : List Piece) :
    spelled (op.pieces l r) = op.javaScript (spelled l) (spelled r) := by
  cases op <;> simp only [pieces, javaScript, Piece.spelling, spelled_cons, spelled_append,
    spelled_nil, List.cons_append, String.append_assoc, String.append_empty]

namespace Expr

mutual

/-- The expression in JavaScript, with its names apart. -/
def pieces : Expr → List Piece
  | int _ v => [.text (Text.decimal v)]
  | str _ v => [.text (literal v)]
  | bool _ v => [.text (if v then "true" else "false")]
  | null _ => [.text "null"]
  | var _ x => [.name x]
  | unary _ op e =>
    if e.isUnary then .text (op.javaScript ++ "(") :: e.pieces ++ [.text ")"]
    else .text op.javaScript :: e.pieces
  | binary _ op l r => op.pieces l.pieces r.pieces
  | paren _ e => .text "(" :: e.pieces ++ [.text ")"]
  | list _ es => .text "[" :: piecesOfAll es ++ [.text "]"]
  | call _ f es symbol => .callee f symbol :: .text "(" :: piecesOfAll es ++ [.text ")"]

def piecesOfAll : List Expr → List Piece
  | [] => []
  | [e] => e.pieces
  | e :: d :: es => e.pieces ++ .text ", " :: piecesOfAll (d :: es)

end

mutual

theorem spelled_pieces : (e : Expr) → spelled e.pieces = e.javaScript
  | int _ _ | str _ _ | bool _ _ | null _ | var _ _ => by
    simp [pieces, javaScript, Piece.spelling]
  | unary _ op e => by
    rw [pieces, javaScript]
    split <;> simp [Piece.spelling, spelled_pieces e, String.append_assoc]
  | binary _ op l r => by
    rw [pieces, javaScript, BinaryOp.spelled_pieces, spelled_pieces l, spelled_pieces r]
  | paren _ e => by
    simp [pieces, javaScript, Piece.spelling, spelled_pieces e, String.append_assoc]
  | list _ es => by
    simp [pieces, javaScript, Piece.spelling, spelled_piecesOfAll es, String.append_assoc]
  | call _ f es symbol => by
    simp [pieces, javaScript, Piece.spelling, spelled_piecesOfAll es, String.append_assoc]

theorem spelled_piecesOfAll : (es : List Expr) → spelled (piecesOfAll es) = javaScriptAll es
  | [] => rfl
  | [e] => by rw [piecesOfAll, javaScriptAll, spelled_pieces e]
  | e :: d :: es => by
    simp [piecesOfAll, javaScriptAll, Piece.spelling, spelled_pieces e,
      spelled_piecesOfAll (d :: es), String.append_assoc]

end

end Expr

/-! ## Statements -/

namespace Stmt

/-- What stands behind the body of a function. -/
def closing (body : List Stmt) : List Script := if lastReturns body then [] else [.ret none]

mutual

def script : Stmt → Script
  | print _ e => .log e.pieces
  | forEach _ x e body => .forOf x e.pieces (scriptOfAll body)
  | cond _ e yes none => .branch e.pieces (scriptOfAll yes) none
  | cond _ e yes (some no) => .branch e.pieces (scriptOfAll yes) (some (scriptOfAll no))
  | declare _ x _ e => .bind x e.pieces
  | assign _ x e => .assign x e.pieces
  | call _ e => .run e.pieces
  | define _ h body =>
    .function h.symbol h.name (h.params.map (·.name)) (scriptOfAll body ++ closing body)
  | ret _ none => .ret none
  | ret _ (some e) => .ret (some e.pieces)
  | invalid _ _ => .nothing

def scriptOfAll : List Stmt → List Script
  | [] => []
  | s :: ss => s.script :: scriptOfAll ss

end

/-- An else part that is no single conditional is a block. -/
theorem elseLines_of_lines {depth : Nat} {s : Stmt} {ss : List Stmt}
    (hs : s.script.lines (depth + 1) = s.javaScript (depth + 1))
    (hss : Script.linesOfAll (depth + 1) (scriptOfAll ss) = javaScriptAll (depth + 1) ss)
    (h : ∀ n e yes no, s = cond n e yes no → ss ≠ []) :
    Script.elseLines depth (scriptOfAll (s :: ss)) = elseLines depth (s :: ss) := by
  have hscript : ∀ e yes no, s.script = .branch e yes no → scriptOfAll ss ≠ [] := by
    intro e yes no he
    cases s with
    | cond n d yes' no' =>
      obtain ⟨r, rs, rfl⟩ := List.exists_cons_of_ne_nil (h n d yes' no' rfl)
      exact List.cons_ne_nil _ _
    | ret n v => cases v <;> cases he
    | _ => cases he
  rw [scriptOfAll, Script.elseLines, elseLines, hs, hss]
  · exact fun n e yes => h n e yes none
  · exact fun n e yes no => h n e yes (some no)
  · exact fun e yes => hscript e yes none
  · exact fun e yes no => hscript e yes (some no)

mutual

theorem lines_script (depth : Nat) : (s : Stmt) → s.script.lines depth = s.javaScript depth
  | print _ e | declare _ _ _ e | assign _ _ e | call _ e | ret _ (some e) => by
    simp only [script, Script.lines, javaScript, e.spelled_pieces]
  | forEach _ x e body => by
    simp only [script, Script.lines, javaScript, e.spelled_pieces,
      linesOfAll_scriptOfAll (depth + 1) body]
  | cond _ e yes none => by
    simp only [script, Script.lines, javaScript, e.spelled_pieces,
      linesOfAll_scriptOfAll (depth + 1) yes]
  | cond _ e yes (some no) => by
    simp only [script, Script.lines, javaScript, e.spelled_pieces,
      linesOfAll_scriptOfAll (depth + 1) yes, elseLines_scriptOfAll depth no]
  | define _ h body => by
    have hclosing : Script.linesOfAll (depth + 1) (closing body) =
        if lastReturns body then [] else [⟨depth + 1, "return null;"⟩] := by
      unfold closing
      split <;> rfl
    simp only [script, Script.lines, javaScript, Script.linesOfAll_append, hclosing,
      linesOfAll_scriptOfAll (depth + 1) body, List.cons_append, List.append_assoc]
  | ret _ none | invalid _ _ => rfl

theorem linesOfAll_scriptOfAll (depth : Nat) :
    (ss : List Stmt) → Script.linesOfAll depth (scriptOfAll ss) = javaScriptAll depth ss
  | [] => rfl
  | s :: ss => by
    rw [scriptOfAll, Script.linesOfAll, javaScriptAll, lines_script depth s,
      linesOfAll_scriptOfAll depth ss]

theorem elseLines_scriptOfAll (depth : Nat) :
    (ss : List Stmt) → Script.elseLines depth (scriptOfAll ss) = elseLines depth ss
  | [] => rfl
  | [cond _ e yes none] => by
    simp only [scriptOfAll, script, Script.elseLines, elseLines, e.spelled_pieces,
      linesOfAll_scriptOfAll (depth + 1) yes]
  | [cond _ e yes (some no)] => by
    simp only [scriptOfAll, script, Script.elseLines, elseLines, e.spelled_pieces,
      linesOfAll_scriptOfAll (depth + 1) yes, elseLines_scriptOfAll depth no]
  | [print n e] => elseLines_of_lines (lines_script (depth + 1) (print n e)) rfl (by simp)
  | [forEach n x e body] =>
    elseLines_of_lines (lines_script (depth + 1) (forEach n x e body)) rfl (by simp)
  | [declare n x t e] =>
    elseLines_of_lines (lines_script (depth + 1) (declare n x t e)) rfl (by simp)
  | [assign n x e] => elseLines_of_lines (lines_script (depth + 1) (assign n x e)) rfl (by simp)
  | [call n e] => elseLines_of_lines (lines_script (depth + 1) (call n e)) rfl (by simp)
  | [define n h body] =>
    elseLines_of_lines (lines_script (depth + 1) (define n h body)) rfl (by simp)
  | [ret n e] => elseLines_of_lines (lines_script (depth + 1) (ret n e)) rfl (by simp)
  | [invalid n t] => elseLines_of_lines (lines_script (depth + 1) (invalid n t)) rfl (by simp)
  | s :: r :: ss =>
    elseLines_of_lines (lines_script (depth + 1) s)
      (linesOfAll_scriptOfAll (depth + 1) (r :: ss)) (by simp)

end

end Stmt

namespace Program

/-- The tree of a program's own lines. -/
def script (p : Program) : List Script :=
  match p.body with
  | .expression e => [.log e.pieces]
  | .statements ss => Stmt.scriptOfAll ss

theorem lines_script (p : Program) : Script.linesOfAll 0 p.script = p.javaScriptLines := by
  obtain ⟨body, span⟩ := p
  cases body with
  | expression e => simp only [script, javaScriptLines, Script.linesOfAll, Script.lines,
      e.spelled_pieces, List.append_nil]
  | statements ss => exact Stmt.linesOfAll_scriptOfAll 0 ss

end Program

end CatScript
