import CatScript.Program
import CatScript.Token.Cursor

/-!
# Relocation

A map of offsets is applied to everything that carries some: spans, tokens, diagnostics, and the
trees and streams that hold them. Nothing else of them changes.

Results:
* `Expr.relocate_id`, `Stmt.relocate_id`: the identity moves nothing.
* `Expr.diagnostics_relocate`, `Stmt.diagnostics_relocate`: the diagnostics of a tree move with it.
-/
namespace CatScript

/-! ## Mapping offsets -/

section

variable (f : Nat → Nat)

def Span.relocate (s : Span) : Span := ⟨s.file, f s.start, f s.stop⟩

def Diagnostic.relocate (d : Diagnostic) : Diagnostic := { d with offset := f d.offset }

def Token.relocate (t : Token) : Token := { t with span := t.span.relocate f }

def Expr.Note.relocate (n : Expr.Note) : Expr.Note :=
  ⟨n.span.relocate f, n.errors.map (·.relocate f), n.ty⟩

namespace Expr

mutual

/-- The expression with its offsets mapped. -/
def relocate : Expr → Expr
  | int n v => int (n.relocate f) v
  | str n v => str (n.relocate f) v
  | bool n v => bool (n.relocate f) v
  | null n => null (n.relocate f)
  | var n x => var (n.relocate f) x
  | unary n op e => unary (n.relocate f) op e.relocate
  | binary n op l r => binary (n.relocate f) op l.relocate r.relocate
  | paren n e => paren (n.relocate f) e.relocate
  | list n es => list (n.relocate f) (relocateAll es)
  | call n x es symbol => call (n.relocate f) x (relocateAll es) symbol

def relocateAll : List Expr → List Expr
  | [] => []
  | e :: es => e.relocate :: relocateAll es

end

end Expr

def TypeName.relocate (t : TypeName) : TypeName :=
  ⟨t.ty, t.span.relocate f, t.errors.map (·.relocate f)⟩

def Param.relocate (p : Param) : Param := ⟨p.name, p.declared.map (·.relocate f)⟩

def Header.relocate (h : Header) : Header :=
  ⟨h.name, h.symbol, h.params.map (·.relocate f), h.result.map (·.relocate f)⟩

def Stmt.Note.relocate (n : Stmt.Note) : Stmt.Note :=
  ⟨n.span.relocate f, n.errors.map (·.relocate f)⟩

namespace Stmt

mutual

/-- The statement with its offsets mapped. -/
def relocate : Stmt → Stmt
  | print n e => print (n.relocate f) (e.relocate f)
  | forEach n x e body => forEach (n.relocate f) x (e.relocate f) (relocateAll body)
  | cond n e yes none => cond (n.relocate f) (e.relocate f) (relocateAll yes) none
  | cond n e yes (some no) =>
    cond (n.relocate f) (e.relocate f) (relocateAll yes) (some (relocateAll no))
  | declare n x t e => declare (n.relocate f) x (t.map (·.relocate f)) (e.relocate f)
  | assign n x e => assign (n.relocate f) x (e.relocate f)
  | call n e => call (n.relocate f) (e.relocate f)
  | define n h body => define (n.relocate f) (h.relocate f) (relocateAll body)
  | ret n e => ret (n.relocate f) (e.map (·.relocate f))
  | invalid n t => invalid (n.relocate f) (t.relocate f)

def relocateAll : List Stmt → List Stmt
  | [] => []
  | s :: ss => s.relocate :: relocateAll ss

end

end Stmt

def Program.Body.relocate : Program.Body → Program.Body
  | expression e => expression (e.relocate f)
  | statements ss => statements (Stmt.relocateAll f ss)

/-- The program with its offsets mapped. -/
def Program.relocate (p : Program) : Program := ⟨p.body.relocate f, p.span.relocate f⟩

def Cursor.relocate (c : Cursor) : Cursor :=
  ⟨c.before.map (·.relocate f), c.current.relocate f, c.ahead.map (·.relocate f), c.torn⟩

end

theorem Expr.note_relocate (f : Nat → Nat) (e : Expr) :
    (e.relocate f).note = e.note.relocate f := by
  cases e <;> rfl

theorem Stmt.relocateAll_eq (f : Nat → Nat) (ss : List Stmt) :
    relocateAll f ss = ss.map (relocate f) := by
  induction ss with
  | nil => rfl
  | cons s ss ih => simp only [relocateAll, ih, List.map_cons]

/-! ## Nothing moved -/

theorem Span.relocate_id (s : Span) : s.relocate id = s := rfl

theorem diagnostics_relocate_id (ds : List Diagnostic) : ds.map (·.relocate id) = ds :=
  List.map_id ds

theorem Expr.Note.relocate_id (n : Expr.Note) : n.relocate id = n := by
  simp only [relocate, Span.relocate_id, diagnostics_relocate_id]

theorem Stmt.Note.relocate_id (n : Stmt.Note) : n.relocate id = n := by
  simp only [relocate, Span.relocate_id, diagnostics_relocate_id]

namespace Expr

mutual

theorem relocate_id : (e : Expr) → e.relocate id = e
  | int _ _ | str _ _ | bool _ _ | null _ | var _ _ => by
    simp only [relocate, Note.relocate_id]
  | unary _ _ e | paren _ e => by
    simp only [relocate, Note.relocate_id, relocate_id e]
  | binary _ _ l r => by
    simp only [relocate, Note.relocate_id, relocate_id l, relocate_id r]
  | list _ es | call _ _ es _ => by
    simp only [relocate, Note.relocate_id, relocateAll_id es]

theorem relocateAll_id : (es : List Expr) → relocateAll id es = es
  | [] => rfl
  | e :: es => by simp only [relocateAll, relocate_id e, relocateAll_id es]

end

mutual

theorem diagnostics_relocate (f : Nat → Nat) : (e : Expr) →
    (e.relocate f).diagnostics = e.diagnostics.map (·.relocate f)
  | int _ _ | str _ _ | bool _ _ | null _ | var _ _ => rfl
  | unary _ _ e | paren _ e => by
    simp only [relocate, diagnostics, Note.relocate, List.map_append, diagnostics_relocate f e]
  | binary _ _ l r => by
    simp only [relocate, diagnostics, Note.relocate, List.map_append, diagnostics_relocate f l,
      diagnostics_relocate f r]
  | list _ es | call _ _ es _ => by
    simp only [relocate, diagnostics, Note.relocate, List.map_append,
      diagnosticsOfAll_relocate f es]

theorem diagnosticsOfAll_relocate (f : Nat → Nat) : (es : List Expr) →
    diagnosticsOfAll (relocateAll f es) = (diagnosticsOfAll es).map (·.relocate f)
  | [] => rfl
  | e :: es => by
    simp only [relocateAll, diagnosticsOfAll, List.map_append, diagnostics_relocate f e,
      diagnosticsOfAll_relocate f es]

end

end Expr

theorem TypeName.relocate_id (t : TypeName) : t.relocate id = t := by
  simp only [relocate, Span.relocate_id, diagnostics_relocate_id]

theorem Param.relocate_id (p : Param) : p.relocate id = p := by
  simp only [relocate, TypeName.relocate_id, Option.map_id_fun', id_eq]

theorem Header.relocate_id (h : Header) : h.relocate id = h := by
  simp only [relocate, TypeName.relocate_id, Param.relocate_id, Option.map_id_fun', List.map_id_fun',
    id_eq]

theorem Header.diagnostics_relocate (f : Nat → Nat) (h : Header) :
    (h.relocate f).diagnostics = h.diagnostics.map (·.relocate f) := by
  have hresult (t : Option TypeName) : ((t.map (·.relocate f)).map (·.errors)).getD [] =
      ((t.map (·.errors)).getD []).map (·.relocate f) := by
    cases t <;> rfl
  simp only [diagnostics, relocate, Param.relocate, List.flatMap_map, hresult, List.map_append,
    List.map_flatMap]

namespace Stmt

mutual

theorem relocate_id : (s : Stmt) → s.relocate id = s
  | print _ e | assign _ _ e | call _ e => by
    simp only [relocate, Note.relocate_id, Expr.relocate_id e]
  | forEach _ _ e body => by
    simp only [relocate, Note.relocate_id, Expr.relocate_id e, relocateAll_id body]
  | cond _ e yes none => by
    simp only [relocate, Note.relocate_id, Expr.relocate_id e, relocateAll_id yes]
  | cond _ e yes (some no) => by
    simp only [relocate, Note.relocate_id, Expr.relocate_id e, relocateAll_id yes,
      relocateAll_id no]
  | declare _ _ t e => by
    simp only [relocate, Note.relocate_id, Expr.relocate_id e, TypeName.relocate_id,
      Option.map_id_fun', id_eq]
  | define _ h body => by
    simp only [relocate, Note.relocate_id, Header.relocate_id h, relocateAll_id body]
  | ret _ e => by
    simp only [relocate, Note.relocate_id, Expr.relocate_id, Option.map_id_fun', id_eq]
  | invalid _ t => by
    simp only [relocate, Note.relocate_id, Token.relocate, Span.relocate_id]

theorem relocateAll_id : (ss : List Stmt) → relocateAll id ss = ss
  | [] => rfl
  | s :: ss => by simp only [relocateAll, relocate_id s, relocateAll_id ss]

end

mutual

theorem diagnostics_relocate (f : Nat → Nat) : (s : Stmt) →
    (s.relocate f).diagnostics = s.diagnostics.map (·.relocate f)
  | print _ e | assign _ _ e | call _ e => by
    simp only [relocate, diagnostics, Note.relocate, List.map_append, Expr.diagnostics_relocate f e]
  | forEach _ _ e body => by
    simp only [relocate, diagnostics, Note.relocate, List.map_append, Expr.diagnostics_relocate f e,
      diagnosticsOfAll_relocate f body]
  | cond _ e yes none => by
    simp only [relocate, diagnostics, Note.relocate, List.map_append, Expr.diagnostics_relocate f e,
      diagnosticsOfAll_relocate f yes]
  | cond _ e yes (some no) => by
    simp only [relocate, diagnostics, Note.relocate, List.map_append, Expr.diagnostics_relocate f e,
      diagnosticsOfAll_relocate f yes, diagnosticsOfAll_relocate f no]
  | declare _ _ none e => by
    simp only [relocate, Option.map_none, diagnostics, Note.relocate, List.map_append,
      Expr.diagnostics_relocate f e]
  | declare _ _ (some t) e => by
    simp only [relocate, Option.map_some, diagnostics, Note.relocate, TypeName.relocate,
      List.map_append, Expr.diagnostics_relocate f e]
  | define _ h body => by
    simp only [relocate, diagnostics, Note.relocate, List.map_append, Header.diagnostics_relocate f h,
      diagnosticsOfAll_relocate f body]
  | ret _ none => rfl
  | ret _ (some e) => by
    simp only [relocate, Option.map_some, diagnostics, Note.relocate, List.map_append,
      Expr.diagnostics_relocate f e]
  | invalid _ _ => rfl

theorem diagnosticsOfAll_relocate (f : Nat → Nat) : (ss : List Stmt) →
    diagnosticsOfAll (relocateAll f ss) = (diagnosticsOfAll ss).map (·.relocate f)
  | [] => rfl
  | s :: ss => by
    simp only [relocateAll, diagnosticsOfAll, List.map_append, diagnostics_relocate f s,
      diagnosticsOfAll_relocate f ss]

end

end Stmt

end CatScript
