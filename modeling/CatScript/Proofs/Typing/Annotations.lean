import CatScript.Typing.Stmt

/-!
# Annotations

Every node of a program carries its diagnostics. An expression also carries its type, a call
the symbol of the function it calls, and a function definition its own symbol. All of these are
annotations: `bare` is a program without them, and `annotations` lists them from the root on,
each node before its parts.

Results:
* `Program.restore_bare`: a program is its bare form together with its annotations.
* `Program.annotations_errors`: the diagnostics of a program are those of its nodes, in order.
* `Program.check_bare`: checking changes annotations only.
-/
namespace CatScript

/-! ## Annotations of a node -/

/-- What a node carries besides its diagnostics. -/
inductive Annotation.Mark where
  | plain                            -- a type name, or a statement that defines no function
  | function (name symbol : String)
  | expr (ty : Option Ty)
  | call (ty : Option Ty) (symbol : Option String)
  deriving DecidableEq, Repr

/-- The annotations of one node. -/
structure Annotation where
  mark : Annotation.Mark
  errors : List Diagnostic
  deriving DecidableEq, Repr

/-! ## Types and headers -/

def TypeName.bare (t : TypeName) : TypeName := { t with errors := [] }

/-- The annotations of a type that may be left out. -/
def TypeName.annotations (t : Option TypeName) : List Annotation :=
  t.toList.map fun t => ⟨.plain, t.errors⟩

def Param.bare (p : Param) : Param := { p with declared := p.declared.map TypeName.bare }

namespace Header

/-- The header with its name for a symbol, as it is before checking. -/
def bare (h : Header) : Header :=
  ⟨h.name, h.name, h.params.map Param.bare, h.result.map TypeName.bare⟩

/-- The annotations of the types in a header. -/
def annotations (h : Header) : List Annotation :=
  h.params.flatMap (fun p => TypeName.annotations p.declared) ++ TypeName.annotations h.result

end Header

/-! ## Expressions -/

namespace Expr

def Note.bare (n : Note) : Note := .fresh n.span []

mutual

/-- The expression without its annotations. -/
def bare : Expr → Expr
  | int n v => int n.bare v
  | str n v => str n.bare v
  | bool n v => bool n.bare v
  | null n => null n.bare
  | var n x => var n.bare x
  | unary n op e => unary n.bare op e.bare
  | binary n op l r => binary n.bare op l.bare r.bare
  | paren n e => paren n.bare e.bare
  | list n es => list n.bare (bareOfAll es)
  | call n f es _ => call n.bare f (bareOfAll es) none

def bareOfAll : List Expr → List Expr
  | [] => []
  | e :: es => e.bare :: bareOfAll es

end

mutual

/-- The annotations of the expression and of its parts. -/
def annotations : Expr → List Annotation
  | int n _ | str n _ | bool n _ | null n | var n _ => [⟨.expr n.ty, n.errors⟩]
  | unary n _ e | paren n e => ⟨.expr n.ty, n.errors⟩ :: e.annotations
  | binary n _ l r => ⟨.expr n.ty, n.errors⟩ :: (l.annotations ++ r.annotations)
  | list n es => ⟨.expr n.ty, n.errors⟩ :: annotationsOfAll es
  | call n _ es symbol => ⟨.call n.ty symbol, n.errors⟩ :: annotationsOfAll es

def annotationsOfAll : List Expr → List Annotation
  | [] => []
  | e :: es => e.annotations ++ annotationsOfAll es

end

end Expr

/-! ## Statements -/

namespace Stmt

def Note.bare (n : Note) : Note := ⟨n.span, []⟩

mutual

/-- The statement without its annotations. -/
def bare : Stmt → Stmt
  | print n e => print n.bare e.bare
  | call n e => call n.bare e.bare
  | assign n x e => assign n.bare x e.bare
  | forEach n x e body => forEach n.bare x e.bare (bareOfAll body)
  | cond n e yes none => cond n.bare e.bare (bareOfAll yes) none
  | cond n e yes (some no) => cond n.bare e.bare (bareOfAll yes) (some (bareOfAll no))
  | declare n x t e => declare n.bare x (t.map TypeName.bare) e.bare
  | define n h body => define n.bare h.bare (bareOfAll body)
  | ret n none => ret n.bare none
  | ret n (some e) => ret n.bare (some e.bare)
  | invalid n t => invalid n.bare t

def bareOfAll : List Stmt → List Stmt
  | [] => []
  | s :: ss => s.bare :: bareOfAll ss

end

mutual

/-- The annotations of the statement and of its parts. -/
def annotations : Stmt → List Annotation
  | print n e | call n e | assign n _ e => ⟨.plain, n.errors⟩ :: e.annotations
  | forEach n _ e body => ⟨.plain, n.errors⟩ :: (e.annotations ++ annotationsOfAll body)
  | cond n e yes none => ⟨.plain, n.errors⟩ :: (e.annotations ++ annotationsOfAll yes)
  | cond n e yes (some no) =>
    ⟨.plain, n.errors⟩ :: (e.annotations ++ (annotationsOfAll yes ++ annotationsOfAll no))
  | declare n _ t e => ⟨.plain, n.errors⟩ :: (TypeName.annotations t ++ e.annotations)
  | define n h body =>
    ⟨.function h.name h.symbol, n.errors⟩ :: (h.annotations ++ annotationsOfAll body)
  | ret n none => [⟨.plain, n.errors⟩]
  | ret n (some e) => ⟨.plain, n.errors⟩ :: e.annotations
  | invalid n _ => [⟨.plain, n.errors⟩]

def annotationsOfAll : List Stmt → List Annotation
  | [] => []
  | s :: ss => s.annotations ++ annotationsOfAll ss

end

end Stmt

/-! ## Programs -/

namespace Program

def bare (p : Program) : Program :=
  match p.body with
  | .expression e => { p with body := .expression e.bare }
  | .statements ss => { p with body := .statements (Stmt.bareOfAll ss) }

def annotations (p : Program) : List Annotation :=
  match p.body with
  | .expression e => e.annotations
  | .statements ss => Stmt.annotationsOfAll ss

end Program

/-! ## Diagnostics -/

theorem TypeName.annotations_errors (t : Option TypeName) :
    (TypeName.annotations t).flatMap (·.errors) = (t.map (·.errors)).getD [] := by
  cases t <;> simp [annotations]

theorem Header.annotations_errors (h : Header) :
    h.annotations.flatMap (·.errors) = h.diagnostics := by
  simp only [annotations, diagnostics, List.flatMap_append, TypeName.annotations_errors,
    List.flatMap_assoc]

namespace Expr

mutual

theorem annotations_errors : (e : Expr) → e.annotations.flatMap (·.errors) = e.diagnostics
  | int _ _ | str _ _ | bool _ _ | null _ | var _ _ => by
    simp [annotations, diagnostics]
  | unary _ _ e | paren _ e => by
    simp [annotations, diagnostics, annotations_errors e]
  | binary _ _ l r => by
    simp [annotations, diagnostics, annotations_errors l, annotations_errors r]
  | list _ es | call _ _ es _ => by
    simp [annotations, diagnostics, annotationsOfAll_errors es]

theorem annotationsOfAll_errors :
    (es : List Expr) → (annotationsOfAll es).flatMap (·.errors) = diagnosticsOfAll es
  | [] => rfl
  | e :: es => by
    simp [annotationsOfAll, diagnosticsOfAll, annotations_errors e, annotationsOfAll_errors es]

end

end Expr

namespace Stmt

mutual

theorem annotations_errors : (s : Stmt) → s.annotations.flatMap (·.errors) = s.diagnostics
  | print _ e | call _ e | assign _ _ e | ret _ (some e) => by
    simp [annotations, diagnostics, e.annotations_errors]
  | ret _ none | invalid _ _ => by simp [annotations, diagnostics]
  | forEach _ _ e body | cond _ e body none => by
    simp [annotations, diagnostics, e.annotations_errors,
      annotationsOfAll_errors body]
  | cond _ e yes (some no) => by
    simp [annotations, diagnostics, e.annotations_errors,
      annotationsOfAll_errors yes, annotationsOfAll_errors no]
  | declare _ _ none e => by
    simp [annotations, diagnostics, TypeName.annotations, e.annotations_errors]
  | declare _ _ (some t) e => by
    simp [annotations, diagnostics, TypeName.annotations, e.annotations_errors]
  | define _ h body => by
    simp [annotations, diagnostics, h.annotations_errors,
      annotationsOfAll_errors body]

theorem annotationsOfAll_errors :
    (ss : List Stmt) → (annotationsOfAll ss).flatMap (·.errors) = diagnosticsOfAll ss
  | [] => rfl
  | s :: ss => by
    simp [annotationsOfAll, diagnosticsOfAll, annotations_errors s, annotationsOfAll_errors ss]

end

end Stmt

theorem Program.annotations_errors (p : Program) :
    p.annotations.flatMap (·.errors) = p.diagnostics := by
  obtain ⟨body, span⟩ := p
  cases body with
  | expression e => exact e.annotations_errors
  | statements ss => exact Stmt.annotationsOfAll_errors ss

/-! ## Putting annotations back -/

namespace Annotation.Mark

def ty? : Mark → Option Ty
  | expr ty | call ty _ => ty
  | _ => none

/-- The symbol of a function definition. -/
def ownSymbol? : Mark → Option String
  | function _ symbol => some symbol
  | _ => none

/-- The symbol that a call has found. -/
def calledSymbol? : Mark → Option String
  | call _ symbol => symbol
  | _ => none

end Annotation.Mark

/-- A type that may be left out, with its annotations taken from the front of the list. -/
def TypeName.restore : Option TypeName → List Annotation → Option TypeName × List Annotation
  | some t, a :: rest => (some { t with errors := a.errors }, rest)
  | t, rest => (t, rest)

def Param.restoreAll : List Param → List Annotation → List Param × List Annotation
  | [], as => ([], as)
  | p :: ps, as =>
    let one := TypeName.restore p.declared as
    let more := restoreAll ps one.2
    ({ p with declared := one.1 } :: more.1, more.2)

/-- The header with a given symbol and with annotations taken from the front of the list. -/
def Header.restore (h : Header) (symbol : String) (as : List Annotation) :
    Header × List Annotation :=
  let params := Param.restoreAll h.params as
  let result := TypeName.restore h.result params.2
  (⟨h.name, symbol, params.1, result.1⟩, result.2)

def Expr.Note.restore (n : Expr.Note) (a : Annotation) : Expr.Note := ⟨n.span, a.errors, a.mark.ty?⟩

def Stmt.Note.restore (n : Stmt.Note) (a : Annotation) : Stmt.Note := ⟨n.span, a.errors⟩

namespace Expr

mutual

/-- The expression with annotations from the front of the list, and those left over. -/
def restore : Expr → List Annotation → Expr × List Annotation
  | e, [] => (e, [])
  | int n v, a :: as => (int (n.restore a) v, as)
  | str n v, a :: as => (str (n.restore a) v, as)
  | bool n v, a :: as => (bool (n.restore a) v, as)
  | null n, a :: as => (null (n.restore a), as)
  | var n x, a :: as => (var (n.restore a) x, as)
  | unary n op e, a :: as =>
    let e := e.restore as
    (unary (n.restore a) op e.1, e.2)
  | binary n op l r, a :: as =>
    let l := l.restore as
    let r := r.restore l.2
    (binary (n.restore a) op l.1 r.1, r.2)
  | paren n e, a :: as =>
    let e := e.restore as
    (paren (n.restore a) e.1, e.2)
  | list n es, a :: as =>
    let es := restoreAll es as
    (list (n.restore a) es.1, es.2)
  | call n f es _, a :: as =>
    let es := restoreAll es as
    (call (n.restore a) f es.1 a.mark.calledSymbol?, es.2)

def restoreAll : List Expr → List Annotation → List Expr × List Annotation
  | [], as => ([], as)
  | e :: es, as =>
    let e := e.restore as
    let es := restoreAll es e.2
    (e.1 :: es.1, es.2)

end

mutual

theorem restore_bare (rest : List Annotation) :
    (e : Expr) → e.bare.restore (e.annotations ++ rest) = (e, rest)
  | int _ _ | str _ _ | bool _ _ | null _ | var _ _ => rfl
  | unary _ _ e | paren _ e => by
    simp [bare, annotations, restore, restore_bare rest e, Note.restore, Note.bare, Note.fresh,
      Annotation.Mark.ty?]
  | binary _ _ l r => by
    simp [bare, annotations, restore, restore_bare _ l, restore_bare rest r, Note.restore,
      Note.bare, Note.fresh, Annotation.Mark.ty?]
  | list _ es | call _ _ es _ => by
    simp [bare, annotations, restore, restoreAll_bare rest es, Note.restore, Note.bare, Note.fresh,
      Annotation.Mark.ty?, Annotation.Mark.calledSymbol?]

theorem restoreAll_bare (rest : List Annotation) :
    (es : List Expr) → restoreAll (bareOfAll es) (annotationsOfAll es ++ rest) = (es, rest)
  | [] => rfl
  | e :: es => by
    simp [bareOfAll, annotationsOfAll, restoreAll, restore_bare _ e, restoreAll_bare rest es]

end

end Expr

theorem TypeName.restore_bare (t : Option TypeName) (rest : List Annotation) :
    restore (t.map bare) (annotations t ++ rest) = (t, rest) := by
  cases t with
  | none => cases rest <;> rfl
  | some t => rfl

theorem Param.restoreAll_bare (rest : List Annotation) (ps : List Param) :
    restoreAll (ps.map bare)
      (ps.flatMap (fun p => TypeName.annotations p.declared) ++ rest) = (ps, rest) := by
  induction ps with
  | nil => rfl
  | cons p ps ih => simp [restoreAll, bare, TypeName.restore_bare, ih]

theorem Header.restore_bare (h : Header) (rest : List Annotation) :
    h.bare.restore h.symbol (h.annotations ++ rest) = (h, rest) := by
  simp [restore, bare, annotations, Param.restoreAll_bare, TypeName.restore_bare]

namespace Stmt

mutual

/-- The statement with annotations from the front of the list, and those left over. -/
def restore : Stmt → List Annotation → Stmt × List Annotation
  | s, [] => (s, [])
  | print n e, a :: as =>
    let e := e.restore as
    (print (n.restore a) e.1, e.2)
  | call n e, a :: as =>
    let e := e.restore as
    (call (n.restore a) e.1, e.2)
  | assign n x e, a :: as =>
    let e := e.restore as
    (assign (n.restore a) x e.1, e.2)
  | forEach n x e body, a :: as =>
    let e := e.restore as
    let body := restoreAll body e.2
    (forEach (n.restore a) x e.1 body.1, body.2)
  | cond n e yes none, a :: as =>
    let e := e.restore as
    let yes := restoreAll yes e.2
    (cond (n.restore a) e.1 yes.1 none, yes.2)
  | cond n e yes (some no), a :: as =>
    let e := e.restore as
    let yes := restoreAll yes e.2
    let no := restoreAll no yes.2
    (cond (n.restore a) e.1 yes.1 (some no.1), no.2)
  | declare n x t e, a :: as =>
    let t := TypeName.restore t as
    let e := e.restore t.2
    (declare (n.restore a) x t.1 e.1, e.2)
  | define n h body, a :: as =>
    let h := h.restore (a.mark.ownSymbol?.getD h.symbol) as
    let body := restoreAll body h.2
    (define (n.restore a) h.1 body.1, body.2)
  | ret n none, a :: as => (ret (n.restore a) none, as)
  | ret n (some e), a :: as =>
    let e := e.restore as
    (ret (n.restore a) (some e.1), e.2)
  | invalid n t, a :: as => (invalid (n.restore a) t, as)

def restoreAll : List Stmt → List Annotation → List Stmt × List Annotation
  | [], as => ([], as)
  | s :: ss, as =>
    let s := s.restore as
    let ss := restoreAll ss s.2
    (s.1 :: ss.1, ss.2)

end

mutual

theorem restore_bare (rest : List Annotation) :
    (s : Stmt) → s.bare.restore (s.annotations ++ rest) = (s, rest)
  | print _ e | call _ e | assign _ _ e | ret _ (some e) => by
    simp [bare, annotations, restore, e.restore_bare, Note.restore, Note.bare]
  | ret _ none | invalid _ _ => rfl
  | forEach _ _ e body | cond _ e body none => by
    simp [bare, annotations, restore, e.restore_bare, restoreAll_bare rest body, Note.restore,
      Note.bare]
  | cond _ e yes (some no) => by
    simp [bare, annotations, restore, e.restore_bare, restoreAll_bare _ yes,
      restoreAll_bare rest no, Note.restore, Note.bare]
  | declare _ _ t e => by
    simp [bare, annotations, restore, TypeName.restore_bare, e.restore_bare, Note.restore,
      Note.bare]
  | define _ h body => by
    simp [bare, annotations, restore, h.restore_bare, restoreAll_bare rest body, Note.restore,
      Note.bare, Annotation.Mark.ownSymbol?]

theorem restoreAll_bare (rest : List Annotation) :
    (ss : List Stmt) → restoreAll (bareOfAll ss) (annotationsOfAll ss ++ rest) = (ss, rest)
  | [] => rfl
  | s :: ss => by
    simp [bareOfAll, annotationsOfAll, restoreAll, restore_bare _ s, restoreAll_bare rest ss]

end

end Stmt

namespace Program

/-- The program with the given annotations. -/
def restore (p : Program) (as : List Annotation) : Program :=
  match p.body with
  | .expression e => { p with body := .expression (e.restore as).1 }
  | .statements ss => { p with body := .statements (Stmt.restoreAll ss as).1 }

theorem restore_bare (p : Program) : p.bare.restore p.annotations = p := by
  obtain ⟨body, span⟩ := p
  cases body with
  | expression e =>
    have h := e.restore_bare []
    rw [List.append_nil] at h
    simp [bare, annotations, restore, h]
  | statements ss =>
    have h := Stmt.restoreAll_bare [] ss
    rw [List.append_nil] at h
    simp [bare, annotations, restore, h]

theorem eq_of_annotations {p q : Program} (hb : p.bare = q.bare)
    (ha : p.annotations = q.annotations) : p = q := by
  rw [← p.restore_bare, ← q.restore_bare, hb, ha]

end Program

/-! ## Checking -/

namespace Expr

mutual

theorem check_bare (Γ : Typing.Context) : (e : Expr) → (e.check Γ).bare = e.bare
  | int _ _ | str _ _ | bool _ _ | null _ => rfl
  | var _ x => by
    simp only [check]
    split <;> rfl
  | unary _ _ e | paren _ e => by
    simp [check, bare, check_bare Γ e, Note.typed, Note.bare]
  | binary _ _ l r => by
    simp [check, bare, check_bare Γ l, check_bare Γ r, Note.typed, Note.bare]
  | list _ es => by
    simp [check, bare, checkAll_bare Γ es, Note.typed, Note.bare]
  | call _ f es _ => by
    simp only [check]
    split <;> simp [bare, checkAll_bare Γ es, Note.typed, Note.bare]

theorem checkAll_bare (Γ : Typing.Context) :
    (es : List Expr) → bareOfAll (checkAll Γ es) = bareOfAll es
  | [] => rfl
  | e :: es => by simp [checkAll, bareOfAll, check_bare Γ e, checkAll_bare Γ es]

end

end Expr

theorem Typing.Hoisted.header_bare (slot : Hoisted) (h : Header) :
    (slot.header h).bare = h.bare := by
  cases slot <;> rfl

namespace Stmt

mutual

theorem check_bare (Γ : Typing.Context) (slot : Typing.Hoisted) :
    (s : Stmt) → (s.check Γ slot).1.bare = s.bare
  | print _ e | call _ e | assign _ _ e | ret _ (some e) => by
    simp [check, bare, e.check_bare, Note.report, Note.bare]
  | declare _ _ _ e => by simp [check, bare, e.check_bare, Note.report, Note.bare]
  | ret _ none | invalid _ _ => rfl
  | forEach _ _ e body | cond _ e body none => by
    simp [check, bare, e.check_bare, checkAll_bare _ _ body, Note.report, Note.bare]
  | cond _ e yes (some no) => by
    simp [check, bare, e.check_bare, checkAll_bare _ _ yes, checkAll_bare _ _ no, Note.report,
      Note.bare]
  | define _ h body => by
    simp [check, bare, slot.header_bare, checkAll_bare _ _ body, Note.report, Note.bare]

theorem checkAll_bare (Γ : Typing.Context) (slots : List Typing.Hoisted) :
    (ss : List Stmt) → bareOfAll (checkAll Γ slots ss).1 = bareOfAll ss
  | [] => rfl
  | s :: ss => by simp [checkAll, bareOfAll, check_bare _ _ s, checkAll_bare _ _ ss]

end

end Stmt

theorem Program.check_bare (p : Program) : p.check.bare = p.bare := by
  obtain ⟨body, span⟩ := p
  cases body with
  | expression e => simp [check, bare, e.check_bare]
  | statements ss => simp [check, bare, Stmt.checkBlock, Stmt.checkAll_bare]

end CatScript
