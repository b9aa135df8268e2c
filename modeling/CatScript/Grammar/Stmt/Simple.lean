import CatScript.Grammar.Expr
import CatScript.Grammar.TypeName

/-!
# Reading statements without a body

    "print" "(" expr ")"
    "var" IDENTIFIER [":" type] "=" expr
    IDENTIFIER "=" expr
    IDENTIFIER "(" [expr, ...] ")"
    "return" [expr]

and the header of a function,

    "function" IDENTIFIER "(" [IDENTIFIER [":" type], ...] ")" [":" type]

Each reader gets the first token of the statement and the cursor behind it. A token that should
be there and is not is reported on the statement, and reading goes on as if it had been there.
-/
namespace CatScript.Grammar

open Token (Kind)

def printRest (start : Token) (c : Cursor) : Outcome Stmt :=
  let lp := c.expect .leftParen
  (expr lp.rest).bind fun value r =>
    let rp := r.expect .rightParen
    .ok (.print ⟨rp.rest.spanFrom start.span, lp.errors ++ rp.errors⟩ value) rp.rest

/-- A declaration behind `var`. Without a type the variable has that of its value. -/
def declareRest (start : Token) (c : Cursor) : Outcome Stmt :=
  let name := c.expect .identifier
  let (ty, d) := declaredType name.rest
  let eq := d.expect .equal
  (expr eq.rest).bind fun value r =>
    .ok (.declare ⟨r.spanFrom start.span, name.errors ++ eq.errors⟩ name.token.value ty value) r

/-- An assignment or a call, by the token behind the name. -/
def nameRest (start : Token) (c : Cursor) : Outcome Stmt :=
  match c.kind with
  | .leftParen => (callRest start c.advance).map fun e => .call ⟨e.span, []⟩ e
  | .equal =>
    (expr c.advance).bind fun value r =>
      .ok (.assign ⟨r.spanFrom start.span, []⟩ start.value value) r
  | _ => .ok (.ofUnexpected start) c

/-- The tokens that can start an expression. -/
def exprKinds : List Kind :=
  [.integer, .string, .kwTrue, .kwFalse, .kwNull, .identifier, .leftParen, .leftBracket,
   .minus, .kwNot]

/-- A return behind its keyword, bare unless the token there can start an expression. -/
def returnRest (start : Token) (c : Cursor) : Outcome Stmt :=
  if c.isOneOf exprKinds then
    (expr c).bind fun value r => .ok (.ret ⟨r.spanFrom start.span, []⟩ (some value)) r
  else .ok (.ret ⟨c.spanFrom start.span, []⟩ none) c

/-- Parameters up to the first token that is no name, with an optional comma at the end. -/
def params (c : Cursor) : List Param × Cursor :=
  if _h : c.kind = .identifier then
    let ty := declaredType c.advance
    match _hc : ty.2.accept? .comma with
    | none => ([⟨c.current.value, ty.1⟩], ty.2)
    | some d =>
      let more := params d
      (⟨c.current.value, ty.1⟩ :: more.1, more.2)
  else ([], c)
termination_by c.weight
decreasing_by
  have h1 : c.advance.weight < c.weight := c.weight_advance_lt (by simp [_h])
  have h2 := weight_declaredType_le c.advance
  have h3 := Cursor.weight_accept?_lt (by decide) _hc
  exact Nat.lt_trans h3 (Nat.lt_of_le_of_lt h2 h1)

theorem weight_params_le (c : Cursor) : (params c).2.weight ≤ c.weight := by
  fun_induction params c with
  | case1 c h ty hc => exact Nat.le_trans (weight_declaredType_le _) c.weight_advance_le
  | case2 c h ty d hc more ih =>
    have h2 := Cursor.weight_accept?_lt (by decide) hc
    exact Nat.le_trans ih (Nat.le_trans (Nat.le_of_lt h2)
      (Nat.le_trans (weight_declaredType_le _) c.weight_advance_le))
  | case3 => exact Nat.le_refl _

/-- A function's name, parameters and result type. -/
structure HeaderRead where
  header : Header
  errors : List Diagnostic
  rest : Cursor

/-- The header behind `function`. Its symbol is the name until checking tells functions apart. -/
def header (c : Cursor) : HeaderRead :=
  let name := c.expect .identifier
  let lp := name.rest.expect .leftParen
  let (ps, d) := params lp.rest
  let rp := d.expect .rightParen
  let (result, r) := declaredType rp.rest
  ⟨⟨name.token.value, name.token.value, ps, result⟩, name.errors ++ lp.errors ++ rp.errors, r⟩

theorem weight_header_le (c : Cursor) : (header c).rest.weight ≤ c.weight := by
  have h1 := c.weight_expect_le .identifier
  have h2 := (c.expect .identifier).rest.weight_expect_le .leftParen
  have h3 := weight_params_le ((c.expect .identifier).rest.expect .leftParen).rest
  have h4 := (params ((c.expect .identifier).rest.expect .leftParen).rest).2.weight_expect_le
    .rightParen
  have h5 := weight_declaredType_le
    ((params ((c.expect .identifier).rest.expect .leftParen).rest).2.expect .rightParen).rest
  simp only [header]
  omega

/-! ## Bounds -/

theorem printRest_within (start : Token) (c : Cursor) : (printRest start c).Within c := by
  have h1 := c.weight_expect_le .leftParen
  unfold printRest
  dsimp only
  cases he : expr (c.expect .leftParen).rest with
  | failed r => exact Nat.le_trans (expr_failed_le he) h1
  | ok value r =>
    exact Nat.le_trans (r.weight_expect_le .rightParen)
      (Nat.le_trans (Nat.le_of_lt (expr_ok_lt he)) h1)

theorem declareRest_within (start : Token) (c : Cursor) : (declareRest start c).Within c := by
  have h1 := c.weight_expect_le .identifier
  have h2 := weight_declaredType_le (c.expect .identifier).rest
  have h3 := (declaredType (c.expect .identifier).rest).2.weight_expect_le .equal
  unfold declareRest
  dsimp only
  cases he : expr ((declaredType (c.expect .identifier).rest).2.expect .equal).rest with
  | failed r => exact Nat.le_trans (expr_failed_le he) (by omega)
  | ok value r => exact Nat.le_trans (Nat.le_of_lt (expr_ok_lt he)) (by omega)

theorem nameRest_within (start : Token) (c : Cursor) : (nameRest start c).Within c := by
  have h1 := c.weight_advance_le
  unfold nameRest
  split
  · have := callRest_within start c.advance
    cases he : callRest start c.advance <;> rw [he] at this <;> exact Nat.le_trans this h1
  · cases he : expr c.advance with
    | failed r => exact Nat.le_trans (expr_failed_le he) h1
    | ok value r => exact Nat.le_trans (Nat.le_of_lt (expr_ok_lt he)) h1
  · exact Nat.le_refl _

theorem returnRest_within (start : Token) (c : Cursor) : (returnRest start c).Within c := by
  unfold returnRest
  split
  · cases he : expr c with
    | failed r => exact expr_failed_le he
    | ok value r => exact Nat.le_of_lt (expr_ok_lt he)
  · exact Nat.le_refl _

end CatScript.Grammar
