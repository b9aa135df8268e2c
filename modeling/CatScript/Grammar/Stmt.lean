import CatScript.Grammar.Stmt.Simple

/-!
# Reading statements (specification §4.1)

    stmt = "print" "(" expr ")"
         | "for" "(" IDENTIFIER "in" expr ")" body
         | "if" "(" expr ")" body ["else" (stmt that starts with "if" | body)]
         | "var" IDENTIFIER [":" type] "=" expr
         | IDENTIFIER "=" expr
         | IDENTIFIER "(" [expr, ...] ")"
         | "function" IDENTIFIER "(" [IDENTIFIER [":" type], ...] ")" [":" type] body
         | "return" [expr]
    body = "{" stmt* "}"

Reading a statement never fails. A missing token is reported on the statement that lacks it, a
token that starts no statement becomes an invalid statement, and a statement that lacks an
expression is given up for an invalid one. `return` starts a statement inside a function only,
and it takes an expression if the token behind it can start one.

Every statement read away from the end of the stream passes a token.
-/
namespace CatScript.Grammar

open Token (Kind)

/-! ## Giving up a statement

Where an expression should start and none can, the whole statement is given up. An invalid
statement that holds the token found takes its place, and reading goes on at the next keyword
that starts a statement or an else part, or at the end. -/

/-- The keywords where reading goes on after a statement has been given up. -/
def resumeKinds : List Kind := [.kwVar, .kwFor, .kwIf, .kwElse, .kwPrint]

/-- Skips to the next keyword to go on at, or to the end. -/
def resume (c : Cursor) : Cursor :=
  if _h : c.kind = .eof ∨ c.kind ∈ resumeKinds then c else resume c.advance
termination_by c.weight
decreasing_by exact c.weight_advance_lt fun e => _h (.inl e)

theorem weight_resume_le (c : Cursor) : (resume c).weight ≤ c.weight := by
  fun_induction resume c with
  | case1 => exact Nat.le_refl _
  | case2 c _ ih => exact Nat.le_trans ih c.weight_advance_le

/-- The statement read, or the invalid one that takes its place. -/
def settle : Outcome Stmt → Stmt × Cursor
  | .ok s rest => (s, rest)
  | .failed rest => (.ofUnexpected rest.current, resume rest)

theorem weight_settle_le {o : Outcome Stmt} {c : Cursor} (h : o.Within c) :
    (settle o).2.weight ≤ c.weight := by
  cases o with
  | ok s r => exact h
  | failed r => exact Nat.le_trans (weight_resume_le r) h

/-! ## Statements with their bounds -/

/-- The tokens that can start a statement, `return` inside a function only. -/
def stmtKinds : List Kind :=
  [.kwPrint, .kwFor, .kwIf, .kwVar, .identifier, .kwFunction, .kwReturn]

/-- A body between braces: its statements, what is wrong with the braces, and the cursor
behind it. -/
structure BodyRead where
  body : List Stmt
  errors : List Diagnostic
  rest : Cursor

mutual

/-- Decides by the first token of the statement, which is passed already. One that starts none is an
invalid statement by itself, and nothing behind it is skipped. -/
def stmtWithin (inFunction : Bool) (start : Token) (c : Cursor) :
    { o : Outcome Stmt // o.Within c } :=
  match start.kind with
  | .kwPrint => ⟨printRest start c, printRest_within start c⟩
  | .kwVar => ⟨declareRest start c, declareRest_within start c⟩
  | .identifier => ⟨nameRest start c, nameRest_within start c⟩
  | .kwFor => forWithin inFunction start c
  | .kwIf => condWithin inFunction start c
  | .kwFunction => defineWithin start c
  | .kwReturn =>
    if inFunction then ⟨returnRest start c, returnRest_within start c⟩
    else ⟨.ok (.ofUnexpected start) c, Nat.le_refl _⟩
  | _ => ⟨.ok (.ofUnexpected start) c, Nat.le_refl _⟩
termination_by 4 * c.weight + 3

def forWithin (inFunction : Bool) (start : Token) (c : Cursor) :
    { o : Outcome Stmt // o.Within c } :=
  let lp := c.expect .leftParen
  let name := lp.rest.expect .identifier
  let kw := name.rest.expect .kwIn
  have hkw : kw.rest.weight ≤ c.weight :=
    Nat.le_trans (name.rest.weight_expect_le .kwIn)
      (Nat.le_trans (lp.rest.weight_expect_le .identifier) (c.weight_expect_le .leftParen))
  match _he : expr kw.rest with
  | .failed r => ⟨.failed r, Nat.le_trans (expr_failed_le _he) hkw⟩
  | .ok iterable r =>
    have hr : r.weight ≤ c.weight := Nat.le_trans (Nat.le_of_lt (expr_ok_lt _he)) hkw
    let rp := r.expect .rightParen
    have hrp : (r.expect .rightParen).rest.weight ≤ r.weight := r.weight_expect_le .rightParen
    match bodyWithin inFunction rp.rest with
    | ⟨b, hb⟩ =>
      ⟨.ok (.forEach ⟨b.rest.spanFrom start.span,
          lp.errors ++ name.errors ++ kw.errors ++ rp.errors ++ b.errors⟩
          name.token.value iterable b.body) b.rest,
        Nat.le_trans hb (Nat.le_trans hrp hr)⟩
termination_by 4 * c.weight + 2
decreasing_by omega

/-- An `if` behind `else` is a statement of its own in the else part. It settles by itself, so where
it is given up the first branch is kept. -/
def condWithin (inFunction : Bool) (start : Token) (c : Cursor) :
    { o : Outcome Stmt // o.Within c } :=
  let lp := c.expect .leftParen
  have hlp : lp.rest.weight ≤ c.weight := c.weight_expect_le .leftParen
  match _he : expr lp.rest with
  | .failed r => ⟨.failed r, Nat.le_trans (expr_failed_le _he) hlp⟩
  | .ok test r =>
    have hr : r.weight ≤ c.weight := Nat.le_trans (Nat.le_of_lt (expr_ok_lt _he)) hlp
    let rp := r.expect .rightParen
    have hrp : (r.expect .rightParen).rest.weight ≤ r.weight := r.weight_expect_le .rightParen
    match bodyWithin inFunction rp.rest with
    | ⟨yes, hb⟩ =>
      have hyes : yes.rest.weight ≤ c.weight := Nat.le_trans hb (Nat.le_trans hrp hr)
      let errors := lp.errors ++ rp.errors ++ yes.errors
      match _hc : yes.rest.accept? .kwElse with
      | none =>
        ⟨.ok (.cond ⟨yes.rest.spanFrom start.span, errors⟩ test yes.body none) yes.rest, hyes⟩
      | some d =>
        have hd : d.weight < yes.rest.weight := Cursor.weight_accept?_lt (by decide) _hc
        have hdc : d.weight ≤ c.weight := Nat.le_trans (Nat.le_of_lt hd) hyes
        have hda : d.advance.weight ≤ d.weight := d.weight_advance_le
        if d.kind = .kwIf then
          match stmtWithin inFunction d.current d.advance with
          | ⟨o, ho⟩ =>
            let no := settle o
            ⟨.ok (.cond ⟨no.2.spanFrom start.span, errors⟩ test yes.body (some [no.1])) no.2,
              Nat.le_trans (weight_settle_le ho) (Nat.le_trans hda hdc)⟩
        else
          match bodyWithin inFunction d with
          | ⟨no, hno⟩ =>
            ⟨.ok (.cond ⟨no.rest.spanFrom start.span, errors ++ no.errors⟩ test yes.body
                (some no.body)) no.rest, Nat.le_trans hno hdc⟩
termination_by 4 * c.weight + 2
decreasing_by all_goals omega

/-- A function. Its body is read as inside a function, wherever the definition stands. -/
def defineWithin (start : Token) (c : Cursor) : { o : Outcome Stmt // o.Within c } :=
  let head := header c
  have hh : head.rest.weight ≤ c.weight := weight_header_le c
  match bodyWithin true head.rest with
  | ⟨b, hb⟩ =>
    ⟨.ok (.define ⟨b.rest.spanFrom start.span, head.errors ++ b.errors⟩ head.header b.body) b.rest,
      Nat.le_trans hb hh⟩
termination_by 4 * c.weight + 2
decreasing_by
  have : (header c).rest.weight ≤ c.weight := hh
  omega

def bodyWithin (inFunction : Bool) (c : Cursor) : { b : BodyRead // b.rest.weight ≤ c.weight } :=
  let lb := c.expect .leftBrace
  have hlb : lb.rest.weight ≤ c.weight := c.weight_expect_le .leftBrace
  match blockWithin inFunction lb.rest with
  | ⟨(body, r), hr⟩ =>
    let rb := r.expectOr .rightBrace .unterminatedBody
    ⟨⟨body, lb.errors ++ rb.errors, rb.rest⟩,
      Nat.le_trans (r.weight_expectOr_le ..) (Nat.le_trans hr hlb)⟩
termination_by 4 * c.weight + 1
decreasing_by
  have : (c.expect .leftBrace).rest.weight ≤ c.weight := hlb
  omega

/-- Statements up to a closing brace or the end, at which the cursor stays. -/
def blockWithin (inFunction : Bool) (c : Cursor) :
    { r : List Stmt × Cursor // r.2.weight ≤ c.weight } :=
  if hk : c.kind = .eof ∨ c.kind = .rightBrace then ⟨([], c), Nat.le_refl _⟩
  else
    have hlt : c.advance.weight < c.weight := c.weight_advance_lt fun e => hk (.inl e)
    match stmtWithin inFunction c.current c.advance with
    | ⟨o, ho⟩ =>
      let s := settle o
      have hs : (settle o).2.weight ≤ c.advance.weight := weight_settle_le ho
      match blockWithin inFunction s.2 with
      | ⟨(ss, r), hr⟩ =>
        ⟨(s.1 :: ss, r), Nat.le_trans hr (Nat.le_trans hs (Nat.le_of_lt hlt))⟩
termination_by 4 * c.weight
decreasing_by all_goals omega

end

/-! ## Statements -/

/-- What follows the first token of a statement. -/
def stmtRest (inFunction : Bool) (start : Token) (c : Cursor) : Outcome Stmt :=
  (stmtWithin inFunction start c).1

def forRest (inFunction : Bool) (start : Token) (c : Cursor) : Outcome Stmt :=
  (forWithin inFunction start c).1

def condRest (inFunction : Bool) (start : Token) (c : Cursor) : Outcome Stmt :=
  (condWithin inFunction start c).1

def defineRest (start : Token) (c : Cursor) : Outcome Stmt := (defineWithin start c).1

/-- A body between braces. -/
def body (inFunction : Bool) (c : Cursor) : BodyRead := (bodyWithin inFunction c).1

/-- Statements up to a closing brace or the end. -/
def block (inFunction : Bool) (c : Cursor) : List Stmt × Cursor := (blockWithin inFunction c).1

def stmt (inFunction : Bool) (c : Cursor) : Stmt × Cursor :=
  settle (stmtRest inFunction c.current c.advance)

theorem weight_body_le (inFunction : Bool) (c : Cursor) :
    (body inFunction c).rest.weight ≤ c.weight :=
  (bodyWithin inFunction c).2

theorem weight_stmt_lt (inFunction : Bool) {c : Cursor} (h : c.kind ≠ .eof) :
    (stmt inFunction c).2.weight < c.weight :=
  Nat.lt_of_le_of_lt (weight_settle_le (stmtWithin inFunction c.current c.advance).2)
    (c.weight_advance_lt h)

/-- Statements up to the end. -/
def statements (c : Cursor) : List Stmt × Cursor :=
  if _h : c.kind = .eof then ([], c)
  else
    let s := stmt false c
    let more := statements s.2
    (s.1 :: more.1, more.2)
termination_by c.weight
decreasing_by exact weight_stmt_lt false _h

/-! ## Equations -/

theorem stmtRest_eq (inFunction : Bool) (start : Token) (c : Cursor) :
    stmtRest inFunction start c =
      match start.kind with
      | .kwPrint => printRest start c
      | .kwVar => declareRest start c
      | .identifier => nameRest start c
      | .kwFor => forRest inFunction start c
      | .kwIf => condRest inFunction start c
      | .kwFunction => defineRest start c
      | .kwReturn =>
        if inFunction then returnRest start c else .ok (.ofUnexpected start) c
      | _ => .ok (.ofUnexpected start) c := by
  rw [stmtRest, stmtWithin]
  cases start.kind <;> try rfl
  dsimp only
  split <;> rfl

theorem forRest_eq (inFunction : Bool) (start : Token) (c : Cursor) :
    forRest inFunction start c =
      let lp := c.expect .leftParen
      let name := lp.rest.expect .identifier
      let kw := name.rest.expect .kwIn
      (expr kw.rest).bind fun iterable r =>
        let rp := r.expect .rightParen
        let b := body inFunction rp.rest
        .ok (.forEach ⟨b.rest.spanFrom start.span,
          lp.errors ++ name.errors ++ kw.errors ++ rp.errors ++ b.errors⟩
          name.token.value iterable b.body) b.rest := by
  rw [forRest, forWithin]
  dsimp only
  split
  · next h =>
    conv => rhs; rw [h]
    rfl
  · next h =>
    conv => rhs; rw [h]
    rfl

theorem condRest_eq (inFunction : Bool) (start : Token) (c : Cursor) :
    condRest inFunction start c =
      let lp := c.expect .leftParen
      (expr lp.rest).bind fun test r =>
        let rp := r.expect .rightParen
        let yes := body inFunction rp.rest
        let errors := lp.errors ++ rp.errors ++ yes.errors
        match yes.rest.accept? .kwElse with
        | none => .ok (.cond ⟨yes.rest.spanFrom start.span, errors⟩ test yes.body none) yes.rest
        | some d =>
          if d.kind = .kwIf then
            let no := stmt inFunction d
            .ok (.cond ⟨no.2.spanFrom start.span, errors⟩ test yes.body (some [no.1])) no.2
          else
            let no := body inFunction d
            .ok (.cond ⟨no.rest.spanFrom start.span, errors ++ no.errors⟩ test yes.body
              (some no.body)) no.rest := by
  rw [condRest, condWithin]
  dsimp only
  split
  · next h =>
    conv => rhs; rw [h]
    rfl
  · next h =>
    conv => rhs; rw [h]
    dsimp only [Outcome.bind_ok, body]
    split
    · next hc => conv => rhs; rw [hc]
    · next d hc =>
      conv => rhs; rw [hc]
      dsimp only
      split <;> rfl

theorem defineRest_eq (start : Token) (c : Cursor) :
    defineRest start c =
      let head := header c
      let b := body true head.rest
      .ok (.define ⟨b.rest.spanFrom start.span, head.errors ++ b.errors⟩ head.header b.body)
        b.rest := by
  rw [defineRest, defineWithin]
  rfl

theorem body_eq (inFunction : Bool) (c : Cursor) :
    body inFunction c =
      let lb := c.expect .leftBrace
      let inner := block inFunction lb.rest
      let rb := inner.2.expectOr .rightBrace .unterminatedBody
      ⟨inner.1, lb.errors ++ rb.errors, rb.rest⟩ := by
  rw [body, bodyWithin]
  rfl

theorem block_eq (inFunction : Bool) (c : Cursor) :
    block inFunction c =
      if c.kind = .eof ∨ c.kind = .rightBrace then ([], c)
      else
        let s := stmt inFunction c
        let more := block inFunction s.2
        (s.1 :: more.1, more.2) := by
  rw [block, blockWithin]
  split <;> rfl

end CatScript.Grammar
