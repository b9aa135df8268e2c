import CatScript.Grammar.Level
import CatScript.Grammar.Outcome
import CatScript.Text.Decimal

/-!
# Reading expressions (specification §4.1)

    expr    = binary at the equality level
    binary  = binary one level tighter, then any number of: operator of the level, binary
              one level tighter
    unary   = "-" unary | "not" unary | primary
    primary = INTEGER | STRING | "true" | "false" | "null" | IDENTIFIER
            | IDENTIFIER "(" [expr, ...] ")" | "[" [expr, ...] "]" | "(" expr ")"

A missing closing bracket is reported on the call, list or group it should close, and an
integer out of range on the literal, which then stands for 0. Reading fails only where a
primary expression should start and none can.

The readers recur over the weight of the cursor: each one that succeeds has passed a token.
The `…Within` and `…Below` readers carry the proof of that along, the readers of the public
names drop it, and the equations at the end say what each of them does.
-/
namespace CatScript.Grammar

open Token (Kind)

/-! ## Nodes -/

/-- The node of an integer token. -/
def integerLiteral (t : Token) : Expr :=
  match Text.int64? t.value.toList with
  | some i => .int (.fresh t.span []) i
  | none => .int (.fresh t.span [(Cause.invalidInteger t.value).at t.span]) 0

def unaryNode (operator : Token) (op : UnaryOp) (operand : Expr) : Expr :=
  .unary (.fresh (operator.span.between operand.span) []) op operand

def binaryNode (op : BinaryOp) (left right : Expr) : Expr :=
  .binary (.fresh (left.span.between right.span) []) op left right

/-- Closes the node that `opening` began: passes the bracket `closing`, or reports `cause`. -/
def close (opening : Token) (closing : Kind) (cause : Cause) (build : Expr.Note → Expr)
    (c : Cursor) : Outcome Expr :=
  let closed := c.expectOr closing cause
  .ok (build (.fresh (closed.rest.spanFrom opening.span) closed.errors)) closed.rest

theorem close_within (opening : Token) (closing : Kind) (cause : Cause)
    (build : Expr.Note → Expr) (c : Cursor) :
    (close opening closing cause build c).Within c :=
  c.weight_expectOr_le closing cause

/-- The binary operator of the level at the cursor. -/
def operatorAt? (level : Level) (c : Cursor) : Option BinaryOp :=
  (BinaryOp.ofKind? c.kind).filter fun op => op.level = level

theorem kind_ne_eof_of_operatorAt? {level : Level} {c : Cursor} {op : BinaryOp}
    (h : operatorAt? level c = some op) : c.kind ≠ .eof := by
  intro e
  simp [operatorAt?, e, BinaryOp.ofKind?] at h

theorem kind_ne_eof_of_unaryOp {c : Cursor} {op : UnaryOp}
    (h : UnaryOp.ofKind? c.kind = some op) : c.kind ≠ .eof := by
  intro e
  simp [e, UnaryOp.ofKind?] at h

/-! ## Readers with their bounds -/

mutual

/-- An operand one level tighter, then the operators of this level. A level without binary operators
is that of unary expressions. -/
def binaryBelow (level : Level) (c : Cursor) : { o : Outcome Expr // o.Below c } :=
  if _hl : level.isBinary = true then
    match binaryBelow level.tighter c with
    | ⟨.failed r, h⟩ => ⟨.failed r, h⟩
    | ⟨.ok left r, h⟩ =>
      match chainWithin level left r with
      | ⟨o, ho⟩ => ⟨o, ho.below h⟩
  else unaryBelow c
termination_by 16 * c.weight + level.height + 3
decreasing_by
  · have := Level.height_tighter _hl; omega
  · have := Level.height_le level; simp only [Outcome.Below] at h; omega
  · omega

/-- Folds operators of the level to the left, for as long as one stands at the cursor. -/
def chainWithin (level : Level) (left : Expr) (c : Cursor) : { o : Outcome Expr // o.Within c } :=
  match hop : operatorAt? level c with
  | none => ⟨.ok left c, Nat.le_refl _⟩
  | some op =>
    have hlt := c.weight_advance_lt (kind_ne_eof_of_operatorAt? hop)
    match binaryBelow level.tighter c.advance with
    | ⟨.failed r, h⟩ => ⟨.failed r, Nat.le_trans h (Nat.le_of_lt hlt)⟩
    | ⟨.ok right r, h⟩ =>
      match chainWithin level (binaryNode op left right) r with
      | ⟨o, ho⟩ => ⟨o, ho.trans (Nat.le_of_lt (Nat.lt_trans h hlt))⟩
termination_by 16 * c.weight
decreasing_by
  · have := Level.height_le level.tighter; omega
  · simp only [Outcome.Below] at h; omega

def unaryBelow (c : Cursor) : { o : Outcome Expr // o.Below c } :=
  match hop : UnaryOp.ofKind? c.kind with
  | none => primaryBelow c
  | some op =>
    have hlt := c.weight_advance_lt (kind_ne_eof_of_unaryOp hop)
    match unaryBelow c.advance with
    | ⟨.failed r, h⟩ => ⟨.failed r, Nat.le_trans h (Nat.le_of_lt hlt)⟩
    | ⟨.ok operand r, h⟩ => ⟨.ok (unaryNode c.current op operand) r, Nat.lt_trans h hlt⟩
termination_by 16 * c.weight + 2

/-- Decides by the first token, and for a name by the next one too. Where no expression can start
reading fails and the cursor stays, and nowhere else does reading begin to fail. -/
def primaryBelow (c : Cursor) : { o : Outcome Expr // o.Below c } :=
  if hk : c.kind = .eof then ⟨.failed c, Nat.le_refl _⟩
  else
    have hlt := c.weight_advance_lt hk
    have hlt2 := Nat.lt_of_le_of_lt c.advance.weight_advance_le hlt
    match c.kind with
    | .integer => ⟨.ok (integerLiteral c.current) c.advance, hlt⟩
    | .string => ⟨.ok (.str (.fresh c.current.span []) c.current.value) c.advance, hlt⟩
    | .kwTrue => ⟨.ok (.bool (.fresh c.current.span []) true) c.advance, hlt⟩
    | .kwFalse => ⟨.ok (.bool (.fresh c.current.span []) false) c.advance, hlt⟩
    | .kwNull => ⟨.ok (.null (.fresh c.current.span [])) c.advance, hlt⟩
    | .identifier =>
      if c.advance.kind = .leftParen then
        match callWithin c.current c.advance.advance with
        | ⟨o, ho⟩ => ⟨o, ho.below hlt2⟩
      else ⟨.ok (.var (.fresh c.current.span []) c.current.value) c.advance, hlt⟩
    | .leftBracket =>
      match listWithin c.current c.advance with
      | ⟨o, ho⟩ => ⟨o, ho.below hlt⟩
    | .leftParen =>
      match groupWithin c.current c.advance with
      | ⟨o, ho⟩ => ⟨o, ho.below hlt⟩
    | _ => ⟨.failed c, Nat.le_refl _⟩
termination_by 16 * c.weight + 1

def callWithin (name : Token) (c : Cursor) : { o : Outcome Expr // o.Within c } :=
  match itemsWithin .rightParen c with
  | ⟨.failed r, h⟩ => ⟨.failed r, h⟩
  | ⟨.ok args r, h⟩ =>
    ⟨close name .rightParen .unterminatedArguments (.call · name.value args none) r,
      (close_within ..).trans h⟩
termination_by 16 * c.weight + 12

def listWithin (opening : Token) (c : Cursor) : { o : Outcome Expr // o.Within c } :=
  match itemsWithin .rightBracket c with
  | ⟨.failed r, h⟩ => ⟨.failed r, h⟩
  | ⟨.ok items r, h⟩ =>
    ⟨close opening .rightBracket .unterminatedList (.list · items) r, (close_within ..).trans h⟩
termination_by 16 * c.weight + 12

def groupWithin (opening : Token) (c : Cursor) : { o : Outcome Expr // o.Within c } :=
  match binaryBelow .equality c with
  | ⟨.failed r, h⟩ => ⟨.failed r, h⟩
  | ⟨.ok inner r, h⟩ =>
    ⟨close opening .rightParen .unterminatedParens (.paren · inner) r,
      (close_within ..).trans (Nat.le_of_lt h)⟩
termination_by 16 * c.weight + 12
decreasing_by simp only [Level.height]; omega

def itemsWithin (closing : Kind) (c : Cursor) : { o : Outcome (List Expr) // o.Within c } :=
  if c.kind = closing then ⟨.ok [] c, Nat.le_refl _⟩
  else
    match seqBelow c with
    | ⟨o, h⟩ => ⟨o, h.within⟩
termination_by 16 * c.weight + 11

/-- Expressions with commas between them. A comma wants another expression behind it. -/
def seqBelow (c : Cursor) : { o : Outcome (List Expr) // o.Below c } :=
  match binaryBelow .equality c with
  | ⟨.failed r, h⟩ => ⟨.failed r, h⟩
  | ⟨.ok e r, h⟩ =>
    match hc : r.accept? .comma with
    | none => ⟨.ok [e] r, h⟩
    | some d =>
      have hd := Cursor.weight_accept?_lt (by decide) hc
      match seqBelow d with
      | ⟨.failed r', h'⟩ => ⟨.failed r', Nat.le_trans h' (Nat.le_of_lt (Nat.lt_trans hd h))⟩
      | ⟨.ok es r', h'⟩ => ⟨.ok (e :: es) r', Nat.lt_trans h' (Nat.lt_trans hd h)⟩
termination_by 16 * c.weight + 10
decreasing_by
  · simp only [Level.height]; omega
  · simp only [Outcome.Below] at h; omega

end

/-! ## Readers -/

/-- A chain of operators of the level. -/
def binary (level : Level) (c : Cursor) : Outcome Expr := (binaryBelow level c).1

/-- The operators of the level that follow `left`, with their right operands. -/
def chain (level : Level) (left : Expr) (c : Cursor) : Outcome Expr := (chainWithin level left c).1

def unary (c : Cursor) : Outcome Expr := (unaryBelow c).1

def primary (c : Cursor) : Outcome Expr := (primaryBelow c).1

/-- Expressions separated by commas, at least one. -/
def seq (c : Cursor) : Outcome (List Expr) := (seqBelow c).1

/-- Expressions separated by commas, none if the cursor is on `closing`. -/
def items (closing : Kind) (c : Cursor) : Outcome (List Expr) := (itemsWithin closing c).1

/-- What follows the name and the opening bracket of a call. -/
def callRest (name : Token) (c : Cursor) : Outcome Expr := (callWithin name c).1

/-- What follows the opening bracket of a list. -/
def listRest (opening : Token) (c : Cursor) : Outcome Expr := (listWithin opening c).1

/-- What follows the opening bracket of a group. -/
def groupRest (opening : Token) (c : Cursor) : Outcome Expr := (groupWithin opening c).1

def expr (c : Cursor) : Outcome Expr := binary .equality c

/-- A call, whatever the first two tokens are. -/
def call (c : Cursor) : Outcome Expr := callRest c.current c.advance.advance

/-- A list, whatever the first token is. -/
def list (c : Cursor) : Outcome Expr := listRest c.current c.advance

/-- A group, whatever the first token is. -/
def group (c : Cursor) : Outcome Expr := groupRest c.current c.advance

/-! ## Equations -/

theorem binary_of_isBinary {level : Level} (h : level.isBinary = true) (c : Cursor) :
    binary level c = (binary level.tighter c).bind (chain level) := by
  unfold binary
  rw [binaryBelow, dif_pos h]
  rcases binaryBelow level.tighter c with ⟨_ | _, _⟩ <;> rfl

theorem binary_of_not_isBinary {level : Level} (h : level.isBinary = false) (c : Cursor) :
    binary level c = unary c := by
  unfold binary
  rw [binaryBelow, dif_neg (by simp [h])]
  rfl

theorem chain_eq (level : Level) (left : Expr) (c : Cursor) :
    chain level left c =
      match operatorAt? level c with
      | none => .ok left c
      | some op =>
        (binary level.tighter c.advance).bind fun right => chain level (binaryNode op left right) := by
  unfold chain binary
  rw [chainWithin]
  split
  · next h => conv => rhs; rw [h]
  · next op h =>
    conv => rhs; rw [h]
    rcases binaryBelow level.tighter c.advance with ⟨_ | _, _⟩ <;> rfl

theorem unary_eq (c : Cursor) :
    unary c =
      match UnaryOp.ofKind? c.kind with
      | none => primary c
      | some op => (unary c.advance).map (unaryNode c.current op) := by
  rw [unary, unaryBelow]
  split
  · next h =>
    conv => rhs; rw [h]
    rfl
  · next op h =>
    conv => rhs; rw [h]
    dsimp only [unary]
    rcases unaryBelow c.advance with ⟨_ | _, _⟩ <;> rfl

theorem primary_eq (c : Cursor) :
    primary c =
      match c.kind with
      | .integer => .ok (integerLiteral c.current) c.advance
      | .string => .ok (.str (.fresh c.current.span []) c.current.value) c.advance
      | .kwTrue => .ok (.bool (.fresh c.current.span []) true) c.advance
      | .kwFalse => .ok (.bool (.fresh c.current.span []) false) c.advance
      | .kwNull => .ok (.null (.fresh c.current.span [])) c.advance
      | .identifier =>
        if c.advance.kind = .leftParen then call c
        else .ok (.var (.fresh c.current.span []) c.current.value) c.advance
      | .leftBracket => list c
      | .leftParen => group c
      | _ => .failed c := by
  rw [primary, primaryBelow]
  split
  · next h => rw [h]
  · cases c.kind <;> try rfl
    dsimp only
    split <;> rfl

theorem callRest_eq (name : Token) (c : Cursor) :
    callRest name c =
      (items .rightParen c).bind fun args =>
        close name .rightParen .unterminatedArguments (.call · name.value args none) := by
  unfold callRest items
  rw [callWithin]
  rcases itemsWithin .rightParen c with ⟨_ | _, _⟩ <;> rfl

theorem listRest_eq (opening : Token) (c : Cursor) :
    listRest opening c =
      (items .rightBracket c).bind fun es =>
        close opening .rightBracket .unterminatedList (.list · es) := by
  unfold listRest items
  rw [listWithin]
  rcases itemsWithin .rightBracket c with ⟨_ | _, _⟩ <;> rfl

theorem groupRest_eq (opening : Token) (c : Cursor) :
    groupRest opening c =
      (expr c).bind fun inner =>
        close opening .rightParen .unterminatedParens (.paren · inner) := by
  unfold groupRest expr binary
  rw [groupWithin]
  rcases binaryBelow .equality c with ⟨_ | _, _⟩ <;> rfl

theorem items_eq (closing : Kind) (c : Cursor) :
    items closing c = if c.kind = closing then .ok [] c else seq c := by
  unfold items seq
  rw [itemsWithin]
  split <;> rfl

theorem seq_eq (c : Cursor) :
    seq c =
      (expr c).bind fun e r =>
        match r.accept? .comma with
        | none => .ok [e] r
        | some d => (seq d).map (e :: ·) := by
  rw [seq, seqBelow, expr, binary]
  rcases binaryBelow .equality c with ⟨⟨e, r⟩ | ⟨_⟩, _⟩
  · dsimp only [Outcome.bind_ok]
    split
    · next h => conv => rhs; rw [h]
    · next d h =>
      conv => rhs; rw [h]
      dsimp only [seq]
      rcases seqBelow d with ⟨_ | _, _⟩ <;> rfl
  · rfl

/-! ## Bounds -/

theorem expr_below (c : Cursor) : (expr c).Below c := (binaryBelow .equality c).2

theorem expr_ok_lt {c r : Cursor} {e : Expr} (h : expr c = .ok e r) : r.weight < c.weight := by
  have := expr_below c
  rwa [h] at this

theorem expr_failed_le {c r : Cursor} (h : expr c = .failed r) : r.weight ≤ c.weight := by
  have := expr_below c
  rwa [h] at this

theorem callRest_within (name : Token) (c : Cursor) : (callRest name c).Within c :=
  (callWithin name c).2

end CatScript.Grammar
