import CatScript.Stmt
import CatScript.Token.Cursor

/-!
# Reading type names (specification §4.1)

    type = "int" | "bool" | "string" | "object" | "void" | "list" ["<" type ">"]

Type names are ordinary identifiers, and a bare `list` means `list<object>`. An unknown name
is reported and stands for `object`; a token that is no identifier is reported and left
alone. A `>=` in place of the closing `>` is split, so `list<int>= x` reads like
`list<int> = x`.
-/
namespace CatScript.Grammar

/-- The type of a name other than `list`. -/
def simpleType? (name : String) : Option Ty :=
  match name with
  | "int" => some .int
  | "bool" => some .bool
  | "string" => some .string
  | "object" => some .object
  | "void" => some .void
  | _ => none

/-- Splits a `>=` at the cursor into `>` and `=`. -/
def splitGreater (c : Cursor) : Cursor :=
  if c.kind = .greaterEqual then c.split .greater .equal else c

theorem weight_splitGreater (c : Cursor) : (splitGreater c).weight = c.weight := by
  unfold splitGreater
  split
  · next h => exact c.weight_split h
  · rfl

/-- Behind the bracket that closes a type no more is left than in front of it. -/
theorem weight_closed_le (c : Cursor) : ((splitGreater c).expect .greater).rest.weight ≤ c.weight :=
  Nat.le_trans ((splitGreater c).weight_expect_le .greater) (Nat.le_of_eq (weight_splitGreater c))

/-- The type read and the cursor behind it, with the proof that no more is left. -/
def typeNameWithin (c : Cursor) : { r : TypeName × Cursor // r.2.weight ≤ c.weight } :=
  let name := c.current
  if _hk : c.kind = .identifier then
    have hlt : c.advance.weight < c.weight := c.weight_advance_lt (by simp [_hk])
    if name.value = "list" then
      match hc : c.advance.accept? .less with
      | none =>
        ⟨(⟨.list .object, c.advance.spanFrom name.span, []⟩, c.advance), Nat.le_of_lt hlt⟩
      | some d =>
        have hd := Cursor.weight_accept?_lt (by decide) hc
        match typeNameWithin d with
        | ⟨(element, r), h⟩ =>
          let closed := (splitGreater r).expect .greater
          ⟨(⟨.list element.ty, closed.rest.spanFrom name.span, element.errors ++ closed.errors⟩,
              closed.rest),
            Nat.le_of_lt (Nat.lt_of_le_of_lt (Nat.le_trans (weight_closed_le r) h)
              (Nat.lt_trans hd hlt))⟩
    else
      match simpleType? name.value with
      | some t => ⟨(⟨t, c.advance.spanFrom name.span, []⟩, c.advance), Nat.le_of_lt hlt⟩
      | none =>
        ⟨(⟨.object, c.advance.spanFrom name.span, [(Cause.badTypeName name.value).at name.span]⟩,
            c.advance), Nat.le_of_lt hlt⟩
  else ⟨(⟨.object, name.span, [(Cause.badTypeName name.value).at name.span]⟩, c), Nat.le_refl _⟩
termination_by c.weight

def typeName (c : Cursor) : TypeName × Cursor := (typeNameWithin c).1

theorem typeName_of_list {c d : Cursor} (hk : c.kind = .identifier)
    (hn : c.current.value = "list") (hd : c.advance.accept? .less = some d) :
    typeName c =
      let (element, r) := typeName d
      let closed := (splitGreater r).expect .greater
      (⟨.list element.ty, closed.rest.spanFrom c.current.span, element.errors ++ closed.errors⟩,
        closed.rest) := by
  unfold typeName
  rw [typeNameWithin]
  simp only [hk, hn, dite_true, if_true]
  split
  · next h => rw [hd] at h; cases h
  · next d' h => rw [hd] at h; cases h; rfl

/-- The type behind a colon, if there is one. -/
def declaredType (c : Cursor) : Option TypeName × Cursor :=
  match c.accept? .colon with
  | none => (none, c)
  | some d =>
    let (t, r) := typeName d
    (some t, r)

theorem weight_declaredType_le (c : Cursor) : (declaredType c).2.weight ≤ c.weight := by
  unfold declaredType
  split
  · exact Nat.le_refl _
  · next d h =>
    have := Cursor.weight_accept?_lt (by decide) h
    exact Nat.le_trans (typeNameWithin d).2 (Nat.le_of_lt this)

end CatScript.Grammar
