import CatScript.JavaScript.Printer

/-!
# Printing

A printer that counts open blocks writes the same lines as are written with a depth for each line.
A body is printed between one step in and one step out, so the count is never taken below zero, and
behind every statement it is what it was in front of it.

An else part that is a single conditional is printed without a block of its own, so what is shown of
the lines of a statement is shown by an induction with three claims: one for statements, one for
bodies and one for else parts (`Stmt.Cases`).

Results:
* `Stmt.Cases.stmt`, `Stmt.Cases.all`: the induction.
* `Stmt.emit_eq`: printing a statement writes its lines and leaves the depth as it was.
* `Program.emit_eq`: printing a program ends with all blocks closed.
-/
namespace CatScript

open JavaScript

/-! ## Else parts -/

namespace Stmt

/-- The statements are no single conditional. -/
def NoChain (ss : List Stmt) : Prop := ∀ n e yes no, ss ≠ [cond n e yes no]

/-- The cases of an induction along statements (`P`), bodies (`Q`) and else parts (`E`). An else
part is a single conditional, with an else part or without one, or it is a body. -/
structure Cases (P : Stmt → Prop) (Q E : List Stmt → Prop) : Prop where
  print : ∀ n e, P (.print n e)
  forEach : ∀ n x e body, Q body → P (.forEach n x e body)
  cond : ∀ n e yes, Q yes → P (.cond n e yes none)
  condElse : ∀ n e yes no, Q yes → E no → P (.cond n e yes (some no))
  declare : ∀ n x t e, P (.declare n x t e)
  assign : ∀ n x e, P (.assign n x e)
  call : ∀ n e, P (.call n e)
  define : ∀ n h body, Q body → P (.define n h body)
  ret : ∀ n, P (.ret n none)
  retWith : ∀ n e, P (.ret n (some e))
  invalid : ∀ n t, P (.invalid n t)
  nil : Q []
  cons : ∀ s ss, P s → Q ss → Q (s :: ss)
  elseIf : ∀ n e yes, Q yes → E [.cond n e yes none]
  elseIfElse : ∀ n e yes no, Q yes → E no → E [.cond n e yes (some no)]
  elseBody : ∀ ss, NoChain ss → Q ss → E ss

namespace Cases

variable {P : Stmt → Prop} {Q E : List Stmt → Prop}

mutual

/-- A conditional is at the same time an else part. -/
theorem both (c : Cases P Q E) :
    (s : Stmt) → P s ∧ ((∃ n e yes no, s = .cond n e yes no) → E [s])
  | .cond n e yes none =>
    ⟨c.cond n e yes (c.bothAll yes).1, fun _ => c.elseIf n e yes (c.bothAll yes).1⟩
  | .cond n e yes (some no) =>
    ⟨c.condElse n e yes no (c.bothAll yes).1 (c.bothAll no).2,
      fun _ => c.elseIfElse n e yes no (c.bothAll yes).1 (c.bothAll no).2⟩
  | .print n e => ⟨c.print n e, by simp⟩
  | .forEach n x e body => ⟨c.forEach n x e body (c.bothAll body).1, by simp⟩
  | .declare n x t e => ⟨c.declare n x t e, by simp⟩
  | .assign n x e => ⟨c.assign n x e, by simp⟩
  | .call n e => ⟨c.call n e, by simp⟩
  | .define n h body => ⟨c.define n h body (c.bothAll body).1, by simp⟩
  | .ret n none => ⟨c.ret n, by simp⟩
  | .ret n (some e) => ⟨c.retWith n e, by simp⟩
  | .invalid n t => ⟨c.invalid n t, by simp⟩

theorem bothAll (c : Cases P Q E) : (ss : List Stmt) → Q ss ∧ E ss
  | [] => ⟨c.nil, c.elseBody [] (by simp [NoChain]) c.nil⟩
  | s :: ss => by
    have hs := c.both s
    have hall : Q (s :: ss) := c.cons s ss hs.1 (c.bothAll ss).1
    refine ⟨hall, ?_⟩
    -- a body is no smaller than itself as an else part, so the one is shown along with the other
    by_cases h : ∃ n e yes no, s :: ss = [.cond n e yes no]
    · obtain ⟨n, e, yes, no, hchain⟩ := h
      obtain ⟨hcond, hnil⟩ := List.cons.inj hchain
      rw [hnil]
      exact hs.2 ⟨n, e, yes, no, hcond⟩
    · exact c.elseBody _ (fun n e yes no hchain => h ⟨n, e, yes, no, hchain⟩) hall

end

theorem stmt (c : Cases P Q E) (s : Stmt) : P s := (c.both s).1

theorem all (c : Cases P Q E) (ss : List Stmt) : Q ss := (c.bothAll ss).1

end Cases

section

variable {ss : List Stmt} (h : NoChain ss)
include h

theorem elseLines_of_noChain (depth : Nat) :
    elseLines depth ss = ⟨depth, "\x7d else \x7b"⟩ :: javaScriptAll (depth + 1) ss := by
  cases ss with
  | nil => rfl
  | cons s ss =>
    rw [elseLines]
    · rfl
    · rintro n e yes rfl rfl
      exact h n e yes none rfl
    · rintro n e yes no rfl rfl
      exact h n e yes (some no) rfl

theorem emitElse_of_noChain (p : Printer) :
    emitElse p ss = (emitAll (p.line "\x7d else \x7b").indent ss).dedent := by
  cases ss with
  | nil => rfl
  | cons s ss =>
    rw [emitElse]
    · rfl
    · rintro n e yes rfl rfl
      exact h n e yes none rfl
    · rintro n e yes no rfl rfl
      exact h n e yes (some no) rfl

end

end Stmt

/-! ## Printing -/

namespace JavaScript

theorem render_append (ls ms : List Line) : render (ls ++ ms) = render ls ++ render ms := by
  rw [render, render, render, List.map_append, String.join_append]

namespace Printer

/-- Writes lines that know their depth. -/
def write (p : Printer) (ls : List Line) : Printer := { p with output := p.output ++ render ls }

@[simp] theorem write_nil (p : Printer) : p.write [] = p := by simp [write, render]

@[simp] theorem write_write (p : Printer) (ls ms : List Line) :
    (p.write ls).write ms = p.write (ls ++ ms) := by
  simp [write, render_append, String.append_assoc]

@[simp] theorem line_eq_write (p : Printer) (text : String) :
    p.line text = p.write [⟨p.depth, text⟩] := by
  simp [line, write, render]

@[simp] theorem depth_write (p : Printer) (ls : List Line) : (p.write ls).depth = p.depth := rfl

@[simp] theorem depth_indent (p : Printer) : p.indent.depth = p.depth + 1 := rfl

@[simp] theorem indent_write (p : Printer) (ls : List Line) :
    (p.write ls).indent = p.indent.write ls := rfl

@[simp] theorem dedent_write (p : Printer) (ls : List Line) :
    (p.write ls).dedent = p.dedent.write ls := rfl

@[simp] theorem dedent_indent (p : Printer) : p.indent.dedent = p := rfl

end Printer

end JavaScript

namespace Stmt

theorem emit_cases : Cases (fun s => ∀ p, s.emit p = p.write (s.javaScript p.depth))
    (fun ss => ∀ p, emitAll p ss = p.write (javaScriptAll p.depth ss))
    (fun ss => ∀ p, emitElse p ss = p.write (elseLines p.depth ss)) where
  print _ _ p := by simp [emit, javaScript]
  forEach _ _ _ _ ih p := by simp [emit, javaScript, ih]
  cond _ _ _ ih p := by simp [emit, javaScript, ih]
  condElse _ _ _ _ ih ihno p := by simp [emit, javaScript, ih, ihno]
  declare _ _ _ _ p := by simp [emit, javaScript]
  assign _ _ _ p := by simp [emit, javaScript]
  call _ _ p := by simp [emit, javaScript]
  define _ _ _ ih p := by
    simp only [emit, javaScript, ih]
    split <;> simp
  ret _ p := by simp [emit, javaScript]
  retWith _ _ p := by simp [emit, javaScript]
  invalid _ _ p := by simp [emit, javaScript]
  nil p := by simp [emitAll, javaScriptAll]
  cons _ _ ih ihs p := by simp [emitAll, javaScriptAll, ih, ihs]
  elseIf _ _ _ ih p := by simp [emitElse, elseLines, ih]
  elseIfElse _ _ _ _ ih ihno p := by simp [emitElse, elseLines, ih, ihno]
  elseBody _ h ih p := by simp [emitElse_of_noChain h, elseLines_of_noChain h, ih]

/-- Printing a statement writes its lines, and leaves as many blocks open as before. -/
theorem emit_eq (s : Stmt) (p : Printer) : s.emit p = p.write (s.javaScript p.depth) :=
  emit_cases.stmt s p

end Stmt

/-- All blocks are closed when a program has been printed. -/
theorem Program.emit_eq (p : Program) : p.emit = ⟨p.javaScript, 0⟩ := by
  obtain ⟨body, span⟩ := p
  cases body with
  | expression e => exact Printer.line_eq_write ⟨prelude, 0⟩ _
  | statements ss => exact Stmt.emit_cases.all ss ⟨prelude, 0⟩

end CatScript
