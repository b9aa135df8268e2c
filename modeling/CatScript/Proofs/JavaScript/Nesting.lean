import CatScript.Proofs.JavaScript.Blocks
import CatScript.Proofs.JavaScript.Printing
import CatScript.Proofs.JavaScript.Sources

/-!
# Scripts nest like their programs

An expression of a source is one line and starts with neither a space nor a brace. What its literals
hold does not matter, for behind the last expression of a line there is a semicolon or a brace that
opens a block. So the braces that open and close blocks are those that were written for them.

`Stmt.blocks` is what should be seen of a statement: its lines, and a block for each body. An else
part that is a single conditional has no block of its own. Reading the lines of a statement adds its
blocks to what has been read, however deep it stands (`Stmt.reads`); the closing brace of an if and
that of its else parts is the same line, so an else part is read together with that line.

A body `Returns` if every path through its last statement ends in a return, which can be seen of its
blocks. Bodies of functions do, for what does not is followed by `return null;`.

Results:
* `Stmt.reads`: the lines of a statement are read as its blocks.
* `Program.functions_blocks`: the blocks of functions in a program are those of its functions.
* `Stmt.returns_finalReturn`: the body of every function returns.
* `Program.javaScript_nests`: all of this of the script of a program.
-/
namespace CatScript

open JavaScript

/-! ## Texts of names and expressions -/

namespace JavaScript

/-- A line end is escaped. -/
theorem newline_not_mem_literalChar (c : Char) : '\n' ∉ literalChar c := by
  have hall : ∀ n < 0x20, '\n' ∉ hex4 n := by decide
  unfold literalChar
  split
  · decide
  split
  · decide
  split
  · decide
  split
  · decide
  split
  · decide
  split
  · next hcontrol => simpa using hall _ hcontrol
  · next hline _ _ _ => simpa [eq_comm] using hline

theorem inline_literal (s : String) : Inline (literal s) := by
  refine ⟨⟨'"', by simp [literal], by decide⟩, ?_⟩
  rw [OneLine, literal, String.toList_ofList]
  simp [newline_not_mem_literalChar]

theorem inline_decimal {v : Int64} (hv : 0 ≤ v) : Inline (Text.decimal v) := by
  have hdigit : ∀ c ∈ Nat.toDigits 10 v.toInt.toNat, c ≠ ' ' ∧ c ≠ '\x7d' ∧ c ≠ '\n' := by
    intro c hc
    have := Token.isDigit_of_mem_toDigits hc
    refine ⟨?_, ?_, ?_⟩ <;> (rintro rfl; revert this; decide)
  obtain ⟨c, cs, hcs⟩ := List.exists_cons_of_ne_nil
    (Nat.toDigits_ne_nil (n := v.toInt.toNat) (b := 10))
  have hc := hdigit c (hcs ▸ List.mem_cons_self ..)
  refine ⟨⟨c, ?_, hc.1, hc.2.1⟩, fun hmem => ?_⟩
  · rw [Text.toList_decimal hv, hcs]
    rfl
  · rw [Text.toList_decimal hv] at hmem
    exact (hdigit _ hmem).2.2 rfl

end JavaScript

theorem IsName.inline {x : String} (h : IsName x) : Inline x := by
  obtain ⟨c, cs, hx, hc, hcs⟩ := h.word
  refine ⟨⟨c, by rw [hx]; rfl, ?_, ?_⟩, fun hmem => ?_⟩
  · rintro rfl
    revert hc
    decide
  · rintro rfl
    revert hc
    decide
  · have hword : Token.inWord '\n' = true := by
      rw [hx] at hmem
      rcases List.mem_cons.1 hmem with rfl | hmem
      · exact Token.inWord_of_startsWord hc
      · exact hcs _ hmem
    revert hword
    decide

theorem UnaryOp.inline (op : UnaryOp) : Inline op.javaScript := by
  cases op <;> decide

theorem BinaryOp.inline (op : BinaryOp) {l r : String} (hl : Inline l) (hr : Inline r) :
    Inline (op.javaScript l r) := by
  have hadd : Inline "$add(" := by decide
  have heq : Inline "$eq(" := by decide
  have hne : Inline "!$eq(" := by decide
  have hdiv : Inline "Math.trunc(" := by decide
  have hcomma : OneLine ", " := by decide
  have hslash : OneLine " / " := by decide
  have hclose : OneLine ")" := by decide
  have hblank : OneLine " " := by decide
  have htext : OneLine op.text := by cases op <;> decide
  have hmark : Inline (l ++ " " ++ op.text ++ " " ++ r) :=
    (((hl.append hblank).append htext).append hblank).append hr.oneLine
  have hcall {f mid : String} (hf : Inline f) (hmid : OneLine mid) :
      Inline (f ++ l ++ mid ++ r ++ ")") :=
    (((hf.append hl.oneLine).append hmid).append hr.oneLine).append hclose
  cases op with
  | add => exact hcall hadd hcomma
  | eq => exact hcall heq hcomma
  | ne => exact hcall hne hcomma
  | div => exact hcall hdiv hslash
  | _ => exact hmark

namespace Expr

mutual

theorem Plain.inline : (e : Expr) → e.Plain → Inline e.javaScript
  | int _ v, hv => inline_decimal hv
  | str _ v, _ => inline_literal v
  | bool _ true, _ => show Inline "true" by decide
  | bool _ false, _ => show Inline "false" by decide
  | null _, _ => show Inline "null" by decide
  | var _ _, hx => IsName.inline hx
  | unary _ op e, he => by
    have ih := Plain.inline e he
    rw [javaScript]
    split
    · exact ((op.inline.append (by decide)).append ih.oneLine).append (by decide)
    · exact op.inline.append ih.oneLine
  | binary _ op l r, ⟨hl, hr⟩ => op.inline (Plain.inline l hl) (Plain.inline r hr)
  | paren _ e, he =>
    have hopen : Inline "(" := by decide
    (hopen.append (Plain.inline e he).oneLine).append (by decide)
  | list _ es, hes =>
    have hopen : Inline "[" := by decide
    (hopen.append (PlainAll.oneLine es hes)).append (by decide)
  | call _ f es _, ⟨hf, hes⟩ =>
    ((hf.inline.append (by decide)).append (PlainAll.oneLine es hes)).append (by decide)

theorem PlainAll.oneLine : (es : List Expr) → PlainAll es → OneLine (javaScriptAll es)
  | [], _ => by decide
  | [e], ⟨he, _⟩ => (Plain.inline e he).oneLine
  | e :: d :: es, ⟨he, hes⟩ =>
    ((Plain.inline e he).oneLine.append (by decide)).append (PlainAll.oneLine (d :: es) hes)

end

end Expr

/-! ## Blocks of statements -/

/-- The line that opens a function. -/
def Header.opening (h : Header) : String :=
  "function " ++ h.name ++ "(" ++ ", ".intercalate (h.params.map (·.name)) ++ ") \x7b"

namespace Stmt

/-- The return behind a body that does not return itself. -/
def finalReturn (body : List Stmt) : List Block :=
  if lastReturns body then [] else [.line "return null;"]

mutual

/-- The lines of a statement and the blocks in it. The parts of a conditional are blocks next to
each other. -/
def blocks : Stmt → List Block
  | print _ e => [.line ("console.log($str(" ++ e.javaScript ++ "));")]
  | forEach _ x e body =>
    [.block ("for (const " ++ x ++ " of " ++ e.javaScript ++ ") \x7b") (blocksOfAll body)]
  | cond _ e yes none => [.block ("if (" ++ e.javaScript ++ ") \x7b") (blocksOfAll yes)]
  | cond _ e yes (some no) =>
    .block ("if (" ++ e.javaScript ++ ") \x7b") (blocksOfAll yes) :: elseBlocks no
  | declare _ x _ e => [.line ("let " ++ x ++ " = " ++ e.javaScript ++ ";")]
  | assign _ x e => [.line (x ++ " = " ++ e.javaScript ++ ";")]
  | call _ e => [.line (e.javaScript ++ ";")]
  | define _ h body => [.block h.opening (blocksOfAll body ++ finalReturn body)]
  | ret _ none => [.line "return null;"]
  | ret _ (some e) => [.line ("return " ++ e.javaScript ++ ";")]
  | invalid _ _ => []

def blocksOfAll : List Stmt → List Block
  | [] => []
  | s :: ss => s.blocks ++ blocksOfAll ss

/-- The blocks of an else part. One that is a single conditional is a block of its own for each part
of that. -/
def elseBlocks : List Stmt → List Block
  | [] => [.block "\x7d else \x7b" []]
  | [cond _ e yes none] => [.block ("\x7d else if (" ++ e.javaScript ++ ") \x7b") (blocksOfAll yes)]
  | [cond _ e yes (some no)] =>
    .block ("\x7d else if (" ++ e.javaScript ++ ") \x7b") (blocksOfAll yes) :: elseBlocks no
  | s :: ss => [.block "\x7d else \x7b" (s.blocks ++ blocksOfAll ss)]

end

theorem elseBlocks_of_noChain {ss : List Stmt} (h : NoChain ss) :
    elseBlocks ss = [.block "\x7d else \x7b" (blocksOfAll ss)] := by
  cases ss with
  | nil => rfl
  | cons s ss =>
    rw [elseBlocks]
    · rfl
    · rintro n e yes rfl rfl
      exact h n e yes none rfl
    · rintro n e yes no rfl rfl
      exact h n e yes (some no) rfl

end Stmt

/-- The block of a function. -/
def Function.block (f : Function) : Block :=
  .block f.header.opening (Stmt.blocksOfAll f.body ++ Stmt.finalReturn f.body)

namespace Program

/-- The lines and blocks of a program. -/
def blocks (p : Program) : List Block :=
  match p.body with
  | .expression e => [.line ("console.log($str(" ++ e.javaScript ++ "));")]
  | .statements ss => Stmt.blocksOfAll ss

end Program

/-! ## Reading what is printed -/

namespace JavaScript

theorem getLast?_append {s t : String} {c : Char} (h : t.toList.getLast? = some c) :
    (s ++ t).toList.getLast? = some c := by
  rw [String.toList_append, List.getLast?_append, h]
  rfl

/-- A line that ends in a semicolon. -/
theorem Nesting.Reads.statement {n : Nesting} {s t : String} (hs : Inline s) (ht : OneLine t)
    (hlast : t.toList.getLast? = some ';') :
    n.Reads [⟨n.depth, s ++ t⟩] (n.add [.line (s ++ t)]) := by
  refine .line (hs.append ht) ?_
  rw [getLast?_append hlast]
  decide

theorem oneLine_intercalate {xs : List String} (h : ∀ x ∈ xs, OneLine x) :
    OneLine (", ".intercalate xs) := by
  rw [OneLine, String.toList_intercalate]
  induction xs with
  | nil => exact List.not_mem_nil
  | cons x xs ih =>
    obtain ⟨hx, hxs⟩ := List.forall_mem_cons.1 h
    cases xs with
    | nil =>
      rw [List.map_singleton, List.intercalate_singleton]
      exact hx
    | cons y ys =>
      have hrest := ih hxs
      rw [List.map_cons, List.map_cons, List.intercalate_cons_cons, List.mem_append,
        List.mem_append]
      exact not_or.2 ⟨not_or.2 ⟨hx, by decide⟩, hrest⟩

end JavaScript

open Nesting (Reads)

theorem Header.inline_opening {h : Header} (hname : IsName h.name)
    (hparams : ∀ p ∈ h.params, IsName p.name) : Inline h.opening := by
  have hlist : OneLine (", ".intercalate (h.params.map (·.name))) :=
    oneLine_intercalate fun x hx => by
      obtain ⟨p, hp, rfl⟩ := List.mem_map.1 hx
      exact (hparams p hp).inline.oneLine
  have hfunction : Inline "function " := by decide
  have hname' := (hfunction.append hname.inline.oneLine).append (t := "(") (by decide)
  exact (hname'.append hlist).append (by decide)

namespace Stmt

section

variable {x : String} {e : Expr} {n m : Nesting}

theorem reads_for (hx : IsName x) (he : e.Plain) :
    let text := "for (const " ++ x ++ " of " ++ e.javaScript ++ ") \x7b"
    n.Reads [⟨n.depth, text⟩] (n.opened text) := by
  have hfor : Inline "for (const " := by decide
  have hof : OneLine " of " := by decide
  have hline := ((hfor.append hx.inline.oneLine).append hof).append he.inline.oneLine
  exact .opening (hline.append (by decide)) (getLast?_append (by decide))

theorem reads_if (he : e.Plain) :
    let text := "if (" ++ e.javaScript ++ ") \x7b"
    n.Reads [⟨n.depth, text⟩] (n.opened text) := by
  have hif : Inline "if (" := by decide
  exact .opening ((hif.append he.inline.oneLine).append (by decide)) (getLast?_append (by decide))

theorem reads_elseIf (he : e.Plain) (hm : n.close? = some m) :
    let text := "\x7d else if (" ++ e.javaScript ++ ") \x7b"
    n.Reads [⟨m.depth, text⟩] (m.opened text) := by
  have helse : OneLine "\x7d else if (" := by decide
  refine .reopening hm ((helse.append he.inline.oneLine).append (by decide)) ?_
    (getLast?_append (by decide))
  rw [String.append_assoc, String.toList_append, List.head?_append]
  rfl

theorem reads_finalReturn (body : List Stmt) :
    n.Reads (if lastReturns body then [] else [⟨n.depth, "return null;"⟩])
      (n.add (finalReturn body)) := by
  unfold finalReturn
  split
  · rw [Nesting.add_nil]
    exact .refl n
  · exact .line (by decide) (by decide)

end

theorem reads_cases :
    Cases (fun s => s.Plain → ∀ n : Nesting, n.Reads (s.javaScript n.depth) (n.add s.blocks))
      (fun ss => PlainAll ss → ∀ n : Nesting,
        n.Reads (javaScriptAll n.depth ss) (n.add (blocksOfAll ss)))
      (fun ss => PlainAll ss → ∀ n m : Nesting, n.close? = some m →
        n.Reads (elseLines m.depth ss ++ [⟨m.depth, "\x7d"⟩]) (m.add (elseBlocks ss))) where
  print _ e he n := by
    have hlog : Inline "console.log($str(" := by decide
    exact .statement (hlog.append (Expr.Plain.inline e he).oneLine) (by decide) (by decide)
  forEach _ _ _ _ ih h n := by
    obtain ⟨hx, he, hbody⟩ := h
    exact .block (reads_for hx he) (ih hbody _)
  cond _ _ _ ih h n := by
    obtain ⟨he, hyes⟩ := h
    exact .block (reads_if he) (ih hyes _)
  condElse _ _ _ _ ih ihno h n := by
    obtain ⟨he, hyes, hno⟩ := h
    rw [javaScript, List.append_assoc]
    -- the first line of the else part closes the block that the condition opened
    exact .chain (reads_if he) (ih hyes _) (ihno hno _ (n.add [_]) rfl)
  declare _ _ _ _ h n := by
    obtain ⟨hx, he⟩ := h
    have hlet : Inline "let " := by decide
    exact .statement (((hlet.append hx.inline.oneLine).append (by decide)).append
      he.inline.oneLine) (by decide) (by decide)
  assign _ _ _ h n := by
    obtain ⟨hx, he⟩ := h
    exact .statement ((hx.inline.append (by decide)).append he.inline.oneLine) (by decide)
      (by decide)
  call _ e he n := .statement (Expr.Plain.inline e he) (by decide) (by decide)
  define _ header body ih h n := by
    obtain ⟨⟨hname, hparams⟩, hbody⟩ := h
    rw [javaScript, List.cons_append]
    refine .block (.opening (header.inline_opening hname hparams) (getLast?_append (by decide))) ?_
    rw [← Nesting.add_add]
    exact (ih hbody _).append (reads_finalReturn body)
  ret _ _ n := .line (show Inline "return null;" by decide) (by decide)
  retWith _ e he n := by
    have hreturn : Inline "return " := by decide
    exact .statement (hreturn.append (Expr.Plain.inline e he).oneLine) (by decide) (by decide)
  invalid _ _ _ n := by
    rw [blocks, Nesting.add_nil]
    exact .refl n
  nil _ n := by
    rw [blocksOfAll, Nesting.add_nil]
    exact .refl n
  cons _ _ ih ihs h n := by
    rw [blocksOfAll, ← Nesting.add_add]
    exact (ih h.1 n).append (ihs h.2 _)
  elseIf _ _ _ ih h n m hm := by
    obtain ⟨⟨he, hyes⟩, -⟩ := h
    exact .block (reads_elseIf he hm) (ih hyes _)
  elseIfElse _ _ _ _ ih ihno h n m hm := by
    obtain ⟨⟨he, hyes, hno⟩, -⟩ := h
    rw [elseLines, List.append_assoc]
    exact .chain (reads_elseIf he hm) (ih hyes _) (ihno hno _ (m.add [_]) rfl)
  elseBody _ hchain ih h n m hm := by
    rw [elseLines_of_noChain hchain, elseBlocks_of_noChain hchain]
    have hopen : n.Reads [⟨m.depth, "\x7d else \x7b"⟩] (m.opened "\x7d else \x7b") :=
      .reopening hm (by decide) (by decide) (by decide)
    exact .block hopen (ih h _)

/-- The lines of a statement are read as its blocks. -/
theorem reads {s : Stmt} (h : s.Plain) (n : Nesting) :
    n.Reads (s.javaScript n.depth) (n.add s.blocks) :=
  reads_cases.stmt s h n

/-- The lines of statements are read as the blocks of each of them. -/
theorem readsAll {ss : List Stmt} (h : PlainAll ss) (n : Nesting) :
    n.Reads (javaScriptAll n.depth ss) (n.add (blocksOfAll ss)) :=
  reads_cases.all ss h n

end Stmt

/-! ## Functions -/

namespace JavaScript

def opensFunction (opening : String) : Bool := "function ".toList.isPrefixOf opening.toList

mutual

/-- The blocks of functions, each before those in it. -/
def Block.functions : Block → List Block
  | line _ => []
  | block opening body =>
    if opensFunction opening then .block opening body :: functionsOfAll body
    else functionsOfAll body

def Block.functionsOfAll : List Block → List Block
  | [] => []
  | b :: bs => b.functions ++ functionsOfAll bs

end

theorem Block.functionsOfAll_append (bs cs : List Block) :
    functionsOfAll (bs ++ cs) = functionsOfAll bs ++ functionsOfAll cs := by
  induction bs with
  | nil => rfl
  | cons b bs ih => simp [functionsOfAll, ih]

end JavaScript

theorem Header.opensFunction_opening (h : Header) : opensFunction h.opening = true := by
  change opensFunction ("function " ++ h.name ++ "(" ++ _ ++ ") \x7b") = true
  simp [opensFunction]

namespace Stmt

theorem functions_finalReturn (body : List Stmt) :
    Block.functionsOfAll (finalReturn body) = [] := by
  unfold finalReturn
  split <;> rfl

theorem functions_cases :
    Cases (fun s => Block.functionsOfAll s.blocks = s.functions.map Function.block)
      (fun ss => Block.functionsOfAll (blocksOfAll ss) = (functionsOfAll ss).map Function.block)
      (fun ss => Block.functionsOfAll (elseBlocks ss) =
        (functionsOfAll ss).map Function.block) where
  print _ _ := rfl
  forEach _ _ _ _ ih := by
    simp [blocks, functions, Block.functionsOfAll, Block.functions, opensFunction, ih]
  cond _ _ _ ih := by
    simp [blocks, functions, Block.functionsOfAll, Block.functions, opensFunction, ih]
  condElse _ _ _ _ ih ihno := by
    simp [blocks, functions, Block.functionsOfAll, Block.functions, opensFunction, ih, ihno]
  declare _ _ _ _ := rfl
  assign _ _ _ := rfl
  call _ _ := rfl
  define _ h body ih := by
    simp [blocks, functions, Block.functionsOfAll, Block.functions, h.opensFunction_opening,
      Function.block, Block.functionsOfAll_append, functions_finalReturn, ih]
  ret _ := rfl
  retWith _ _ := rfl
  invalid _ _ := rfl
  nil := rfl
  cons _ _ ih ihs := by
    simp [blocksOfAll, functionsOfAll, Block.functionsOfAll_append, ih, ihs]
  elseIf _ _ _ ih := by
    simp [elseBlocks, functionsOfAll, functions, Block.functionsOfAll, Block.functions,
      opensFunction, ih]
  elseIfElse _ _ _ _ ih ihno := by
    simp [elseBlocks, functionsOfAll, functions, Block.functionsOfAll, Block.functions,
      opensFunction, ih, ihno]
  elseBody _ h ih := by
    simp [elseBlocks_of_noChain h, Block.functionsOfAll, Block.functions, opensFunction, ih]

end Stmt

/-! ## Returns -/

namespace JavaScript

mutual

/-- Every path through the last line or block ends in a return: it is one, or it is a conditional
with an else part of which every part ends so. -/
inductive Returns : List Block → Prop where
  | line (before : List Block) (value : String) :
    Returns (before ++ [.line ("return " ++ value ++ ";")])
  | branch (before : List Block) (test : String) {yes rest : List Block} :
    Returns yes → ElseReturns rest →
      Returns (before ++ .block ("if (" ++ test ++ ") \x7b") yes :: rest)

inductive ElseReturns : List Block → Prop where
  | last {no : List Block} : Returns no → ElseReturns [.block "\x7d else \x7b" no]
  | branch (test : String) {yes rest : List Block} : Returns yes → ElseReturns rest →
    ElseReturns (.block ("\x7d else if (" ++ test ++ ") \x7b") yes :: rest)

end

end JavaScript

namespace Stmt

theorem returns_cases :
    Cases (fun s => s.returns = true → ∀ before, Returns (before ++ s.blocks))
      (fun ss => lastReturns ss = true → ∀ before, Returns (before ++ blocksOfAll ss))
      (fun ss => lastReturns ss = true → ElseReturns (elseBlocks ss)) where
  print := nofun
  forEach := nofun
  cond := nofun
  condElse _ e _ _ ih ihno h before := by
    obtain ⟨hyes, hno⟩ := Bool.and_eq_true_iff.1 h
    exact .branch before e.javaScript (ih hyes []) (ihno hno)
  declare := nofun
  assign := nofun
  call := nofun
  define := nofun
  ret _ _ before := .line before "null"
  retWith _ e _ before := .line before e.javaScript
  invalid := nofun
  nil := nofun
  cons s ss ih ihs h before := by
    rw [blocksOfAll, ← List.append_assoc]
    cases ss with
    | nil =>
      rw [blocksOfAll, List.append_nil]
      exact ih h before
    | cons r ss => exact ihs h _
  elseIf := nofun
  elseIfElse _ e _ _ ih ihno h := by
    obtain ⟨hyes, hno⟩ := Bool.and_eq_true_iff.1 h
    exact .branch e.javaScript (ih hyes []) (ihno hno)
  elseBody _ hchain ih h := by
    rw [elseBlocks_of_noChain hchain]
    exact .last (ih h [])

/-- With what stands behind it, every body returns. -/
theorem returns_finalReturn (body : List Stmt) :
    Returns (blocksOfAll body ++ finalReturn body) := by
  unfold finalReturn
  split
  · next h =>
    rw [List.append_nil]
    exact returns_cases.all body h []
  · exact .line _ "null"

end Stmt

/-! ## Programs -/

namespace Program

theorem Plain.reads {p : Program} (h : p.Plain) :
    Reads ⟨[], []⟩ p.javaScriptLines ⟨[], p.blocks⟩ := by
  obtain ⟨body, span⟩ := p
  cases body with
  | expression e => exact Stmt.reads (s := .print ⟨span, []⟩ e) h ⟨[], []⟩
  | statements ss => exact Stmt.readsAll h ⟨[], []⟩

theorem functions_blocks (p : Program) :
    Block.functionsOfAll p.blocks = p.functions.map Function.block := by
  obtain ⟨body, span⟩ := p
  cases body with
  | expression e => rfl
  | statements ss => exact Stmt.functions_cases.all ss

/-- The script of a program that was read without a diagnostic nests like the program. Printing ends
with all blocks closed. Behind the prelude, each line is indented by four spaces for each block
around it, a line that starts with a closing brace ends a block first, and what the braces enclose
are the blocks of the program's statements. The functions among them are those of the program, and
the body of each one returns at its end, by `return null;` unless all paths through its last
statement do. -/
theorem javaScript_nests {source file : String} {p : Program}
    (hp : p.bare = (parse source file).bare) (h : (parse source file).diagnostics = []) :
    p.emit = ⟨p.javaScript, 0⟩ ∧
      ∃ ls : List String, p.javaScript = prelude ++ String.join (ls.map (· ++ "\n")) ∧
        (∀ l ∈ ls, OneLine l) ∧ Balanced ls ∧ readBlocks ls = some p.blocks ∧
        Block.functionsOfAll p.blocks = p.functions.map Function.block ∧
        ∀ f ∈ p.functions, Returns (Stmt.blocksOfAll f.body ++ Stmt.finalReturn f.body) := by
  have hplain : p.Plain := by
    rw [← p.plain_bare, hp, plain_bare]
    exact parse_plain h
  have hreads := hplain.reads
  have hblocks : readBlocks (p.javaScriptLines.map Line.indented) = some p.blocks :=
    readBlocks_eq_some.2 hreads.read
  refine ⟨p.emit_eq, p.javaScriptLines.map Line.indented, ?_, ?_, readBlocks_balanced hblocks,
    hblocks, p.functions_blocks, fun f _ => Stmt.returns_finalReturn f.body⟩
  · rw [javaScript, render, List.map_map]
    rfl
  · intro l hl
    obtain ⟨k, hk, rfl⟩ := List.mem_map.1 hl
    exact Line.oneLine_indented (hreads.oneLine k hk)

/-- A chain of conditionals of which one part does not return. -/
theorem javaScript_nests_sign :
    let source := "function sign(x) \x7b if (x > 0) \x7b return 1 \x7d else if (x < 0) " ++
      "\x7b return \"\x7d\" \x7d else \x7b for (y in x) \x7b f() \x7d \x7d \x7d"
    let p := parse source "sign.cat"
    p.diagnostics = [] ∧
      p.check.javaScriptLines.map Line.indented =
        ["function sign(x) \x7b",
          "    if (x > 0) \x7b",
          "        return 1;",
          "    \x7d else if (x < 0) \x7b",
          "        return \"\x7d\";",
          "    \x7d else \x7b",
          "        for (const y of x) \x7b",
          "            f();",
          "        \x7d",
          "    \x7d",
          "    return null;",
          "\x7d"] ∧
      p.check.emit = ⟨p.check.javaScript, 0⟩ ∧
      ∃ ls : List String, p.check.javaScript = prelude ++ String.join (ls.map (· ++ "\n")) ∧
        (∀ l ∈ ls, OneLine l) ∧ Balanced ls ∧ readBlocks ls = some p.check.blocks ∧
        Block.functionsOfAll p.check.blocks = p.check.functions.map Function.block ∧
        ∀ f ∈ p.check.functions,
          Returns (Stmt.blocksOfAll f.body ++ Stmt.finalReturn f.body) := by
  intro source p
  have hread : p.diagnostics = [] := by decide +kernel
  exact ⟨hread, by decide +kernel, javaScript_nests p.check_bare hread⟩

end Program

end CatScript
