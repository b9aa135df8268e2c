import CatScript.Proofs.Code.Between
import CatScript.Proofs.Code.Matched

/-!
# States that show scenes

A state of the machine shows a scene if its globals, its output and the locals of the running
frame are those of the scene, each value held under the type of its variable (`Shows`). Loading,
storing and declaring a variable keep this, because a layout has no two variables in one place.
The code of an expression leaves the value of the expression on the stack (`Expr.lower_matched`).

Iterators stand in the heap of the machine and are never taken away. A state shows a scene above
a heap, which is what has to be left alone for the loops around.
-/
namespace CatScript

open Typing Code Eval StackMachine

/-- How the machine holds a variable. -/
def Eval.Binding.held (b : Binding) : Slot := b.value.held b.ty

/-- What a frame has in the slot of a variable. -/
def Code.Variable.read (f : Frame) (v : Variable) : Slot :=
  match v.storage with
  | .global _ => .unset
  | .slot n => f.load n

/-- What a state has in common with a scene in every frame. -/
structure Agrees (heap : List (List Reference)) (σ : Scene) (s : State) : Prop where
  globals : s.globals = σ.globals.mapValues Binding.held
  output : s.output = σ.output
  heap : heap <+: s.heap

/-- The state shows the scene in a frame with the given layout. -/
structure Shows (L : Layout) (f : Frame) (heap : List (List Reference)) (σ : Scene)
    (s : State) : Prop extends Agrees heap σ s where
  locals : L.scopes.dropLast.map (Table.mapValues (Variable.read f)) =
    σ.locals.map (Table.mapValues Binding.held)

/-- `g` runs the code of `f` and has the same in some of its slots. -/
structure StackMachine.Frame.Keeps (slots : List Nat) (f g : Frame) : Prop where
  code : g.code = f.code
  load : ∀ n ∈ slots, g.load n = f.load n

variable {code : Code} {R : Rules} {result : Ty} {S : Scopes} {L K : Layout} {f g h : Frame}
  {heap heap' : List (List Reference)} {σ τ : Scene} {s : State} {n : Nat} {st : List Slot}
  {callers : List Frame} {slots : List Nat}

theorem StackMachine.Frame.Keeps.refl (slots : List Nat) (f : Frame) : f.Keeps slots f :=
  ⟨rfl, fun _ _ => rfl⟩

theorem StackMachine.Frame.Keeps.trans (h₁ : f.Keeps slots g) (h₂ : g.Keeps slots h) :
    f.Keeps slots h :=
  ⟨h₂.code.trans h₁.code, fun n hn => (h₂.load n hn).trans (h₁.load n hn)⟩

theorem StackMachine.Frame.Keeps.mono {slots' : List Nat} (h : f.Keeps slots g)
    (hs : ∀ n ∈ slots', n ∈ slots) : f.Keeps slots' g :=
  ⟨h.code, fun n hn => h.load n (hs n hn)⟩

theorem StackMachine.Frame.Keeps.store (h : n ∉ slots) (f : Frame) (v : Slot) :
    f.Keeps slots (f.store n v) := by
  refine ⟨rfl, fun m hm => ?_⟩
  rw [Frame.load_store, if_neg]
  rintro rfl
  exact h hm

theorem Agrees.mono (h : Agrees heap σ s) (hh : heap' <+: heap) : Agrees heap' σ s :=
  ⟨h.globals, h.output, hh.trans h.heap⟩

theorem Shows.mono (h : Shows L f heap σ s) (hh : heap' <+: heap) : Shows L f heap' σ s :=
  ⟨h.toAgrees.mono hh, h.locals⟩

theorem Shows.of_scopes (h : Shows L f heap σ s) (hs : K.scopes = L.scopes) :
    Shows K f heap σ s :=
  ⟨h.toAgrees, hs ▸ h.locals⟩

/-! ## Scopes -/

theorem Shows.push (h : Shows L f heap σ s) (hL : L.scopes ≠ []) :
    Shows L.push f heap { σ with locals := [] :: σ.locals } s := by
  refine ⟨⟨h.globals, h.output, h.heap⟩, ?_⟩
  rw [Layout.push, List.dropLast_cons_of_ne_nil hL, List.map_cons, List.map_cons, h.locals]
  rfl

theorem Shows.pop (h : Shows K f heap τ s) (hg : Layout.Grows L.push K) (hL : L.scopes ≠ []) :
    Shows K.pop f heap { τ with locals := τ.locals.tail } s := by
  refine ⟨⟨h.globals, h.output, h.heap⟩, ?_⟩
  have hl := h.locals
  have hlen := hg.length
  rw [hg.scopes_pop hL]
  have htail : K.scopes.tail = L.scopes := hg.outer
  cases hK : K.scopes with
  | nil =>
    rw [hK] at hlen
    cases hlen
  | cons scope scopes =>
    rw [hK, List.tail_cons] at htail
    subst htail
    rw [hK, List.dropLast_cons_of_ne_nil hL, List.map_cons] at hl
    show _ = List.map _ τ.locals.tail
    rw [List.map_tail, ← hl]
    rfl

/-! ## Loading -/

theorem Shows.findIn?_locals (h : Shows L f heap σ s) (x : String) :
    (Table.findIn? x L.scopes.dropLast).map (Variable.read f) =
      (Table.findIn? x σ.locals).map Binding.held := by
  have hmap := congrArg (Table.findIn? x) h.locals
  rwa [Table.findIn?_mapValues, Table.findIn?_mapValues] at hmap

/-- A variable is found in the same place in the layout and in the scene. -/
theorem Shows.found (h : Shows L f heap σ s) (hp : L.Placed) {x : String} {v : Variable}
    {b : Binding} (hv : L.find x = .ok v) (hb : σ.find? x = some b) :
    (∃ m, v.storage = .slot m ∧ f.load m = b.held ∧
      Table.findIn? x L.scopes.dropLast = some v ∧ Table.findIn? x σ.locals = some b) ∨
    (v.storage = .global x ∧ Table.findIn? x σ.locals = none ∧ σ.globals.find? x = some b) := by
  have hmap := h.findIn?_locals x
  rw [Scene.find?, Table.findIn?_append] at hb
  rcases hp.find hv with ⟨m, hm, hi⟩ | ⟨hg, hi, -⟩
  · rw [hi] at hmap
    obtain ⟨c, hc, hcv⟩ := Option.map_eq_some_iff.1 hmap.symm
    rw [hc] at hb
    cases hb
    refine .inl ⟨m, hm, ?_, hi, hc⟩
    rw [hcv, Variable.read, hm]
  · rw [hi] at hmap
    have hn := Option.map_eq_none_iff.1 hmap.symm
    rw [hn] at hb
    simp only [Option.none_or, Table.findIn?_cons, Table.findIn?_nil, Option.or_none] at hb
    exact .inr ⟨hg, hn, hb⟩

/-- A variable of the layout that the scene does not have is a global without a value. -/
theorem Shows.missed (h : Shows L f heap σ s) (hp : L.Placed) {x : String} {v : Variable}
    (hv : L.find x = .ok v) (hx : σ.find? x = none) :
    v.storage = .global x ∧ s.globals.find? x = none := by
  have hmap := h.findIn?_locals x
  rw [Scene.find?, Table.findIn?_append, Option.or_eq_none_iff] at hx
  rcases hp.find hv with ⟨m, -, hi⟩ | ⟨hg, -, -⟩
  · rw [hi, hx.1] at hmap
    cases hmap
  · have hglobal := hx.2
    rw [Table.findIn?_cons, Table.findIn?_nil, Option.or_none] at hglobal
    refine ⟨hg, ?_⟩
    rw [h.globals, Table.find?_mapValues, hglobal]
    rfl

theorem Shows.load_misses (h : Shows L f heap σ s) (hp : L.Placed) {x : String} {v : Variable}
    (hv : L.find x = .ok v) (hx : σ.find? x = none) (hc : f.code[n]? = some v.load) :
    Misses code .read x σ (s.resume (f.before n st) callers) := by
  obtain ⟨hg, hs⟩ := h.missed hp hv hx
  rw [Variable.load, hg] at hc
  exact .read hc hs h.output

theorem Shows.store_misses (h : Shows L f heap σ s) (hp : L.Placed) {x : String} {v : Variable}
    {a : Slot} (hv : L.find x = .ok v) (hx : σ.find? x = none) (hc : f.code[n]? = some v.store) :
    Misses code .write x σ (s.resume (f.before n (a :: st)) callers) := by
  obtain ⟨hg, hs⟩ := h.missed hp hv hx
  rw [Variable.store, hg] at hc
  exact .write hc hs h.output

theorem Shows.load_steps (h : Shows L f heap σ s) (hp : L.Placed) {x : String} {v : Variable}
    {b : Binding} (hv : L.find x = .ok v) (hb : σ.find? x = some b)
    (hc : f.code[n]? = some v.load) :
    Steps code (s.resume (f.before n st) callers)
      (s.resume (f.before (n + 1) (b.held :: st)) callers) := by
  unfold Variable.load at hc
  rcases h.found hp hv hb with ⟨m, hm, hload, -, -⟩ | ⟨hg, -, hfind⟩
  · rw [hm] at hc
    rw [← hload]
    exact .exec hc rfl
  · rw [hg] at hc
    refine .exec hc ?_
    rw [exec, h.globals, Table.find?_mapValues, hfind]
    rfl

/-! ## Storing -/

theorem mem_slotsIn {scope : Table Variable} {b : String × Variable} (hb : b ∈ scope)
    (hs : b.2.storage = .slot n) : n ∈ slotsIn scope :=
  List.mem_filterMap.2 ⟨b, hb, by simp only [Variable.slot?, hs]⟩

theorem read_store_self {v : Variable} (hv : v.storage = .slot n) (f : Frame) (a : Slot) :
    v.read (f.store n a) = a := by
  rw [Variable.read, hv]
  exact (Frame.load_store f n n a).trans (if_pos rfl)

theorem read_store_of_ne {v : Variable} (hv : v.storage ≠ .slot n) (f : Frame) (a : Slot) :
    v.read (f.store n a) = v.read f := by
  unfold Variable.read
  cases hs : v.storage with
  | global x => rfl
  | slot m =>
    have hm : m ≠ n := fun he => hv (he ▸ hs)
    exact (Frame.load_store f n m a).trans (if_neg hm)

/-- A slot that no variable of the scope has can be overwritten. -/
theorem mapValues_read_store {scope : Table Variable} (hn : n ∉ slotsIn scope) (f : Frame)
    (a : Slot) :
    scope.mapValues (Variable.read (f.store n a)) = scope.mapValues (Variable.read f) := by
  refine List.map_congr_left fun b hb => ?_
  rw [read_store_of_ne (fun hs => hn (mem_slotsIn hb hs))]

theorem map_read_store {scopes : List (Table Variable)} (hn : n ∉ scopes.flatMap slotsIn)
    (f : Frame) (a : Slot) : scopes.map (Table.mapValues (Variable.read (f.store n a))) =
      scopes.map (Table.mapValues (Variable.read f)) := by
  refine List.map_congr_left fun scope hs => mapValues_read_store (fun hm => hn ?_) f a
  exact List.mem_flatMap.2 ⟨scope, hs, hm⟩

/-- Overwriting the slot of a variable overwrites what is read under its name. -/
theorem insert_read {scope : Table Variable} (hn : (slotsIn scope).Nodup) {x : String}
    {v : Variable} (hx : scope.find? x = some v) (hv : v.storage = .slot n) (f : Frame) (a : Slot) :
    (scope.mapValues (Variable.read f)).insert x a =
      scope.mapValues (Variable.read (f.store n a)) := by
  induction scope with
  | nil => cases hx
  | cons b scope ih =>
    obtain ⟨y, w⟩ := b
    have hcons : ∀ g : Frame, Table.mapValues (Variable.read g) ((y, w) :: scope) =
        (y, w.read g) :: Table.mapValues (Variable.read g) scope := fun _ => rfl
    have hslots : ∀ m, w.storage = .slot m → m ∉ slotsIn scope ∧ (slotsIn scope).Nodup := by
      intro m hm
      rw [slotsIn, List.filterMap_cons, Variable.slot?, hm] at hn
      exact List.nodup_cons.1 hn
    rw [hcons, hcons, Table.insert]
    by_cases hy : y = x
    · simp only [Table.find?, if_pos hy, Option.some.injEq] at hx
      subst hx
      rw [if_pos hy, read_store_self hv, mapValues_read_store (hslots n hv).1, hy]
    · simp only [Table.find?, if_neg hy] at hx
      have hmem := mem_slotsIn (Table.mem_of_find? hx) hv
      rw [if_neg hy, read_store_of_ne fun hw => (hslots n hw).1 hmem]
      refine congrArg _ (ih ?_ hx)
      cases hw : w.storage with
      | global z => rwa [slotsIn, List.filterMap_cons, Variable.slot?, hw] at hn
      | slot m => exact (hslots m hw).2

theorem assignIn?_read {scopes : List (Table Variable)} (hn : (scopes.flatMap slotsIn).Nodup)
    {x : String} {v : Variable} (hx : Table.findIn? x scopes = some v) (hv : v.storage = .slot n)
    (f : Frame) (a : Slot) :
    Table.assignIn? x a (scopes.map (Table.mapValues (Variable.read f))) =
      some (scopes.map (Table.mapValues (Variable.read (f.store n a)))) := by
  induction scopes with
  | nil => cases hx
  | cons scope scopes ih =>
    rw [List.flatMap_cons, List.nodup_append] at hn
    obtain ⟨hscope, hscopes, hdisjoint⟩ := hn
    rw [Table.findIn?_cons] at hx
    rw [List.map_cons, List.map_cons, Table.assignIn?, Table.contains_mapValues, Table.contains]
    cases hs : scope.find? x with
    | some w =>
      rw [hs] at hx
      cases hx
      have hmem := mem_slotsIn (Table.mem_of_find? hs) hv
      rw [Option.isSome_some, if_pos rfl, insert_read hscope hs hv, map_read_store]
      exact fun hm => hdisjoint n hmem n hm rfl
    | none =>
      rw [hs, Option.none_or] at hx
      obtain ⟨inner, hi, hb⟩ := List.mem_flatten.1 (Table.mem_flatten_of_findIn? hx)
      have hmem : n ∈ scopes.flatMap slotsIn := List.mem_flatMap.2 ⟨inner, hi, mem_slotsIn hb hv⟩
      have hne : n ∉ slotsIn scope := fun hm => hdisjoint n hm n hmem rfl
      rw [Option.isSome_none, if_neg Bool.false_ne_true, ih hscopes hx, mapValues_read_store hne]
      rfl

/-- A state between two statements that shows the scene, in a frame that has come from `f` to
offset `stop`. -/
def Rests (K : Layout) (f : Frame) (slots : List Nat) (heap : List (List Reference))
    (callers : List Frame) (stop : Nat) (τ : Scene) (t : State) : Prop :=
  ∃ g s, t = State.resume s (g.before stop []) callers ∧ f.Keeps slots g ∧ Shows K g heap τ s

theorem Shows.assign_steps (h : Shows L f heap σ s) (hp : L.Placed) (ha : L.Apart slots)
    {x : String} {v : Variable} {b c : Binding} (hv : L.find x = .ok v) (hb : σ.find? x = some b)
    (hτ : σ.assign? x c = some τ) (hc : f.code[n]? = some v.store) :
    ∃ t, Steps code (s.resume (f.before n [c.held]) callers) t ∧
      Rests L f slots heap callers (n + 1) τ t := by
  unfold Variable.store at hc
  unfold Scene.assign? at hτ
  have hsome := Table.isSome_assignIn? x c σ.locals
  rcases h.found hp hv hb with ⟨m, hm, -, hi, hl⟩ | ⟨hg, hl, hfind⟩
  · rw [hl] at hsome
    obtain ⟨locals, hlocals⟩ := Option.isSome_iff_exists.1 hsome
    rw [hlocals] at hτ
    cases hτ
    rw [hm] at hc
    refine ⟨_, .exec hc rfl, f.store m c.held, s, rfl, ?_, ⟨h.globals, h.output, h.heap⟩, ?_⟩
    · exact .store (fun hmem => (ha m hmem).2 (mem_slots_of_find hv hm)) f c.held
    · have hd := hp.distinct
      rw [Layout.slots, ← List.dropLast_concat_getLast hp.ne_nil, List.flatMap_append,
        List.nodup_append] at hd
      have hassign := Table.assignIn?_mapValues Binding.held x c σ.locals
      rw [← h.locals, hlocals, assignIn?_read hd.1 hi hm] at hassign
      exact Option.some.inj hassign
  · rw [hl] at hsome
    have hnone := Option.not_isSome_iff_eq_none.1 (Bool.eq_false_iff.1 hsome)
    have hin : σ.globals.contains x = true := by rw [Table.contains, hfind]; rfl
    simp only [hnone, hin, if_true, Option.some.injEq] at hτ
    subst hτ
    rw [hg] at hc
    refine ⟨_, .exec hc rfl, f, { s with globals := s.globals.insert x c.held }, rfl,
      .refl slots f, ⟨?_, h.output, h.heap⟩, h.locals⟩
    rw [Table.mapValues_insert, ← h.globals]

/-- The next slot of a layout is the slot of no variable. -/
theorem nextSlot_fresh (hp : L.Placed) : L.nextSlot ∉ L.scopes.dropLast.flatMap slotsIn := by
  intro hm
  obtain ⟨scope, hs, hm⟩ := List.mem_flatMap.1 hm
  have hlt := hp.bound _ (List.mem_flatMap.2 ⟨scope, (List.dropLast_sublist _).mem hs, hm⟩)
  omega

theorem Shows.declare_steps (h : Shows L f heap σ s) (hp : L.Placed) (ha : L.Apart slots)
    {x : String} {b : Binding} (hc : f.code[n]? = some (L.declare x b.ty).1.store) :
    ∃ t, Steps code (s.resume (f.before n [b.held]) callers) t ∧
      Rests (L.declare x b.ty).2 f slots heap callers (n + 1) (σ.define x b) t := by
  have hl := h.locals
  obtain ⟨scope, scopes, hs⟩ := List.exists_cons_of_ne_nil hp.ne_nil
  unfold Scene.define
  by_cases hn : scopes = []
  · subst hn
    rw [Layout.declare_global hs hp] at hc ⊢
    rw [hs, List.dropLast_singleton, List.map_nil] at hl
    have hlocals := List.map_eq_nil_iff.1 hl.symm
    rw [hlocals]
    refine ⟨_, .exec hc rfl, f, { s with globals := s.globals.insert x b.held }, rfl,
      .refl slots f, ⟨?_, h.output, h.heap⟩, ?_⟩
    · rw [Table.mapValues_insert, ← h.globals]
    · rw [List.dropLast_singleton]
      rfl
  · rw [Layout.declare_slot hs hn] at hc ⊢
    rw [hs, List.dropLast_cons_of_ne_nil hn, List.map_cons] at hl
    obtain ⟨inner, locals, hlocals, hinner, hrest⟩ := List.map_eq_cons_iff.1 hl.symm
    rw [hlocals]
    have hfresh := nextSlot_fresh hp
    rw [hs, List.dropLast_cons_of_ne_nil hn, List.flatMap_cons, List.mem_append, not_or] at hfresh
    refine ⟨_, .exec hc rfl, f.store L.nextSlot b.held, s, rfl, ?_,
      ⟨h.globals, h.output, h.heap⟩, ?_⟩
    · exact .store (fun hm => Nat.lt_irrefl _ (ha _ hm).1) f b.held
    · rw [List.dropLast_cons_of_ne_nil hn, List.map_cons, List.map_cons, Table.mapValues_insert,
        Table.mapValues_insert, map_read_store hfresh.2, mapValues_read_store hfresh.1, hinner,
        hrest, read_store_self rfl]

/-! ## Expressions -/

/-- A state of the frame at offset `stop` that shows the scene, with what has been evaluated on
the stack. -/
def Leaves {α : Type} (L : Layout) (f : Frame) (heap : List (List Reference)) (callers : List Frame)
    (stop : Nat) (stack : α → List Slot) (a : α) (τ : Scene) (t : State) : Prop :=
  ∃ s, t = State.resume s (f.before stop (stack a)) callers ∧ Shows L f heap τ s

/-- What a call leaves for its caller: a value, unless the function has no result. -/
def returned (t : Ty) (v : Value) : Option Slot := if t = .void then none else some (v.held t)

/-- The machine matches calls by running the method under the symbol of the function. -/
def CallsMatched (code : Code) (R : Rules) (functions : Table Function)
    (invoke : Watched.Invoke) : Prop :=
  ∀ (symbol : String) (f : Function) (params : Table Binding) (σ : Scene) (S : Scopes)
    (heap : List (List Reference)) (s : State) (callers : List Frame),
    functions.find? symbol = some f → f.Typed R → params.mapValues Binding.ty = f.header.scope →
    (∀ b ∈ params, b.2.value.Inhabits b.2.ty) → σ.Conforms R S → Agrees heap σ s →
    ∃ m, code.methods.find? symbol = some m ∧
      (invoke f params σ).Matched code R
        (s.resume (.ofCall m (params.map fun b => b.2.held)) callers) fun v τ t =>
          ∃ s', t = State.leave s' (returned f.header.resultTy v) callers ∧ Agrees heap τ s' ∧
            τ.locals = σ.locals

theorem references_refs (vs : List Value) :
    references (vs.map fun v => .reference v.ref) = .ok (Value.refs vs) := by
  induction vs with
  | nil => rfl
  | cons v vs ih =>
    rw [List.map_cons, references, ih]
    rfl

theorem popMany_reverse (f : Frame) (n : Nat) (xs st : List Slot) :
    (f.before n (xs.reverse ++ st)).popMany xs.length = .ok (xs, f.before n st) := by
  unfold Frame.popMany
  have hl : xs.reverse.length = xs.length := List.length_reverse
  rw [if_neg (by simp only [Frame.before, List.length_append]; omega)]
  simp only [Frame.before, ← hl, List.take_left, List.drop_left, List.reverse_reverse]

theorem exec_makeList (vs : List Value) :
    exec code s (f.before n ((vs.map fun v => Slot.reference v.ref).reverse ++ st)) callers
        (.makeList vs.length) =
      .ok (s.resume (f.before n (.reference (Value.list vs).ref :: st)) callers) := by
  have hpop := popMany_reverse f n (vs.map fun v => Slot.reference v.ref) st
  rw [List.length_map] at hpop
  simp only [exec, hpop, bind_eq_ok]
  exact ⟨_, rfl, _, references_refs vs, rfl⟩

theorem exec_invoke {name : String} {m : Method} (hm : code.methods.find? name = some m)
    (args : List Slot) :
    exec code s (f.before n (args.reverse ++ st)) callers (.invoke name args.length) =
      .ok (s.resume (.ofCall m args) (f.before n st :: callers)) := by
  simp only [exec, hm, popMany_reverse]
  rfl

/-- Behind a call its value is on the stack, null if the function has no result. -/
theorem returned_steps {t : Ty} {v : Value} (hv : v.Inhabits t)
    (hc : Includes f.code n (if t = .void then [.pushNull] else [])) :
    Steps code (s.leave (returned t v) (f.before n st :: callers))
      (s.resume (f.before (n + (if t = .void then [Instruction.pushNull] else []).length)
        (v.held t :: st)) callers) := by
  unfold returned
  by_cases ht : t = .void
  · subst ht
    rw [show v = .null from hv]
    exact .exec (includes_cons.1 hc).1 rfl
  · rw [if_neg ht, if_neg ht]
    exact .refl _

theorem Value.InhabitAll.length {vs : List Value} {ts : List Ty} (h : Value.InhabitAll vs ts) :
    vs.length = ts.length := by
  induction vs generalizing ts with
  | nil =>
    cases ts with
    | nil => rfl
    | cons t ts => exact h.elim
  | cons v vs ih =>
    cases ts with
    | nil => exact h.elim
    | cons t ts => rw [List.length_cons, List.length_cons, ih h.2]

namespace Expr

section

variable {functions : Table Function} {invoke : Watched.Invoke}

mutual

/-- The code of an expression leaves its value on the stack. -/
theorem lower_matched (hk : Knows R functions) (hi : CallsSafe R invoke)
    (hm : CallsMatched code R functions invoke) (hL : L.Sees R result S) (hp : L.Placed) :
    (e : Expr) → ∀ {n : Nat} {part : List Instruction} {σ : Scene} {heap : List (List Reference)}
      {f : Frame} {s : State} {st : List Slot} {callers : List Frame}, e.Typed R S →
    e.lower L n = .ok part → σ.Conforms R S → Shows L f heap σ s → Includes f.code n part →
    (e.watch functions invoke σ).Matched code R (s.resume (f.before n st) callers)
      (Leaves L f heap callers (n + part.length) fun v => v.held e.ty :: st)
  | int m v, n, part, σ, heap, f, s, st, callers, ht, h, hσ, hs, hc => by
    cases h
    rw [show (int m v).ty = .int from ty_of_note ht]
    exact .steps (.exec (includes_cons.1 hc).1 rfl) (.value ⟨s, rfl, hs⟩)
  | str m v, n, part, σ, heap, f, s, st, callers, ht, h, hσ, hs, hc => by
    cases h
    rw [show (str m v).ty = .string from ty_of_note ht]
    exact .steps (.exec (includes_cons.1 hc).1 rfl) (.value ⟨s, rfl, hs⟩)
  | bool m v, n, part, σ, heap, f, s, st, callers, ht, h, hσ, hs, hc => by
    cases h
    rw [show (bool m v).ty = .bool from ty_of_note ht]
    exact .steps (.exec (includes_cons.1 hc).1 rfl) (.value ⟨s, rfl, hs⟩)
  | null m, n, part, σ, heap, f, s, st, callers, ht, h, hσ, hs, hc => by
    cases h
    rw [show (null m).ty = .object from ty_of_note ht]
    exact .steps (.exec (includes_cons.1 hc).1 rfl) (.value ⟨s, rfl, hs⟩)
  | var m x, n, part, σ, heap, f, s, st, callers, ht, h, hσ, hs, hc => by
    obtain ⟨t, hn, hx⟩ := ht
    simp only [lower, bind_eq_ok] at h
    obtain ⟨v, hv, h⟩ := h
    cases h
    simp only [watch]
    have hload := (includes_cons.1 hc).1
    refine .bind (.lookUp fun hb _ => ⟨_, .refl _, hs.load_misses hp hv hb hload⟩) fun b τ t' h => ?_
    obtain ⟨rfl, rfl, hb⟩ := h
    rw [show (var m x).ty = t from ty_of_note hn, ← (hσ.find? hx hb).1]
    exact .steps (hs.load_steps hp hv hb hload) (.value ⟨s, rfl, hs⟩)
  | unary m op e, n, part, σ, heap, f, s, st, callers, ht, h, hσ, hs, hc => by
    obtain ⟨hn, hty, he⟩ := ht
    simp only [lower, bind_eq_ok] at h
    obtain ⟨operand, ho, h⟩ := h
    have hpart : part = operand ++ unaryFinish op (n + operand.length) := by
      cases op <;> cases h <;> rfl
    subst hpart
    obtain ⟨hc₁, hc₂⟩ := includes_append.1 hc
    simp only [watch]
    refine .bind ((lower_matched hk hi hm hL hp e he ho hσ hs hc₁).safe
      (watch_safe hk hi e he σ hσ)) fun v τ t h => ?_
    obtain ⟨⟨hv, hτ⟩, s₁, rfl, hs₁⟩ := h
    rw [hty] at hv ⊢
    refine .bind (.answer (unaryFinish_answers hv hc₂)) fun u υ t h => ?_
    obtain ⟨rfl, rfl⟩ := h
    rw [show (unary m op e).ty = op.ty from ty_of_note hn, List.length_append, ← Nat.add_assoc]
    exact .value ⟨s₁, rfl, hs₁⟩
  | binary m op l r, n, part, σ, heap, f, s, st, callers, ht, h, hσ, hs, hc => by
    obtain ⟨⟨t, hn, hop⟩, hl, hr⟩ := ht
    simp only [lower, bind_eq_ok, hn, Option.getD_some] at h
    obtain ⟨left, hleft, right, hright, h⟩ := h
    cases h
    have hsuits := scheme_suits hop
    obtain ⟨hc, hfinish⟩ := includes_append.1 hc
    obtain ⟨hc, hboxr⟩ := includes_append.1 hc
    obtain ⟨hc, hcr⟩ := includes_append.1 hc
    obtain ⟨hcl, hboxl⟩ := includes_append.1 hc
    simp only [watch]
    refine .bind ((lower_matched hk hi hm hL hp l hl hleft hσ hs hcl).safe
      (watch_safe hk hi l hl σ hσ)) fun v τ t' h => ?_
    obtain ⟨⟨hv, hτ⟩, s₁, rfl, hs₁⟩ := h
    refine .steps (Scheme.boxing_steps (fun hk => (hsuits.native hk).1) hv hboxl) ?_
    refine .bind (.ofExcept (BinaryOp.leftOperand_ok hop hv)
      (P := fun _ υ t => τ = υ ∧ t = _) ⟨rfl, rfl⟩) fun _ υ t' h => ?_
    obtain ⟨rfl, rfl⟩ := h
    rw [Nat.add_assoc, ← List.length_append]
    refine .bind ((lower_matched hk hi hm hL hp r hr hright hτ hs₁ hcr).safe
      (watch_safe hk hi r hr τ hτ)) fun w υ t' h => ?_
    obtain ⟨⟨hw, hυ⟩, s₂, rfl, hs₂⟩ := h
    rw [Nat.add_assoc, ← List.length_append]
    refine .steps (Scheme.boxing_steps (fun hk => (hsuits.native hk).2) hw hboxr) ?_
    rw [Nat.add_assoc, ← List.length_append]
    refine .bind (.answer (scheme_answers hop hv hw hfinish)) fun u κ t' h => ?_
    obtain ⟨rfl, rfl⟩ := h
    rw [show (binary m op l r).ty = t from ty_of_note hn, Nat.add_assoc, ← List.length_append]
    exact .value ⟨s₂, rfl, hs₂⟩
  | paren m e, n, part, σ, heap, f, s, st, callers, ht, h, hσ, hs, hc => by
    simp only [watch]
    refine .bind (lower_matched hk hi hm hL hp e ht.2 h hσ hs hc) fun v τ t h => ?_
    rw [show (paren m e).ty = e.ty from ty_of_note ht.1]
    exact .value h
  | list m es, n, part, σ, heap, f, s, st, callers, ht, h, hσ, hs, hc => by
    simp only [lower, bind_eq_ok] at h
    obtain ⟨items, hitems, h⟩ := h
    cases h
    obtain ⟨hc, hmake⟩ := includes_append.1 hc
    simp only [watch]
    refine .bind ((lowerItems_matched hk hi hm hL hp es ht.2 hitems hσ hs hc).safe
      (watchAll_safe hk hi es ht.2 σ hσ)) fun vs τ t h => ?_
    obtain ⟨⟨hvs, -⟩, s₁, rfl, hs₁⟩ := h
    rw [show (list m es).ty = .list (.join (es.map ty)) from ty_of_note ht.1, List.length_append,
      ← Nat.add_assoc]
    refine .steps (.exec (includes_cons.1 hmake).1 ?_) (.value ⟨s₁, rfl, hs₁⟩)
    rw [show es.length = vs.length by rw [hvs.length, List.length_map]]
    exact exec_makeList vs
  | call m g es symbol, n, part, σ, heap, f, s, st, callers, ht, h, hσ, hs, hc => by
    obtain ⟨sig, rfl, hsig, hn, ha⟩ := ht
    obtain ⟨h', hg, rfl, hgt⟩ := hk _ _ hsig
    simp only [lower, bind_eq_ok, Option.getD_some] at h
    obtain ⟨sig, hfind, args, hargs, h⟩ := h
    rw [Layout.findFunction_eq_ok, hL.functions, hsig] at hfind
    cases hfind
    cases h
    obtain ⟨hc, hrest⟩ := includes_append.1 hc
    obtain ⟨hinvoke, hnull⟩ := includes_cons.1 hrest
    simp only [watch, Option.getD_some, Watched.lookUpFunction, hg]
    refine .bind (.pure (P := fun a υ t => h' = a ∧ σ = υ ∧ t = _) ⟨rfl, rfl, rfl⟩) ?_
    rintro _ _ _ ⟨rfl, rfl, rfl⟩
    refine .bind ((lowerArgs_matched hk hi hm hL hp h'.header.params es ha hargs hσ hs hc).safe
      (watchArgs_safe hk hi h'.header.params es ha σ hσ)) fun params τ t h => ?_
    obtain ⟨⟨hty, hin, hτ⟩, s₁, rfl, hs₁⟩ := h
    have hkeys : (params.map (·.1)).Nodup := by
      have := congrArg (List.map Prod.fst) hty
      rw [List.map_map, List.map_map] at this
      exact this ▸ hgt.params
    have hscope : Table.mapValues Binding.ty params = h'.header.scope := by
      rw [← Table.ofList_of_nodup hkeys, Table.mapValues_ofList, hty]
      rfl
    have hlen : es.length = (params.map fun b => b.2.held).length := by
      have := congrArg List.length hty
      rw [List.length_map] at this ⊢
      exact (length_of_typedArgs ha).symm.trans this.symm
    rw [Table.ofList_of_nodup hkeys]
    obtain ⟨method, hmethod, hcall⟩ := hm _ h' params τ S heap s₁
      (f.before (n + args.length + 1) st :: callers) hg hgt hscope hin hτ hs₁.toAgrees
    refine .steps (.exec hinvoke (hlen ▸ exec_invoke hmethod _)) ?_
    refine .bind (hcall.safe (hi h' params τ S hgt hscope hin hτ)) fun v υ t h => ?_
    obtain ⟨⟨hv, -⟩, s₂, rfl, hag, hloc⟩ := h
    refine .steps (returned_steps hv hnull) (.value ⟨s₂, ?_, hag, hloc ▸ hs₁.locals⟩)
    rw [show (call m g es (some h'.header.signature.symbol)).ty = h'.header.resultTy from
      ty_of_note hn, List.length_append, List.length_cons, Nat.add_assoc (n + args.length),
      Nat.add_comm 1, ← Nat.add_assoc n]
    rfl

/-- The code of the items of a list leaves references to their values, the last one on top. -/
theorem lowerItems_matched (hk : Knows R functions) (hi : CallsSafe R invoke)
    (hm : CallsMatched code R functions invoke) (hL : L.Sees R result S) (hp : L.Placed) :
    (es : List Expr) → ∀ {n : Nat} {part : List Instruction} {σ : Scene}
      {heap : List (List Reference)} {f : Frame} {s : State} {st : List Slot}
      {callers : List Frame},
    TypedAll R S es → lowerItems L n es = .ok part → σ.Conforms R S → Shows L f heap σ s →
    Includes f.code n part →
    (watchAll functions invoke es σ).Matched code R (s.resume (f.before n st) callers)
      (Leaves L f heap callers (n + part.length) fun vs =>
        (vs.map fun v => Slot.reference v.ref).reverse ++ st)
  | [], n, part, σ, heap, f, s, st, callers, _, h, hσ, hs, hc => by
    cases h
    exact .pure ⟨s, rfl, hs⟩
  | e :: es, n, part, σ, heap, f, s, st, callers, ht, h, hσ, hs, hc => by
    simp only [lowerItems, bind_eq_ok] at h
    obtain ⟨first, hfirst, more, hmore, h⟩ := h
    cases h
    obtain ⟨hc, hcm⟩ := includes_append.1 hc
    obtain ⟨hcf, hbox⟩ := includes_append.1 hc
    simp only [watchAll]
    refine .bind ((lower_matched hk hi hm hL hp e ht.1 hfirst hσ hs hcf).safe
      (watch_safe hk hi e ht.1 σ hσ)) fun v τ t h => ?_
    obtain ⟨⟨hv, hτ⟩, s₁, rfl, hs₁⟩ := h
    refine .steps (boxing_steps hv hbox) ?_
    rw [Nat.add_assoc, ← List.length_append]
    refine .bind (lowerItems_matched hk hi hm hL hp es ht.2 hmore hτ hs₁ hcm) fun vs υ t h => ?_
    obtain ⟨s₂, rfl, hs₂⟩ := h
    refine .pure ⟨s₂, ?_, hs₂⟩
    simp only [List.map_cons, List.reverse_cons, List.append_assoc, List.singleton_append,
      List.length_append, Nat.add_assoc]

/-- The code of the arguments of a call leaves the parameters, the last one on top. -/
theorem lowerArgs_matched (hk : Knows R functions) (hi : CallsSafe R invoke)
    (hm : CallsMatched code R functions invoke) (hL : L.Sees R result S) (hp : L.Placed) :
    (ps : List Param) → (es : List Expr) → ∀ {n : Nat} {part : List Instruction} {σ : Scene}
      {heap : List (List Reference)} {f : Frame} {s : State} {st : List Slot}
      {callers : List Frame},
    TypedArgs R S (ps.map fun p => (p.name, p.ty)) es →
    lowerArgs L n (ps.map fun p => (p.name, p.ty)) es = .ok part → σ.Conforms R S →
    Shows L f heap σ s → Includes f.code n part →
    (watchArgs functions invoke ps es σ).Matched code R (s.resume (f.before n st) callers)
      (Leaves L f heap callers (n + part.length) fun params =>
        (params.map fun b => b.2.held).reverse ++ st)
  | [], [], n, part, σ, heap, f, s, st, callers, _, h, hσ, hs, hc => by
    cases h
    exact .pure ⟨s, rfl, hs⟩
  | p :: ps, e :: es, n, part, σ, heap, f, s, st, callers, ht, h, hσ, hs, hc => by
    simp only [List.map_cons, lowerArgs, bind_eq_ok] at h
    obtain ⟨first, hfirst, more, hmore, h⟩ := h
    cases h
    obtain ⟨hc, hcm⟩ := includes_append.1 hc
    obtain ⟨hcf, hcoerce⟩ := includes_append.1 hc
    simp only [watchArgs]
    refine .bind ((lower_matched hk hi hm hL hp e ht.1 hfirst hσ hs hcf).safe
      (watch_safe hk hi e ht.1 σ hσ)) fun v τ t h => ?_
    obtain ⟨⟨hv, hτ⟩, s₁, rfl, hs₁⟩ := h
    refine .bind (.passed ht.2.1 hv) fun _ υ t h => ?_
    obtain ⟨rfl, rfl, hv'⟩ := h
    refine .steps (coercion_steps hv hv' hcoerce) ?_
    rw [Nat.add_assoc, ← List.length_append]
    refine .bind (lowerArgs_matched hk hi hm hL hp ps es ht.2.2 hmore hτ hs₁ hcm) fun vs υ t h => ?_
    obtain ⟨s₂, rfl, hs₂⟩ := h
    refine .pure ⟨s₂, ?_, hs₂⟩
    simp only [List.map_cons, List.reverse_cons, List.append_assoc, List.singleton_append,
      List.length_append, Nat.add_assoc, Binding.held]
  | [], _ :: _, _, _, _, _, _, _, _, _, ht, _, _, _, _
  | _ :: _, [], _, _, _, _, _, _, _, _, ht, _, _, _, _ => ht.elim

end

/-- The value of an expression is on the stack, and is a value of its type. -/
theorem value_matched (hk : Knows R functions) (hi : CallsSafe R invoke)
    (hm : CallsMatched code R functions invoke) (hL : L.Sees R result S) (hp : L.Placed) {e : Expr}
    {part : List Instruction} (ht : e.Typed R S) (h : e.lower L n = .ok part)
    (hσ : σ.Conforms R S) (hs : Shows L f heap σ s) (hc : Includes f.code n part) :
    (e.watch functions invoke σ).Matched code R (s.resume (f.before n st) callers)
      fun v τ t => (v.Inhabits e.ty ∧ τ.Conforms R S) ∧
        Leaves L f heap callers (n + part.length) (fun v => v.held e.ty :: st) v τ t :=
  (lower_matched hk hi hm hL hp e ht h hσ hs hc).safe (watch_safe hk hi e ht σ hσ)

end

end Expr

end CatScript
