/-!
# Tables

A table binds names to values. A name bound again keeps its place and loses its old value,
so each name has one binding and names stand in the order of their first binding.

Nested scopes are a list of tables, innermost first. A name means its innermost binding.
-/
namespace CatScript

abbrev Table (α : Type) := List (String × α)

namespace Table

variable {α : Type}

def find? : Table α → String → Option α
  | [], _ => none
  | (k, v) :: t, name => if k = name then some v else find? t name

def contains (t : Table α) (name : String) : Bool := (t.find? name).isSome

/-- Binds a name: in its place if it is bound already, behind the others if not. -/
def insert : Table α → String → α → Table α
  | [], name, a => [(name, a)]
  | (k, v) :: t, name, a => if k = name then (name, a) :: t else (k, v) :: insert t name a

/-- The table of a list of bindings, of which a later one wins. -/
def ofList (bindings : List (String × α)) : Table α :=
  bindings.foldl (fun t b => t.insert b.1 b.2) []

/-- The innermost binding of a name in a list of scopes. -/
def findIn? (name : String) : List (Table α) → Option α
  | [] => none
  | scope :: scopes => (scope.find? name).or (findIn? name scopes)

/-- Overwrites the innermost binding of a name in a list of scopes. -/
def assignIn? (name : String) (a : α) : List (Table α) → Option (List (Table α))
  | [] => none
  | scope :: scopes =>
    if scope.contains name then some (scope.insert name a :: scopes)
    else (assignIn? name a scopes).map (scope :: ·)

@[simp] theorem find?_nil (name : String) : find? ([] : Table α) name = none := rfl

@[simp] theorem find?_insert_self (t : Table α) (name : String) (a : α) :
    (t.insert name a).find? name = some a := by
  induction t with
  | nil => simp [insert, find?]
  | cons b t ih =>
    obtain ⟨k, v⟩ := b
    by_cases h : k = name <;> simp [insert, find?, h, ih]

theorem find?_insert_of_ne (t : Table α) {name other : String} (h : other ≠ name) (a : α) :
    (t.insert name a).find? other = t.find? other := by
  induction t with
  | nil => simp [insert, find?, h.symm]
  | cons b t ih =>
    obtain ⟨k, v⟩ := b
    by_cases hk : k = name
    · subst hk; simp [insert, find?, h.symm]
    · by_cases ho : k = other <;> simp_all [insert, find?]

theorem find?_insert (t : Table α) (name other : String) (a : α) :
    (t.insert name a).find? other = if other = name then some a else t.find? other := by
  by_cases h : other = name
  · simp [h]
  · simp [find?_insert_of_ne t h, h]

theorem insert_of_find?_none {t : Table α} {name : String} (h : t.find? name = none) (a : α) :
    t.insert name a = t ++ [(name, a)] := by
  induction t with
  | nil => rfl
  | cons b t ih =>
    obtain ⟨k, v⟩ := b
    by_cases hk : k = name
    · simp [find?, hk] at h
    · simp only [find?, hk, if_false] at h
      simp [insert, hk, ih h]

theorem insert_find? {t : Table α} {name : String} {a : α} (h : t.find? name = some a) :
    t.insert name a = t := by
  induction t with
  | nil => cases h
  | cons b t ih =>
    obtain ⟨k, v⟩ := b
    by_cases hk : k = name
    · subst hk
      simp only [find?, if_true, Option.some.injEq] at h
      simp [insert, h]
    · simp only [find?, hk, if_false] at h
      simp [insert, hk, ih h]

theorem contains_eq_false {t : Table α} {name : String} :
    t.contains name = false ↔ t.find? name = none := by
  simp [contains]

theorem mem_of_find? {t : Table α} {name : String} {a : α} (h : t.find? name = some a) :
    (name, a) ∈ t := by
  induction t with
  | nil => cases h
  | cons b t ih =>
    obtain ⟨k, v⟩ := b
    by_cases hk : k = name
    · simp_all [find?]
    · simp only [find?, hk, if_false] at h
      exact List.mem_cons_of_mem _ (ih h)

/-! ## Tables of bindings -/

theorem find?_foldl_insert (bindings : List (String × α)) (t : Table α) {name : String}
    (h : name ∉ bindings.map (·.1)) :
    (bindings.foldl (fun t b => t.insert b.1 b.2) t).find? name = t.find? name := by
  induction bindings generalizing t with
  | nil => rfl
  | cons b bindings ih =>
    simp only [List.map_cons, List.mem_cons, not_or] at h
    rw [List.foldl_cons, ih _ h.2, find?_insert_of_ne t h.1]

theorem find?_foldl_insert_of_mem {bindings : List (String × α)} (t : Table α)
    (hn : (bindings.map (·.1)).Nodup) {b : String × α} (hb : b ∈ bindings) :
    (bindings.foldl (fun t b => t.insert b.1 b.2) t).find? b.1 = some b.2 := by
  induction bindings generalizing t with
  | nil => cases hb
  | cons c bindings ih =>
    simp only [List.map_cons, List.nodup_cons] at hn
    rcases List.mem_cons.1 hb with rfl | hb
    · rw [List.foldl_cons, find?_foldl_insert _ _ hn.1, find?_insert_self]
    · exact ih _ hn.2 hb

/-- Where no name is bound twice, the table finds every binding. -/
theorem find?_ofList {bindings : List (String × α)} (hn : (bindings.map (·.1)).Nodup)
    {b : String × α} (hb : b ∈ bindings) : (ofList bindings).find? b.1 = some b.2 :=
  find?_foldl_insert_of_mem [] hn hb

theorem foldl_insert_of_nodup {bindings : List (String × α)} (t : Table α)
    (hn : (bindings.map (·.1)).Nodup) (ht : ∀ b ∈ bindings, t.find? b.1 = none) :
    bindings.foldl (fun t b => t.insert b.1 b.2) t = t ++ bindings := by
  induction bindings generalizing t with
  | nil => simp
  | cons b bindings ih =>
    simp only [List.map_cons, List.nodup_cons, List.mem_map, not_exists, not_and] at hn
    simp only [List.mem_cons, forall_eq_or_imp] at ht
    rw [List.foldl_cons, ih _ hn.2, insert_of_find?_none ht.1, List.append_assoc,
      List.singleton_append]
    intro c hc
    rw [find?_insert_of_ne _ (hn.1 c hc), ht.2 c hc]

/-- Where no name is bound twice, the bindings are the table. -/
theorem ofList_of_nodup {bindings : List (String × α)} (hn : (bindings.map (·.1)).Nodup) :
    ofList bindings = bindings :=
  foldl_insert_of_nodup [] hn (by simp)

theorem find?_of_mem {t : Table α} (hn : (t.map (·.1)).Nodup) {b : String × α} (hb : b ∈ t) :
    t.find? b.1 = some b.2 := by
  have h := find?_ofList hn hb
  rwa [ofList_of_nodup hn] at h

theorem mem_of_mem_insert {t : Table α} {name : String} {a : α} {b : String × α}
    (h : b ∈ t.insert name a) : b = (name, a) ∨ b ∈ t := by
  induction t with
  | nil => simpa [insert] using h
  | cons c t ih =>
    obtain ⟨k, v⟩ := c
    by_cases hk : k = name
    · simp only [insert, hk, if_true, List.mem_cons] at h
      exact h.imp id (List.mem_cons_of_mem _)
    · simp only [insert, hk, if_false, List.mem_cons] at h
      rcases h with rfl | h
      · exact .inr (List.mem_cons_self ..)
      · exact (ih h).imp id (List.mem_cons_of_mem _)

theorem mem_of_mem_foldl_insert {bindings : List (String × α)} {t : Table α} {b : String × α}
    (h : b ∈ bindings.foldl (fun t b => t.insert b.1 b.2) t) : b ∈ bindings ∨ b ∈ t := by
  induction bindings generalizing t with
  | nil => exact .inr h
  | cons c bindings ih =>
    rcases ih h with h | h
    · exact .inl (List.mem_cons_of_mem _ h)
    · rcases mem_of_mem_insert h with rfl | h
      · exact .inl (List.mem_cons_self ..)
      · exact .inr h

theorem mem_of_find?_ofList {bindings : List (String × α)} {name : String} {a : α}
    (h : (ofList bindings).find? name = some a) : (name, a) ∈ bindings := by
  rcases mem_of_mem_foldl_insert (mem_of_find? h) with h | h
  · exact h
  · cases h

/-! ## Changing the values -/

variable {β : Type}

def mapValues (f : α → β) (t : Table α) : Table β := t.map fun b => (b.1, f b.2)

@[simp] theorem mapValues_nil (f : α → β) : mapValues f [] = [] := rfl

@[simp] theorem find?_mapValues (f : α → β) (t : Table α) (name : String) :
    (t.mapValues f).find? name = (t.find? name).map f := by
  induction t with
  | nil => rfl
  | cons b t ih =>
    obtain ⟨k, v⟩ := b
    by_cases hk : k = name
    · simp [mapValues, find?, hk]
    · simpa [mapValues, find?, hk] using ih

@[simp] theorem contains_mapValues (f : α → β) (t : Table α) (name : String) :
    (t.mapValues f).contains name = t.contains name := by
  simp [contains]

@[simp] theorem mapValues_insert (f : α → β) (t : Table α) (name : String) (a : α) :
    (t.insert name a).mapValues f = (t.mapValues f).insert name (f a) := by
  induction t with
  | nil => rfl
  | cons b t ih =>
    obtain ⟨k, v⟩ := b
    by_cases hk : k = name
    · simp [mapValues, insert, hk]
    · simpa [mapValues, insert, hk] using ih

theorem mapValues_foldl_insert (f : α → β) (bindings : List (String × α)) (t : Table α) :
    (bindings.foldl (fun t b => t.insert b.1 b.2) t).mapValues f =
      (bindings.map fun b => (b.1, f b.2)).foldl (fun t b => t.insert b.1 b.2) (t.mapValues f) := by
  induction bindings generalizing t with
  | nil => rfl
  | cons b bindings ih => simp [ih]

theorem mapValues_ofList (f : α → β) (bindings : List (String × α)) :
    (ofList bindings).mapValues f = ofList (bindings.map fun b => (b.1, f b.2)) :=
  mapValues_foldl_insert f bindings []

/-! ## Nested scopes -/

@[simp] theorem findIn?_nil (name : String) : findIn? name ([] : List (Table α)) = none := rfl

@[simp] theorem findIn?_cons (name : String) (scope : Table α) (scopes : List (Table α)) :
    findIn? name (scope :: scopes) = (scope.find? name).or (findIn? name scopes) := rfl

theorem findIn?_append (name : String) (inner outer : List (Table α)) :
    findIn? name (inner ++ outer) = (findIn? name inner).or (findIn? name outer) := by
  induction inner with
  | nil => simp
  | cons scope inner ih => simp [ih, Option.or_assoc]

theorem mem_flatten_of_findIn? {name : String} {a : α} {scopes : List (Table α)}
    (h : findIn? name scopes = some a) : (name, a) ∈ scopes.flatten := by
  induction scopes with
  | nil => cases h
  | cons scope scopes ih =>
    rw [findIn?_cons] at h
    rw [List.flatten_cons, List.mem_append]
    cases hf : scope.find? name with
    | none => rw [hf, Option.none_or] at h; exact .inr (ih h)
    | some b => rw [hf] at h; cases h; exact .inl (mem_of_find? hf)

theorem findIn?_mapValues (f : α → β) (name : String) (scopes : List (Table α)) :
    findIn? name (scopes.map (mapValues f)) = (findIn? name scopes).map f := by
  induction scopes with
  | nil => rfl
  | cons scope scopes ih => cases h : scope.find? name <;> simp [ih, h]

theorem isSome_assignIn? (name : String) (a : α) (scopes : List (Table α)) :
    (assignIn? name a scopes).isSome = (findIn? name scopes).isSome := by
  induction scopes with
  | nil => rfl
  | cons scope scopes ih =>
    cases h : scope.find? name <;> simp [assignIn?, contains, h, ih]

theorem length_assignIn? {name : String} {a : α} {scopes scopes' : List (Table α)}
    (h : assignIn? name a scopes = some scopes') : scopes'.length = scopes.length := by
  induction scopes generalizing scopes' with
  | nil => cases h
  | cons scope scopes ih =>
    simp only [assignIn?] at h
    split at h
    · cases h; rfl
    · obtain ⟨rest, hr, rfl⟩ := Option.map_eq_some_iff.1 h
      simp [ih hr]

/-- Overwriting a binding with what it is already leaves the scopes as they are. -/
theorem assignIn?_findIn? {name : String} {a : α} {scopes : List (Table α)}
    (h : findIn? name scopes = some a) : assignIn? name a scopes = some scopes := by
  induction scopes with
  | nil => cases h
  | cons scope scopes ih =>
    simp only [findIn?_cons] at h
    cases hf : scope.find? name with
    | none =>
      rw [hf, Option.none_or] at h
      simp [assignIn?, contains, hf, ih h]
    | some b =>
      rw [hf, Option.some_or, Option.some.injEq] at h
      subst h
      simp [assignIn?, contains, hf, insert_find? hf]

theorem mem_of_mem_assignIn? {name : String} {a : α} {scopes scopes' : List (Table α)}
    (h : assignIn? name a scopes = some scopes') {b : String × α} (hb : b ∈ scopes'.flatten) :
    b = (name, a) ∨ b ∈ scopes.flatten := by
  induction scopes generalizing scopes' with
  | nil => cases h
  | cons scope scopes ih =>
    simp only [assignIn?] at h
    split at h
    · cases h
      simp only [List.flatten_cons, List.mem_append] at hb ⊢
      rcases hb with hb | hb
      · exact (mem_of_mem_insert hb).imp id .inl
      · exact .inr (.inr hb)
    · obtain ⟨rest, hr, rfl⟩ := Option.map_eq_some_iff.1 h
      simp only [List.flatten_cons, List.mem_append] at hb ⊢
      rcases hb with hb | hb
      · exact .inr (.inl hb)
      · exact (ih hr hb).imp id .inr

theorem assignIn?_mapValues (f : α → β) (name : String) (a : α) (scopes : List (Table α)) :
    assignIn? name (f a) (scopes.map (mapValues f)) =
      (assignIn? name a scopes).map (·.map (mapValues f)) := by
  induction scopes with
  | nil => rfl
  | cons scope scopes ih =>
    simp only [List.map_cons, assignIn?, contains_mapValues]
    split
    · simp
    · rw [ih]
      cases assignIn? name a scopes <;> rfl

theorem assignIn?_append (name : String) (a : α) (inner outer : List (Table α)) :
    assignIn? name a (inner ++ outer) =
      ((assignIn? name a inner).map (· ++ outer)).or
        ((assignIn? name a outer).map (inner ++ ·)) := by
  induction inner with
  | nil => cases h : assignIn? name a outer <;> simp [assignIn?, h]
  | cons scope inner ih =>
    simp only [List.cons_append, assignIn?]
    split
    · simp
    · rw [ih]
      cases assignIn? name a inner <;> cases assignIn? name a outer <;> simp

end Table

end CatScript
