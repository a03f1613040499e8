namespace BlendPlot

def EntryBefore {α : Type} (a b : String × α) : Prop := a.1 < b.1

/-- A finite map from names to values. -/
@[ext]
structure Table (α : Type) where
  entries : List (String × α) := []
  ordered : entries.Pairwise EntryBefore := by exact List.Pairwise.nil
  deriving DecidableEq

namespace Table

variable {α : Type}

/-- Puts an entry at its place among ordered entries, in the place of one of the same name. -/
def insertEntry (name : String) (value : α) : List (String × α) → List (String × α)
  | [] => [(name, value)]
  | e :: es =>
    if name < e.1 then (name, value) :: e :: es
    else if e.1 < name then e :: insertEntry name value es
    else (name, value) :: es

theorem mem_insertEntry {name : String} {value : α} {es : List (String × α)} {e : String × α}
    (h : e ∈ insertEntry name value es) : e = (name, value) ∨ e ∈ es := by
  induction es with
  | nil => exact Or.inl (by simpa [insertEntry] using h)
  | cons d ds ih =>
    simp only [insertEntry] at h
    split at h
    · simpa using h
    · split at h
      · rcases List.mem_cons.mp h with rfl | h
        · simp
        · exact (ih h).imp_right (List.mem_cons_of_mem d)
      · exact (List.mem_cons.mp h).imp_right (List.mem_cons_of_mem d)

theorem ordered_insertEntry {name : String} {value : α} {es : List (String × α)}
    (h : es.Pairwise EntryBefore) : (insertEntry name value es).Pairwise EntryBefore := by
  induction es with
  | nil => simp [insertEntry]
  | cons d ds ih =>
    have hd := List.pairwise_cons.mp h
    simp only [insertEntry]
    split
    next hlt =>
      refine List.pairwise_cons.mpr ⟨fun e he => ?_, h⟩
      rcases List.mem_cons.mp he with rfl | he
      · exact hlt
      · exact String.lt_trans hlt (hd.1 e he)
    next hge =>
      split
      next hgt =>
        refine List.pairwise_cons.mpr ⟨fun e he => ?_, ih hd.2⟩
        rcases mem_insertEntry he with rfl | he
        · exact hgt
        · exact hd.1 e he
      next hle =>
        have heq : name = d.1 := String.le_antisymm (String.not_lt.mp hle) (String.not_lt.mp hge)
        exact List.pairwise_cons.mpr ⟨fun e he => heq ▸ hd.1 e he, hd.2⟩

def empty : Table α := {}

instance : Inhabited (Table α) := ⟨empty⟩

def insert (t : Table α) (name : String) (value : α) : Table α :=
  ⟨insertEntry name value t.entries, ordered_insertEntry t.ordered⟩

def erase (t : Table α) (name : String) : Table α :=
  ⟨t.entries.filter fun e => e.1 != name, t.ordered.filter _⟩

def find? (t : Table α) (name : String) : Option α :=
  t.entries.lookup name

def contains (t : Table α) (name : String) : Bool :=
  (t.find? name).isSome

def size (t : Table α) : Nat :=
  t.entries.length

def names (t : Table α) : List String :=
  t.entries.map Prod.fst

/-- The table that binds each name to its last value in the list. -/
def ofList (es : List (String × α)) : Table α :=
  es.foldl (fun t e => t.insert e.1 e.2) empty

def filter (p : String × α → Bool) (t : Table α) : Table α :=
  ⟨t.entries.filter p, t.ordered.filter p⟩

@[simp] theorem find?_empty (name : String) : (empty : Table α).find? name = none := rfl

theorem lookup_cons_entry (name : String) (e : String × α) (es : List (String × α)) :
    (e :: es).lookup name = if name = e.1 then some e.2 else es.lookup name := by
  rw [List.lookup_cons]
  by_cases h : name = e.1
  · simp [h]
  · simp [h, show (name == e.1) = false by simpa using h]

theorem lookup_insertEntry (name other : String) (value : α) (es : List (String × α)) :
    (insertEntry name value es).lookup other =
      if other = name then some value else es.lookup other := by
  induction es with
  | nil => exact lookup_cons_entry other (name, value) []
  | cons d ds ih =>
    simp only [insertEntry]
    split
    · exact lookup_cons_entry other (name, value) (d :: ds)
    · next hge =>
      split
      next hgt =>
        have hne : d.1 ≠ name := fun h => String.lt_irrefl _ (h ▸ hgt)
        by_cases ho : other = d.1
        · simp [lookup_cons_entry, ho, hne]
        · simp [lookup_cons_entry, ho, ih]
      next hle =>
        have heq : name = d.1 := String.le_antisymm (String.not_lt.mp hle) (String.not_lt.mp hge)
        subst heq
        by_cases h : other = d.1 <;> simp [lookup_cons_entry, h]

@[simp] theorem find?_insert (t : Table α) (name other : String) (value : α) :
    (t.insert name value).find? other = if other = name then some value else t.find? other :=
  lookup_insertEntry name other value t.entries

theorem lookup_filter_ne (name other : String) (es : List (String × α)) :
    (es.filter fun e => e.1 != name).lookup other =
      if other = name then none else es.lookup other := by
  induction es with
  | nil => simp
  | cons e es ih =>
    by_cases he : e.1 = name
    · rw [List.filter_cons_of_neg (by simpa using he), ih, lookup_cons_entry]
      by_cases h : other = name <;> simp [h, he]
    · rw [List.filter_cons_of_pos (by simpa using he), lookup_cons_entry, lookup_cons_entry, ih]
      by_cases h : other = e.1
      · simp [h, he]
      · simp [h]

@[simp] theorem find?_erase (t : Table α) (name other : String) :
    (t.erase name).find? other = if other = name then none else t.find? other :=
  lookup_filter_ne name other t.entries

theorem names_increasing (t : Table α) : t.names.Pairwise (· < ·) :=
  List.pairwise_map.mpr t.ordered

end Table

end BlendPlot
