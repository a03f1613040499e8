import BlendPlot.Proofs.JsonText
import BlendPlot.Proofs.Tables
import BlendPlot.State.Json

namespace BlendPlot

theorem parameterOfKey?_eq_some {key name : String} (h : parameterOfKey? key = some name) :
    key = parameterKey name := by
  unfold parameterOfKey? at h
  split at h
  next cs hcs =>
    obtain rfl := Option.some.inj h
    rw [← String.toList_inj, hcs]
    simp [parameterKey]
  next => cases h

theorem parameterKey_inj (a b : String) (h : parameterKey a = parameterKey b) : a = b := by
  have hname := parameterOfKey?_parameterKey a
  rw [h, parameterOfKey?_parameterKey] at hname
  exact (Option.some.inj hname).symm

theorem parameterOfKey?_slot (slot : Slot) : parameterOfKey? slot.key = none := by
  cases slot <;> decide +kernel

theorem slotKey_ne_parameterKey (slot : Slot) (name : String) : slot.key ≠ parameterKey name := by
  intro h
  have hnone := parameterOfKey?_slot slot
  rw [h, parameterOfKey?_parameterKey] at hnone
  cases hnone

theorem Sources.ext_get {s t : Sources} (h : ∀ slot, s.get slot = t.get slot) : s = t := by
  obtain ⟨first, second, blend⟩ := s
  obtain ⟨first', second', blend'⟩ := t
  obtain rfl : first = first' := h .first
  obtain rfl : second = second' := h .second
  obtain rfl : blend = blend' := h .blend
  rfl

namespace State

theorem ext_get_find? {s t : State} (hsources : ∀ slot, s.sources.get slot = t.sources.get slot)
    (henv : ∀ name, s.env.find? name = t.env.find? name) : s = t := by
  obtain ⟨sources, env⟩ := s
  obtain ⟨sources', env'⟩ := t
  obtain rfl : sources = sources' := Sources.ext_get hsources
  obtain rfl : env = env' := Table.ext_find? henv
  rfl

theorem find?_members_slot (s : State) (slot : Slot) :
    s.members.find? slot.key = some (.string (s.sources.get slot)) := by
  have hvalues : (s.env.entries.map fun e => (parameterKey e.1, Json.real e.2)).reverse.lookup
      slot.key = none := by
    rw [List.lookup_eq_none_iff]
    intro e he
    obtain ⟨d, -, rfl⟩ := List.mem_map.mp (List.mem_reverse.mp he)
    simpa using slotKey_ne_parameterKey slot d.1
  rw [members, Table.find?_ofList, List.reverse_append, List.lookup_append, hvalues, Option.none_or]
  cases slot <;> rfl

theorem find?_members_parameter (s : State) (name : String) :
    s.members.find? (parameterKey name) = (s.env.find? name).map .real := by
  have htexts :
      (Slot.all.map fun slot => (slot.key, Json.string (s.sources.get slot))).reverse.lookup
        (parameterKey name) = none := by
    rw [List.lookup_eq_none_iff]
    intro e he
    obtain ⟨slot, -, rfl⟩ := List.mem_map.mp (List.mem_reverse.mp he)
    simpa using (slotKey_ne_parameterKey slot name).symm
  rw [members, Table.find?_ofList, List.reverse_append, List.lookup_append, htexts, Option.or_none,
    ← List.map_reverse, Table.lookup_map parameterKey_inj, Table.lookup_reverse s.env.ordered]
  rfl

theorem isScalar_members (s : State) : ∀ m ∈ s.members.entries, m.2.IsScalar := by
  intro m hm
  rcases List.mem_append.mp (Table.mem_of_mem_ofList hm) with h | h
  · obtain ⟨slot, -, rfl⟩ := List.mem_map.mp h
    trivial
  · obtain ⟨e, -, rfl⟩ := List.mem_map.mp h
    trivial

def withMember (env : Environment) (m : String × Json) : Environment :=
  match parameterOfKey? m.1, m.2.toFloat? with
  | some name, some value => env.insert name value
  | _, _ => env

theorem readValue_readBack (env : Environment) (key : String) {v : Json} (hv : v.IsScalar)
    (hkey : ∀ text, v = .string text → parameterOfKey? key = none) :
    readValue env (key, v.readBack) = .ok (withMember env (key, v.readBack)) := by
  cases v with
  | string text =>
    have hnone := hkey text rfl
    simp [readValue, withMember, hnone]
  | real value =>
    rw [Json.readBack]
    split <;> cases hkey : parameterOfKey? key <;> simp [readValue, withMember, Json.toFloat?, hkey]
  | null | bool | integer | array | object => exact absurd hv id

theorem find?_withMember (env : Environment) (m : String × Json) (name : String) :
    (withMember env m).find? name =
      if m.1 = parameterKey name then m.2.toFloat?.or (env.find? name) else env.find? name := by
  unfold withMember
  split
  next other value hkey hvalue =>
    have hm := parameterOfKey?_eq_some hkey
    rw [Table.find?_insert, hm, hvalue]
    by_cases h : name = other
    · subst h
      simp
    · have hne : parameterKey other ≠ parameterKey name := fun heq =>
        h (parameterKey_inj _ _ heq).symm
      rw [if_neg h, if_neg hne]
  next hno =>
    split
    next heq =>
      cases hvalue : m.2.toFloat? with
      | none => rfl
      | some value => exact absurd hvalue (hno name value (by rw [heq]; simp))
    next => rfl

/-- The entries of the stored form, as they are read back. -/
def storedMembers (s : State) : Table Json :=
  ⟨s.members.entries.map fun m => (m.1, m.2.readBack), List.pairwise_map.mpr s.members.ordered⟩

theorem find?_storedMembers (s : State) (key : String) :
    s.storedMembers.find? key = (s.members.find? key).map Json.readBack :=
  Table.lookup_map (fun _ _ h => h) Json.readBack s.members.entries key

theorem readText_storedMembers (s : State) (sources : Sources) (slot : Slot) :
    readText s.storedMembers sources slot = .ok (sources.set slot (s.sources.get slot)) := by
  rw [readText, find?_storedMembers, find?_members_slot]
  rfl

theorem readTexts_storedMembers (s : State) (sources : Sources) :
    Slot.all.foldlM (readText s.storedMembers) sources = .ok s.sources := by
  simp only [Slot.all, List.foldlM_cons, List.foldlM_nil, readText_storedMembers]
  rfl

theorem readValues_eq (env : Environment) {ms : List (String × Json)}
    (h : ∀ m ∈ ms, ∀ env, readValue env m = .ok (withMember env m)) :
    ms.foldlM readValue env = .ok (ms.foldl withMember env) := by
  induction ms generalizing env with
  | nil => rfl
  | cons m ms ih =>
    rw [List.foldlM_cons, h m List.mem_cons_self, List.foldl_cons]
    exact ih _ fun d hd => h d (List.mem_cons_of_mem m hd)

/-- After reading, a parameter has the value of the member with its key. -/
theorem find?_foldl_withMember {ms : List (String × Json)} (ho : ms.Pairwise EntryBefore)
    (env : Environment) (name : String) :
    (ms.foldl withMember env).find? name =
      ((ms.lookup (parameterKey name)).bind Json.toFloat?).or (env.find? name) := by
  induction ms generalizing env with
  | nil => rfl
  | cons m ms ih =>
    obtain ⟨hm, hms⟩ := List.pairwise_cons.mp ho
    rw [List.foldl_cons, ih hms, find?_withMember, Table.lookup_cons_entry]
    by_cases heq : m.1 = parameterKey name
    · have hnone : ms.lookup (parameterKey name) = none := Table.lookup_eq_none (heq ▸ hm)
      rw [hnone, if_pos heq, if_pos heq.symm]
      rfl
    · rw [if_neg heq, if_neg (Ne.symm heq)]

theorem readValue_storedMembers (s : State) :
    ∀ m ∈ s.storedMembers.entries, ∀ env, readValue env m = .ok (withMember env m) := by
  intro m hm env
  obtain ⟨⟨key, v⟩, hmem, rfl⟩ := List.mem_map.mp hm
  refine readValue_readBack env key (s.isScalar_members _ hmem) fun text hv => ?_
  cases hkey : parameterOfKey? key with
  | none => rfl
  | some name =>
    have hfind := Table.find?_eq_some_iff.mpr hmem
    change v = .string text at hv
    rw [parameterOfKey?_eq_some hkey, find?_members_parameter, hv] at hfind
    obtain ⟨value, -, hreal⟩ := Option.map_eq_some_iff.mp hfind
    cases hreal

theorem readValues_storedMembers (s : State) :
    s.storedMembers.entries.foldl withMember Table.empty = s.env.filter fun e => e.2.isFinite := by
  refine Table.ext_find? fun name => ?_
  rw [find?_foldl_withMember s.storedMembers.ordered, ← Table.find?, find?_storedMembers,
    find?_members_parameter, Table.find?_filter]
  cases s.env.find? name with
  | none => rfl
  | some value =>
    by_cases hf : value.isFinite <;> simp [Json.readBack, Json.toFloat?, Option.filter, hf]

theorem document_toJson (s : State) :
    Json.document (Json.value maxNesting) s.toJson.write = some (.object s.storedMembers.entries) :=
  Json.document_write 126 s.isScalar_members

theorem ofMembers_storedMembers (s : State) :
    ofMembers (Table.ofList s.storedMembers.entries) =
      .ok ⟨s.sources, s.env.filter fun e => e.2.isFinite⟩ := by
  have htable : Table.ofList s.storedMembers.entries = s.storedMembers :=
    Table.ext (Table.entries_ofList s.storedMembers.ordered)
  have hvalues := readValues_eq Table.empty s.readValue_storedMembers
  rw [readValues_storedMembers] at hvalues
  rw [htable, ofMembers, readTexts_storedMembers]
  change (s.storedMembers.entries.foldlM readValue Table.empty >>= _) = _
  rw [hvalues]
  rfl

/-- A stored state is read back with the same texts and all finite values, bit for bit. -/
theorem ofJson_write_toJson (s : State) :
    ofJson s.toJson.write = .ok ⟨s.sources, s.env.filter fun e => e.2.isFinite⟩ := by
  rw [ofJson, document_toJson]
  exact s.ofMembers_storedMembers

end State

end BlendPlot
