import BlendPlot.Table
import Mathlib.Data.List.Sort

namespace BlendPlot

def utf8Bytes (text : String) : List UInt8 :=
  text.toUTF8.data.toList

theorem utf8Bytes_eq_flatMap (text : String) :
    utf8Bytes text = text.toList.flatMap String.utf8EncodeChar := by
  have h := String.toByteArray_ofList (l := text.toList)
  rw [String.ofList_toList] at h
  rw [utf8Bytes, String.toUTF8_eq_toByteArray, h, List.utf8Encode, List.toList_data_toByteArray]

/-- The first bytes that differ are in the order of the characters. -/
theorem utf8EncodeChar_lt {c d : Char} (h : c < d) (rest more : List UInt8) :
    String.utf8EncodeChar c ++ rest < String.utf8EncodeChar d ++ more := by
  have hlt : c.val.toNat < d.val.toNat := h
  have hd : d.val.toNat < 0x110000 := by
    have hvalid := d.valid
    simp only [UInt32.isValidChar, Nat.isValidChar] at hvalid
    omega
  -- digits to the base 64, each the last one of what the next leaves
  have hdiv (n : Nat) : n / 4096 = n / 64 / 64 ∧ n / 262144 = n / 64 / 64 / 64 := by omega
  rw [String.utf8EncodeChar, String.utf8EncodeChar]
  repeat' split
  all_goals
    simp only [List.cons_append, List.nil_append, List.cons_lt_cons_iff, UInt8.lt_iff_toNat_lt,
      ← UInt8.toNat_inj, UInt8.toNat_ofNat', hdiv]
    omega

theorem flatMap_utf8EncodeChar_lt {cs ds : List Char} (h : cs < ds) :
    cs.flatMap String.utf8EncodeChar < ds.flatMap String.utf8EncodeChar := by
  induction cs generalizing ds with
  | nil =>
    cases ds with
    | nil => exact absurd h (List.lt_irrefl _)
    | cons d ds =>
      obtain ⟨b, bs, hb⟩ := List.exists_cons_of_ne_nil (String.utf8EncodeChar_ne_nil (c := d))
      rw [List.flatMap_nil, List.flatMap_cons, hb]
      exact List.nil_lt_cons _ _
  | cons c cs ih =>
    cases ds with
    | nil => exact absurd h (List.not_lt_nil _)
    | cons d ds =>
      rw [List.flatMap_cons, List.flatMap_cons]
      rcases List.cons_lt_cons_iff.mp h with hlt | ⟨rfl, hlt⟩
      · exact utf8EncodeChar_lt hlt _ _
      · exact List.append_left_lt (ih hlt)

/-- The order of texts is the order of their bytes. -/
theorem utf8Bytes_lt_iff {a b : String} : utf8Bytes a < utf8Bytes b ↔ a < b := by
  have lt_of_lt {s t : String} (h : s < t) : utf8Bytes s < utf8Bytes t := by
    rw [utf8Bytes_eq_flatMap, utf8Bytes_eq_flatMap]
    exact flatMap_utf8EncodeChar_lt (String.lt_iff.mp h)
  refine ⟨fun h => ?_, lt_of_lt⟩
  by_cases hgt : b < a
  · exact absurd (List.lt_trans h (lt_of_lt hgt)) (List.lt_irrefl _)
  · by_cases hlt : a < b
    · exact hlt
    · rw [String.le_antisymm (String.not_lt.mp hgt) (String.not_lt.mp hlt)] at h
      exact absurd h (List.lt_irrefl _)

end BlendPlot

namespace BlendPlot.Table

variable {α β : Type}

instance : Std.Irrefl (@EntryBefore α) where
  irrefl e := String.lt_irrefl e.1

instance : Std.Antisymm (@EntryBefore α) where
  antisymm _ _ h h' := absurd (String.lt_trans h h') (String.lt_irrefl _)

theorem lookup_eq_none {name : String} {es : List (String × α)} (h : ∀ e ∈ es, name < e.1) :
    es.lookup name = none := by
  rw [List.lookup_eq_none_iff]
  intro e he
  have hne : name ≠ e.1 := fun heq => String.lt_irrefl _ (heq ▸ h e he)
  simpa using hne

theorem lookup_of_mem {es : List (String × α)} (ho : es.Pairwise EntryBefore) {e : String × α}
    (h : e ∈ es) : es.lookup e.1 = some e.2 := by
  induction es with
  | nil => cases h
  | cons d ds ih =>
    obtain ⟨hd, hds⟩ := List.pairwise_cons.mp ho
    rw [lookup_cons_entry]
    rcases List.mem_cons.mp h with rfl | h
    · rw [if_pos rfl]
    · have hlt : d.1 < e.1 := hd e h
      have hne : e.1 ≠ d.1 := fun heq => String.lt_irrefl _ (heq ▸ hlt)
      rw [if_neg hne, ih hds h]

theorem mem_of_lookup {es : List (String × α)} {name : String} {value : α}
    (h : es.lookup name = some value) : (name, value) ∈ es := by
  induction es with
  | nil => cases h
  | cons d ds ih =>
    rw [lookup_cons_entry] at h
    split at h
    next heq =>
      obtain rfl := Option.some.inj h
      rw [heq]
      exact List.mem_cons_self
    next => exact List.mem_cons_of_mem d (ih h)

theorem find?_eq_some_iff {t : Table α} {name : String} {value : α} :
    t.find? name = some value ↔ (name, value) ∈ t.entries :=
  ⟨mem_of_lookup, lookup_of_mem t.ordered⟩

theorem ext_find? {t u : Table α} (h : ∀ name, t.find? name = u.find? name) : t = u := by
  refine Table.ext (t.ordered.eq_of_mem_iff u.ordered ?_)
  rintro ⟨name, value⟩
  rw [← find?_eq_some_iff, ← find?_eq_some_iff, h]

theorem ofList_concat (es : List (String × α)) (e : String × α) :
    ofList (es ++ [e]) = (ofList es).insert e.1 e.2 := by
  rw [ofList, List.foldl_append]
  rfl

/-- Of several entries with the same name the last one counts. -/
theorem find?_ofList (es : List (String × α)) (name : String) :
    (ofList es).find? name = es.reverse.lookup name := by
  induction hr : es.reverse generalizing es with
  | nil =>
    rw [List.reverse_eq_nil_iff.mp hr]
    rfl
  | cons d ds ih =>
    have hes : es = ds.reverse ++ [d] := by rw [← List.reverse_reverse es, hr, List.reverse_cons]
    rw [hes, ofList_concat, find?_insert, lookup_cons_entry,
      ih ds.reverse (List.reverse_reverse ds)]

theorem lookup_reverse {es : List (String × α)} (h : es.Pairwise EntryBefore) (name : String) :
    es.reverse.lookup name = es.lookup name := by
  induction es with
  | nil => rfl
  | cons e es ih =>
    obtain ⟨he, hes⟩ := List.pairwise_cons.mp h
    have hlast : [e].lookup name = if name = e.1 then some e.2 else none :=
      lookup_cons_entry name e []
    rw [List.reverse_cons, List.lookup_append, ih hes, hlast, lookup_cons_entry name e es]
    by_cases hn : name = e.1
    · rw [if_pos hn, if_pos hn, lookup_eq_none (hn ▸ he)]
      rfl
    · rw [if_neg hn, if_neg hn, Option.or_none]

theorem mem_of_mem_ofList {es : List (String × α)} {e : String × α}
    (h : e ∈ (ofList es).entries) : e ∈ es := by
  have hfind := lookup_of_mem (ofList es).ordered h
  rw [← find?, find?_ofList] at hfind
  exact List.mem_reverse.mp (mem_of_lookup hfind)

theorem isSome_lookup_iff {es : List (String × α)} {name : String} :
    (es.lookup name).isSome ↔ name ∈ es.map Prod.fst := by
  rw [List.lookup_isSome_iff, List.mem_map]
  exact exists_congr fun e => and_congr_right fun _ => by rw [beq_iff_eq, eq_comm]

theorem mem_names_ofList {es : List (String × α)} {name : String} :
    name ∈ (ofList es).names ↔ name ∈ es.map Prod.fst := by
  rw [names, ← isSome_lookup_iff, ← find?, find?_ofList, isSome_lookup_iff, List.map_reverse,
    List.mem_reverse]

theorem entries_ofList {es : List (String × α)} (h : es.Pairwise EntryBefore) :
    (ofList es).entries = es := by
  have htable : ofList es = ⟨es, h⟩ := by
    refine ext_find? fun name => ?_
    rw [find?_ofList, lookup_reverse h]
    rfl
  rw [htable]

theorem find?_filter (p : String × α → Bool) (t : Table α) (name : String) :
    (t.filter p).find? name = (t.find? name).filter fun value => p (name, value) := by
  refine Option.ext fun value => ?_
  rw [find?_eq_some_iff, Option.filter_eq_some_iff, find?_eq_some_iff]
  exact List.mem_filter

theorem lookup_map {key : String → String} (hkey : ∀ a b, key a = key b → a = b) (f : α → β)
    (es : List (String × α)) (name : String) :
    (es.map fun e => (key e.1, f e.2)).lookup (key name) = (es.lookup name).map f := by
  induction es with
  | nil => rfl
  | cons e es ih =>
    have hiff : key name = key e.1 ↔ name = e.1 := ⟨hkey _ _, congrArg key⟩
    rw [List.map_cons, lookup_cons_entry, lookup_cons_entry, ih]
    simp only [hiff]
    split <;> rfl

theorem lookup_filter_of_key {p : String → Bool} {name : String} (hp : p name)
    (es : List (String × α)) : (es.filter fun e => p e.1).lookup name = es.lookup name := by
  induction es with
  | nil => rfl
  | cons e es ih =>
    rw [lookup_cons_entry]
    by_cases he : p e.1
    · rw [List.filter_cons_of_pos (by simpa using he), lookup_cons_entry, ih]
    · have hne : name ≠ e.1 := by
        rintro rfl
        exact he hp
      rw [List.filter_cons_of_neg (by simpa using he), if_neg hne, ih]

end BlendPlot.Table
