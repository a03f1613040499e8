import BlendPlot.Proofs.StateText
import BlendPlot.Proofs.StoredNumbers

namespace BlendPlot

namespace State

/-- The value that counts for a key: of members with the same key the last. -/
def lastValue? (members : List (String × Json)) (key : String) : Option Json :=
  members.reverse.lookup key

/-- The text of a slot has to be a text, the value of a parameter a number or `null`. -/
inductive Violates (value? : String → Option Json) (key : String) : Prop where
  | text {slot : Slot} {v : Json} (hkey : key = slot.key) (h : value? key = some v)
      (hv : ∀ text, v ≠ .string text)
  | value {name : String} {v : Json} (hkey : key = parameterKey name) (h : value? key = some v)
      (hnull : v ≠ .null) (hv : v.toFloat? = none)

/-- The slots come first, as they are listed, then the parameters by their bytes. -/
inductive TriedBefore (a b : String) : Prop where
  | texts {s t : Slot} (ha : a = s.key) (hb : b = t.key) (h : List.Sublist [s, t] Slot.all)
  | textValue {slot : Slot} {name : String} (ha : a = slot.key) (hb : b = parameterKey name)
  | values {m n : String} (ha : a = parameterKey m) (hb : b = parameterKey n)
      (h : utf8Bytes a < utf8Bytes b)

/-- The key violates, and no violating key is tried before it. -/
structure FirstViolation (value? : String → Option Json) (key : String) : Prop where
  violates : Violates value? key
  first : ∀ other, Violates value? other → other = key ∨ TriedBefore key other

/-- The state has the texts and numbers that are there, and the defaults of the other texts. -/
structure Gives (value? : String → Option Json) (state : State) : Prop where
  texts : ∀ slot, value? slot.key = some (.string (state.sources.get slot)) ∨
    value? slot.key = none ∧ state.sources.get slot = ({} : State).sources.get slot
  values : ∀ name, state.env.find? name = (value? (parameterKey name)).bind Json.toFloat?

def isStateKey (key : String) : Bool :=
  (Slot.all.map Slot.key).contains key || (parameterOfKey? key).isSome

theorem slotKey_inj {s t : Slot} (h : s.key = t.key) : s = t := by
  revert h
  cases s <;> cases t <;> decide

theorem TriedBefore.asymm {a b : String} (h : TriedBefore a b) : ¬TriedBefore b a := by
  have hslots (s t : Slot) (h : List.Sublist [s, t] Slot.all) : ¬List.Sublist [t, s] Slot.all := by
    revert h
    cases s <;> cases t <;> decide
  cases h with
  | texts ha hb h =>
    rintro (⟨hb', ha', h'⟩ | ⟨hb', ha'⟩ | ⟨hb', ha', h'⟩)
    · obtain rfl := slotKey_inj (ha.symm.trans ha')
      obtain rfl := slotKey_inj (hb.symm.trans hb')
      exact hslots _ _ h h'
    · exact slotKey_ne_parameterKey _ _ (ha.symm.trans ha')
    · exact slotKey_ne_parameterKey _ _ (ha.symm.trans ha')
  | textValue ha hb =>
    rintro (⟨hb', ha', h'⟩ | ⟨hb', ha'⟩ | ⟨hb', ha', h'⟩)
    · exact slotKey_ne_parameterKey _ _ (hb'.symm.trans hb)
    · exact slotKey_ne_parameterKey _ _ (hb'.symm.trans hb)
    · exact slotKey_ne_parameterKey _ _ (ha.symm.trans ha')
  | values ha hb h =>
    rintro (⟨hb', ha', h'⟩ | ⟨hb', ha'⟩ | ⟨hb', ha', h'⟩)
    · exact slotKey_ne_parameterKey _ _ (hb'.symm.trans hb)
    · exact slotKey_ne_parameterKey _ _ (hb'.symm.trans hb)
    · exact List.lt_irrefl _ (List.lt_trans h h')

theorem FirstViolation.unique {value? : String → Option Json} {a b : String}
    (ha : FirstViolation value? a) (hb : FirstViolation value? b) : a = b := by
  rcases ha.first b hb.violates with rfl | hab
  · rfl
  · rcases hb.first a ha.violates with rfl | hba
    · rfl
    · exact absurd hba hab.asymm

theorem Gives.unique {value? : String → Option Json} {s t : State} (hs : Gives value? s)
    (ht : Gives value? t) : s = t := by
  refine ext_get_find? (fun slot => ?_) fun name => (hs.values name).trans (ht.values name).symm
  rcases hs.texts slot with hsome | ⟨hnone, hdefault⟩
  · rcases ht.texts slot with hsome' | ⟨hnone', -⟩
    · exact Json.string.inj (Option.some.inj (hsome.symm.trans hsome'))
    · rw [hnone'] at hsome
      cases hsome
  · rcases ht.texts slot with hsome' | ⟨-, hdefault'⟩
    · rw [hnone] at hsome'
      cases hsome'
    · exact hdefault.trans hdefault'.symm

def text? (t : Table Json) (slot : Slot) : Option String :=
  match t.find? slot.key with
  | some (.string text) => some text
  | _ => none

def withText (t : Table Json) (sources : Sources) (slot : Slot) : Sources :=
  match text? t slot with
  | some text => sources.set slot text
  | none => sources

theorem get_withText (t : Table Json) (sources : Sources) (slot other : Slot) :
    (withText t sources slot).get other =
      if other = slot then (text? t slot).getD (sources.get other) else sources.get other := by
  unfold withText
  cases text? t slot with
  | none => simp
  | some text => exact Sources.get_set sources slot other text

theorem get_foldl_withText (t : Table Json) (sources : Sources) (slot : Slot) :
    (Slot.all.foldl (withText t) sources).get slot = (text? t slot).getD (sources.get slot) := by
  cases slot <;> simp [Slot.all, get_withText]

theorem violates_slot_iff {value? : String → Option Json} {slot : Slot} :
    Violates value? slot.key ↔ ∃ v, value? slot.key = some v ∧ ∀ text, v ≠ .string text := by
  refine ⟨?_, fun ⟨v, h, hv⟩ => .text rfl h hv⟩
  rintro (⟨-, h, hv⟩ | ⟨hkey, -, -, -⟩)
  · exact ⟨_, h, hv⟩
  · exact absurd hkey (slotKey_ne_parameterKey slot _)

theorem violates_parameter_iff {value? : String → Option Json} {name : String} :
    Violates value? (parameterKey name) ↔
      ∃ v, value? (parameterKey name) = some v ∧ v ≠ .null ∧ v.toFloat? = none := by
  refine ⟨?_, fun ⟨v, h, hnull, hv⟩ => .value rfl h hnull hv⟩
  rintro (⟨hkey, -, -⟩ | ⟨-, h, hnull, hv⟩)
  · exact absurd hkey.symm (slotKey_ne_parameterKey _ name)
  · exact ⟨_, h, hnull, hv⟩

theorem text?_of_not_violates {t : Table Json} {slot : Slot} (h : ¬Violates t.find? slot.key) :
    t.find? slot.key = (text? t slot).map .string := by
  rw [violates_slot_iff] at h
  unfold text?
  split
  next text hsome => exact hsome
  next hno =>
    cases hfind : t.find? slot.key with
    | none => rfl
    | some v => exact absurd ⟨v, hfind, fun text hv => hno text (hv ▸ hfind)⟩ h

theorem readText_cases (t : Table Json) (slot : Slot) (sources : Sources) :
    Violates t.find? slot.key ∧ readText t sources slot = .error (.invalidValue slot.key) ∨
      ¬Violates t.find? slot.key ∧ readText t sources slot = .ok (withText t sources slot) := by
  rw [violates_slot_iff, readText, withText, text?]
  split
  next hnone => simp [hnone]
  next text hsome => simp [hsome]
  next v hno hsome =>
    refine Or.inl ⟨⟨v, hsome, ?_⟩, rfl⟩
    rintro text rfl
    exact hno text rfl

def NoValue (m : String × Json) : Prop :=
  (∃ name, m.1 = parameterKey name) ∧ m.2 ≠ .null ∧ m.2.toFloat? = none

theorem readValue_cases (m : String × Json) (env : Environment) :
    NoValue m ∧ readValue env m = .error (.invalidValue m.1) ∨
      ¬NoValue m ∧ readValue env m = .ok (withMember env m) := by
  obtain ⟨key, v⟩ := m
  unfold readValue withMember
  cases hkey : parameterOfKey? key with
  | none =>
    have hno (name : String) : key ≠ parameterKey name := by
      rintro rfl
      rw [parameterOfKey?_parameterKey] at hkey
      cases hkey
    exact Or.inr ⟨fun ⟨⟨name, h⟩, _⟩ => hno name h, rfl⟩
  | some name =>
    have hname : ∃ name, key = parameterKey name := ⟨name, parameterOfKey?_eq_some hkey⟩
    cases v with
    | null | integer | real => exact Or.inr ⟨by simp [NoValue, Json.toFloat?], rfl⟩
    | bool | string | array | object => exact Or.inl ⟨⟨hname, by simp, rfl⟩, rfl⟩

theorem violates_of_noValue {t : Table Json} {m : String × Json} (hm : m ∈ t.entries)
    (h : NoValue m) : Violates t.find? m.1 := by
  obtain ⟨⟨name, hkey⟩, hnull, hv⟩ := h
  exact .value hkey (Table.find?_eq_some_iff.mpr hm) hnull hv

theorem noValue_of_violates {t : Table Json} {name : String}
    (h : Violates t.find? (parameterKey name)) :
    ∃ v, (parameterKey name, v) ∈ t.entries ∧ NoValue (parameterKey name, v) := by
  obtain ⟨v, hfind, hnull, hv⟩ := violates_parameter_iff.mp h
  exact ⟨v, Table.find?_eq_some_iff.mp hfind, ⟨name, rfl⟩, hnull, hv⟩

theorem firstViolation_slot {t : Table Json} {before after : List Slot} {slot : Slot}
    (hall : Slot.all = before ++ slot :: after)
    (hbefore : ∀ s ∈ before, ¬Violates t.find? s.key) (h : Violates t.find? slot.key) :
    FirstViolation t.find? slot.key := by
  refine ⟨h, fun other hother => ?_⟩
  cases hother with
  | @text s v hkey hfind hv =>
    have hs : s ∈ before ++ slot :: after := hall ▸ (by cases s <;> decide : s ∈ Slot.all)
    rcases List.mem_append.mp hs with hs | hs
    · exact absurd (hkey ▸ .text hkey hfind hv) (hbefore s hs)
    · rcases List.mem_cons.mp hs with rfl | hs
      · exact Or.inl hkey
      · have hafter : List.Sublist [slot, s] (slot :: after) :=
          (List.singleton_sublist.mpr hs).cons_cons slot
        exact Or.inr (.texts rfl hkey (hall ▸ hafter.trans (List.sublist_append_right _ _)))
  | value hkey => exact Or.inr (.textValue rfl hkey)

theorem firstViolation_member {t : Table Json} {before after : List (String × Json)}
    {m : String × Json} (hslots : ∀ slot : Slot, ¬Violates t.find? slot.key)
    (hentries : t.entries = before ++ m :: after) (hbefore : ∀ d ∈ before, ¬NoValue d)
    (h : NoValue m) : FirstViolation t.find? m.1 := by
  have hm : m ∈ t.entries := by
    rw [hentries]
    exact List.mem_append_right before List.mem_cons_self
  refine ⟨violates_of_noValue hm h, fun other hother => ?_⟩
  cases hother with
  | @text slot v hkey hfind hv =>
    subst hkey
    exact absurd (.text rfl hfind hv) (hslots slot)
  | @value name v hkey hfind hnull hv =>
    subst hkey
    obtain ⟨w, hmem, hno⟩ := noValue_of_violates (.value rfl hfind hnull hv)
    rw [hentries] at hmem
    rcases List.mem_append.mp hmem with hmem | hmem
    · exact absurd hno (hbefore _ hmem)
    · rcases List.mem_cons.mp hmem with hm | hmem
      · exact Or.inl (congrArg Prod.fst hm)
      · obtain ⟨⟨own, hown⟩, -⟩ := h
        have hordered := t.ordered
        rw [hentries] at hordered
        obtain ⟨-, hafter, -⟩ := List.pairwise_append.mp hordered
        have hlt : EntryBefore m (parameterKey name, w) := (List.pairwise_cons.mp hafter).1 _ hmem
        exact Or.inr (.values hown rfl (utf8Bytes_lt_iff.mpr hlt))

/-- Members either have a first violation, which is the error, or none, and give a state. -/
theorem ofMembers_cases (t : Table Json) :
    (∃ key, FirstViolation t.find? key ∧ ofMembers t = .error (.invalidValue key)) ∨
      (∀ key, ¬Violates t.find? key) ∧
        ∃ state, Gives t.find? state ∧ ofMembers t = .ok state := by
  let default : State := {}
  rcases foldlM_cases (readText_cases t) Slot.all default.sources with
    ⟨before, slot, after, hall, hbefore, hbad, herror⟩ | ⟨htexts, hsources⟩
  · exact Or.inl ⟨slot.key, firstViolation_slot hall hbefore hbad,
      bind_eq_error.mpr (Or.inl herror)⟩
  have hslots (slot : Slot) : ¬Violates t.find? slot.key := htexts slot (by cases slot <;> decide)
  rcases foldlM_cases readValue_cases t.entries default.env with
    ⟨before, m, after, hentries, hbefore, hbad, herror⟩ | ⟨hvalues, henv⟩
  · exact Or.inl ⟨m.1, firstViolation_member hslots hentries hbefore hbad,
      bind_eq_error.mpr (Or.inr ⟨_, hsources, bind_eq_error.mpr (Or.inl herror)⟩)⟩
  · refine Or.inr ⟨fun key hkey => ?_, _, ⟨fun slot => ?_, fun name => ?_⟩,
      bind_eq_ok.mpr ⟨_, hsources, bind_eq_ok.mpr ⟨_, henv, rfl⟩⟩⟩
    · cases hkey with
      | @text slot v hkey hfind hv =>
        subst hkey
        exact hslots slot (.text rfl hfind hv)
      | @value name v hkey hfind hnull hv =>
        subst hkey
        obtain ⟨w, hmem, hno⟩ := noValue_of_violates (.value rfl hfind hnull hv)
        exact hvalues _ hmem hno
    · rw [get_foldl_withText, text?_of_not_violates (hslots slot)]
      cases text? t slot with
      | none => exact Or.inr ⟨rfl, rfl⟩
      | some text => exact Or.inl rfl
    · exact (find?_foldl_withMember t.ordered default.env name).trans Option.or_none

theorem ofMembers_eq_error_iff {t : Table Json} {e : StorageError} :
    ofMembers t = .error e ↔ ∃ key, e = .invalidValue key ∧ FirstViolation t.find? key := by
  rcases ofMembers_cases t with ⟨key, hfirst, herror⟩ | ⟨hnone, state, -, hok⟩
  · rw [herror]
    refine ⟨fun h => ⟨key, (Except.error.inj h).symm, hfirst⟩, ?_⟩
    rintro ⟨other, rfl, hother⟩
    rw [hfirst.unique hother]
  · rw [hok]
    refine ⟨nofun, ?_⟩
    rintro ⟨key, -, hfirst⟩
    exact absurd hfirst.violates (hnone key)

theorem ofMembers_eq_ok_iff {t : Table Json} {state : State} :
    ofMembers t = .ok state ↔ (∀ key, ¬Violates t.find? key) ∧ Gives t.find? state := by
  rcases ofMembers_cases t with ⟨key, hfirst, herror⟩ | ⟨hnone, other, hgives, hok⟩
  · rw [herror]
    exact ⟨nofun, fun h => absurd hfirst.violates (h.1 key)⟩
  · rw [hok]
    refine ⟨?_, fun h => congrArg Except.ok (hgives.unique h.2)⟩
    rintro ⟨⟩
    exact ⟨hnone, hgives⟩

theorem isStateKey_slot (slot : Slot) : isStateKey slot.key := by
  cases slot <;> decide

theorem isStateKey_parameter (name : String) : isStateKey (parameterKey name) := by
  simp [isStateKey]

section

variable {value? other? : String → Option Json}
  (h : ∀ key, isStateKey key → value? key = other? key)

include h

theorem Violates.congr {key : String} (hkey : Violates value? key) : Violates other? key := by
  cases hkey with
  | @text slot v hkey hfind hv =>
    subst hkey
    exact .text rfl (h _ (isStateKey_slot slot) ▸ hfind) hv
  | @value name v hkey hfind hnull hv =>
    subst hkey
    exact .value rfl (h _ (isStateKey_parameter name) ▸ hfind) hnull hv

theorem violates_congr (key : String) : Violates value? key ↔ Violates other? key :=
  ⟨Violates.congr h, Violates.congr fun key hkey => (h key hkey).symm⟩

theorem FirstViolation.congr {key : String} (hkey : FirstViolation value? key) :
    FirstViolation other? key :=
  ⟨hkey.violates.congr h, fun a ha => hkey.first a ((violates_congr h a).mpr ha)⟩

theorem Gives.congr {state : State} (hs : Gives value? state) : Gives other? state where
  texts slot := h _ (isStateKey_slot slot) ▸ hs.texts slot
  values name := h _ (isStateKey_parameter name) ▸ hs.values name

end

theorem ofMembers_congr {t u : Table Json}
    (h : ∀ key, isStateKey key → t.find? key = u.find? key) : ofMembers t = ofMembers u := by
  rcases ofMembers_cases t with ⟨key, hfirst, herror⟩ | ⟨hnone, state, hgives, hok⟩
  · rw [herror]
    exact (ofMembers_eq_error_iff.mpr ⟨key, rfl, hfirst.congr h⟩).symm
  · rw [hok]
    exact (ofMembers_eq_ok_iff.mpr
      ⟨fun key => mt (violates_congr h key).mpr (hnone key), hgives.congr h⟩).symm

theorem find?_ofList_eq_lastValue? (members : List (String × Json)) :
    (Table.ofList members).find? = lastValue? members :=
  funext (Table.find?_ofList members)

theorem lastValue?_filter (members : List (String × Json)) {key : String} (h : isStateKey key) :
    lastValue? (members.filter fun m => isStateKey m.1) key = lastValue? members key := by
  rw [lastValue?, ← List.filter_reverse, Table.lookup_filter_of_key h]
  rfl

theorem ofJson_of_object {text : String} {members : List (String × Json)}
    (h : Json.document (Json.value maxNesting) text = some (.object members)) :
    ofJson text = ofMembers (Table.ofList members) := by
  rw [ofJson, h]

theorem load_cases {σ : Type} [Storage σ] (storage : σ) :
    (∃ stored state, Storage.load storage = .ok (some stored) ∧ ofJson stored = .ok state ∧
      (load storage).value = state) ∨
    (∀ stored state, Storage.load storage = .ok (some stored) → ofJson stored ≠ .ok state) ∧
      (load storage).value = {} := by
  unfold load
  cases hload : Storage.load storage with
  | error e => exact Or.inr ⟨nofun, rfl⟩
  | ok stored? =>
    cases stored? with
    | none => exact Or.inr ⟨nofun, rfl⟩
    | some stored =>
      dsimp only
      cases hread : ofJson stored with
      | ok state => exact Or.inl ⟨stored, state, rfl, hread, rfl⟩
      | error e =>
        refine Or.inr ⟨?_, rfl⟩
        rintro _ state ⟨⟩
        rw [hread]
        nofun

/-- Only the last value of a known key counts, and the first key with a wrong one is the error. -/
theorem ofJson_member_by_member (text : String) :
    (match Json.document (Json.value maxNesting) text with
      | none => ofJson text = .error .malformed
      | some (.object members) =>
        (∀ e, ofJson text = .error e ↔
          ∃ key, e = .invalidValue key ∧ FirstViolation (lastValue? members) key) ∧
        (∀ state, ofJson text = .ok state ↔
          (∀ key, ¬Violates (lastValue? members) key) ∧ Gives (lastValue? members) state) ∧
        (∀ state, ofJson text = .ok state → Environment.AllFinite state.env) ∧
        ∀ other others, Json.document (Json.value maxNesting) other = some (.object others) →
          (others.filter fun m => isStateKey m.1) = members.filter (fun m => isStateKey m.1) →
          ofJson other = ofJson text
      | some _ => ofJson text = .error .notAnObject) ∧
    ∀ {σ : Type} [Storage σ] (storage : σ),
      (∃ stored state, Storage.load storage = .ok (some stored) ∧ ofJson stored = .ok state ∧
        (load storage).value = state) ∨
      (∀ stored state, Storage.load storage = .ok (some stored) → ofJson stored ≠ .ok state) ∧
        (load storage).value = {} := by
  refine ⟨?_, load_cases⟩
  split
  next hdocument => rw [ofJson, hdocument]
  next members hdocument =>
    rw [ofJson_of_object hdocument, ← find?_ofList_eq_lastValue?]
    refine ⟨fun e => ofMembers_eq_error_iff, fun state => ofMembers_eq_ok_iff, fun state hok => ?_,
      fun other others hother hfilter => ?_⟩
    · exact ofJson_allFinite ((ofJson_of_object hdocument).trans hok)
    · rw [ofJson_of_object hother]
      refine ofMembers_congr fun key hkey => ?_
      rw [find?_ofList_eq_lastValue?, find?_ofList_eq_lastValue?, ← lastValue?_filter others hkey,
        hfilter, lastValue?_filter members hkey]
  next v hno hdocument =>
    rw [ofJson, hdocument]
    cases v with
    | object members => exact absurd rfl (hno members)
    | _ => rfl

/-- Of the two values of a text the last counts, and of the two violations `env.a` is the first. -/
example :
    errorOf (ofJson "\x7b\"env.b\":true,\"env.a\":[],\"func1.func\":1,\"func1.func\":\"k\"\x7d") =
      some (.invalidValue "env.a") := by decide +kernel

end State

end BlendPlot
