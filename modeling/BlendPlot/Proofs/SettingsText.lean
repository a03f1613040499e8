import BlendPlot.Proofs.JsonText
import BlendPlot.Proofs.SamplingGrid
import BlendPlot.Proofs.StoredNumbers
import BlendPlot.Settings.Json

namespace BlendPlot

open Double

namespace Json

theorem scalarValue_natCast {n : Nat} (hn : n < 2 ^ 64) {rest : List Char}
    (hrest : EndsWord rest) :
    scalarValue ((integer n).write.toList ++ rest) = some (.integer n, rest) := by
  have hproper : (Numeral.mk false (Nat.toDigits 10 n) none none).Proper :=
    ⟨⟨Nat.toDigits_ne_nil, fun c => Decimal.isDigit_of_mem_toDigits, nofun⟩, nofun,
      Decimal.lead_toDigits n⟩
  have hdigits : (Numeral.mk false (Nat.toDigits 10 n) none none).magnitude.digits = n := by
    rw [Numeral.magnitude, Decimal.ofPoint, Option.getD_none, List.append_nil]
    exact Decimal.digitsValue_toDigits n
  have hfinite : (Numeral.mk false (Nat.toDigits 10 n) none none).toFloat.isFinite := by
    change (Numeral.mk false (Nat.toDigits 10 n) none none).magnitude.toFloat.isFinite
    rw [Numeral.toFloat_of_whole rfl rfl, hdigits]
    exact (rounds_ofNat n).isFinite_iff.mpr (Settings.natCast_lt_overflow hn)
  have hvalue : (Numeral.mk false (Nat.toDigits 10 n) none none).toJson? = some (.integer n) := by
    rw [Numeral.toJson?, hfinite, hdigits]
    rfl
  have htext : (integer n).write.toList =
      (Numeral.mk false (Nat.toDigits 10 n) none none).text := by
    change n.repr.toList = _
    rw [Nat.toList_repr]
    simp [Numeral.text, Numeral.fractionText, Numeral.exponentText]
  rw [htext]
  exact scalarValue_of_numeral (numeral_text hproper hrest) hvalue

theorem toFloat?_readBack (x : Float) :
    (real x).readBack.toFloat? = if x.isFinite then some x else none := by
  rw [readBack]
  split <;> rfl

end Json

namespace Settings

def AllFinite (s : Settings) : Prop :=
  s.minX.isFinite ∧ s.maxX.isFinite ∧ s.width.isFinite ∧ s.height.isFinite

instance (s : Settings) : Decidable s.AllFinite :=
  inferInstanceAs (Decidable (_ ∧ _ ∧ _ ∧ _))

theorem Field.ofKey?_key (field : Field) : Field.ofKey? field.key = some field := by
  cases field <;> decide

theorem readsAs_get (s : Settings) (field : Field) :
    Json.ReadsAs Json.scalar (s.get field) (s.get field).readBack := by
  cases field with
  | minX | maxX | width | height => exact Json.readsAs_value (v := .real _) trivial 0
  | steps =>
    exact Json.readsAs_value_of_scalarValue
      (fun _ hrest => Json.scalarValue_natCast s.steps.toNat_lt hrest) 0

theorem readsAs_fieldReader (s : Settings) (field : Field) :
    Json.ReadsAs (fieldReader field.key) (s.get field) (some (field, (s.get field).readBack)) := by
  rw [fieldReader, Field.ofKey?_key]
  exact (s.readsAs_get field).filterMap rfl

/-- A number that is not finite is written as `null`, which no field takes. -/
theorem ofFields?_readBack (s : Settings) :
    ofFields? (Field.all.map fun field => (field, (s.get field).readBack)) =
      if s.AllFinite then some s else none := by
  obtain ⟨minX, maxX, steps, width, height⟩ := s
  have hsteps : steps.toNat < UInt64.size := steps.toNat_lt
  cases hminX : minX.isFinite <;> cases hmaxX : maxX.isFinite <;>
    cases hwidth : width.isFinite <;> cases hheight : height.isFinite <;>
      simp [ofFields?, Field.all, set?, get, Json.readBack, Json.toFloat?, AllFinite, hminX, hmaxX,
        hwidth, hheight, hsteps]

theorem ofJson?_write_toJson (s : Settings) :
    ofJson? s.toJson.write = if s.AllFinite then some s else none := by
  have hmembers : ∀ m ∈ Field.all.map fun field => (field.key, s.get field),
      Json.ReadsAs (fieldReader m.1) m.2 ((Field.ofKey? m.1).map fun field =>
        (field, m.2.readBack)) := by
    intro m hm
    obtain ⟨field, -, rfl⟩ := List.mem_map.mp hm
    rw [Field.ofKey?_key]
    exact s.readsAs_fieldReader field
  have hdocument := Json.document_objectOf_write hmembers
  have hfields : ((Field.all.map fun field => (field.key, s.get field)).map fun m =>
        (m.1, (Field.ofKey? m.1).map fun field => (field, m.2.readBack))).filterMap (·.2) =
      Field.all.map fun field => (field, (s.get field).readBack) := by
    simp [Field.all, Field.ofKey?_key]
  have hnodup : ((Field.all.map fun field => (field, (s.get field).readBack)).map (·.1)).Nodup := by
    simp [Field.all]
  rw [ofJson?, toJson, hdocument]
  change ofObject? _ = _
  rw [ofObject?, hfields, if_pos hnodup, ofFields?_readBack]

theorem AllFinite.set? {s t : Settings} (hs : s.AllFinite) {field : Field} {v : Json}
    (hv : v.FiniteNumbers) (h : s.set? field v = some t) : t.AllFinite := by
  obtain ⟨hminX, hmaxX, hwidth, hheight⟩ := hs
  cases field with
  | minX =>
    obtain ⟨x, hx, rfl⟩ := Option.map_eq_some_iff.mp h
    exact ⟨Json.isFinite_of_toFloat? hv hx, hmaxX, hwidth, hheight⟩
  | maxX =>
    obtain ⟨x, hx, rfl⟩ := Option.map_eq_some_iff.mp h
    exact ⟨hminX, Json.isFinite_of_toFloat? hv hx, hwidth, hheight⟩
  | width =>
    obtain ⟨x, hx, rfl⟩ := Option.map_eq_some_iff.mp h
    exact ⟨hminX, hmaxX, Json.isFinite_of_toFloat? hv hx, hheight⟩
  | height =>
    obtain ⟨x, hx, rfl⟩ := Option.map_eq_some_iff.mp h
    exact ⟨hminX, hmaxX, hwidth, Json.isFinite_of_toFloat? hv hx⟩
  | steps =>
    simp only [Settings.set?] at h
    split at h
    next =>
      split at h <;> cases h
      exact ⟨hminX, hmaxX, hwidth, hheight⟩
    next => cases h

theorem allFinite_of_ofFields? {fields : List (Field × Json)} {s : Settings}
    (hfields : ∀ f ∈ fields, f.2.FiniteNumbers) (h : ofFields? fields = some s) :
    s.AllFinite := by
  have hdefault : ({} : Settings).AllFinite := by decide +kernel
  unfold ofFields? at h
  generalize ({} : Settings) = t at h hdefault
  induction fields generalizing t with
  | nil =>
    cases h
    exact hdefault
  | cons f fields ih =>
    rw [List.foldlM_cons] at h
    obtain ⟨u, hu, h⟩ := Option.bind_eq_some_iff.mp h
    obtain ⟨hf, hmore⟩ := List.forall_mem_cons.mp hfields
    exact ih hmore u h (hdefault.set? hf hu)

theorem finiteNumbers_of_fieldReader {key : String} {cs rest : List Char}
    {found : Option (Field × Json)} (h : (fieldReader key).run cs = some (found, rest)) :
    ∀ f ∈ found, f.2.FiniteNumbers := by
  unfold fieldReader at h
  split at h
  next field _ =>
    obtain ⟨⟨v, _⟩, hv, h⟩ := Option.bind_eq_some_iff.mp h
    cases h
    intro f hf
    obtain rfl := Option.some.inj hf
    exact Json.scalarValue_finiteNumbers hv
  next =>
    obtain ⟨_, -, h⟩ := Option.bind_eq_some_iff.mp h
    cases h
    exact nofun

theorem allFinite_of_ofJson? {text : String} {s : Settings} (h : ofJson? text = some s) :
    s.AllFinite := by
  unfold ofJson? at h
  split at h
  next members hmembers =>
    obtain ⟨cs, rest, hrun⟩ := Json.exists_run_of_document hmembers
    simp only [Json.objectOf] at hrun
    split at hrun
    next =>
      have hall := Json.objectRest_forall finiteNumbers_of_fieldReader hrun
      simp only [ofObject?] at h
      split at h
      next =>
        refine allFinite_of_ofFields? (fun f hf => ?_) h
        obtain ⟨m, hm, hfound⟩ := List.mem_filterMap.mp hf
        exact hall m hm f hfound
      next => cases h
    next => cases hrun
  next =>
    obtain ⟨items, hitems, h⟩ := Option.bind_eq_some_iff.mp h
    obtain ⟨cs, rest, hrun⟩ := Json.exists_run_of_document hitems
    simp only [Json.arrayOf] at hrun
    split at hrun
    next =>
      have hall := Json.arrayRest_forall Json.scalarValue_finiteNumbers hrun
      unfold ofArray? at h
      split at h
      next =>
        exact allFinite_of_ofFields? (fun f hf => hall f.2 (List.of_mem_zip hf).2) h
      next => cases h
    next => cases hrun

/-- Settings with finite numbers may have no steps or no size, but they have a domain. -/
theorem AllFinite.error?_ne_badDomain {s : Settings} (hs : s.AllFinite) (minX maxX : Float) :
    s.error? ≠ some (.badDomain minX maxX) := by
  obtain ⟨hminX, hmaxX, -⟩ := hs
  unfold error?
  split
  next => exact nofun
  next =>
    split
    next => exact nofun
    next => simp [hminX, hmaxX]

end Settings

namespace Environment

instance (env : Environment) : Decidable (AllFinite env) :=
  inferInstanceAs (Decidable (∀ e ∈ env.entries, e.2.isFinite))

theorem mapM_readBack (es : List (String × Float)) :
    (es.map fun e => (e.1, (Json.real e.2).readBack)).mapM
        (fun m => m.2.toFloat?.map fun value => (m.1, value)) =
      if ∀ e ∈ es, e.2.isFinite then some es else none := by
  induction es with
  | nil => rfl
  | cons e es ih =>
    have hall : (∀ d ∈ e :: es, d.2.isFinite) ↔ e.2.isFinite ∧ ∀ d ∈ es, d.2.isFinite :=
      List.forall_mem_cons
    rw [List.map_cons, List.mapM_cons, ih, Json.toFloat?_readBack]
    by_cases he : e.2.isFinite
    · by_cases hes : ∀ d ∈ es, d.2.isFinite
      · rw [if_pos he, if_pos hes, if_pos (hall.mpr ⟨he, hes⟩)]
        rfl
      · rw [if_pos he, if_neg hes, if_neg fun h => hes (hall.mp h).2]
        rfl
    · rw [if_neg he, if_neg fun h => he (hall.mp h).1]
      rfl

theorem ofJson?_write_toJson (env : Environment) :
    ofJson? (toJson env).write = if AllFinite env then some env else none := by
  have hmembers : ∀ m ∈ env.entries.map fun e => (e.1, Json.real e.2),
      Json.ReadsAs Json.scalar m.2 m.2.readBack := by
    intro m hm
    obtain ⟨e, -, rfl⟩ := List.mem_map.mp hm
    exact Json.readsAs_value (v := .real _) trivial 0
  have hdocument : Json.document (Json.objectOf fun _ => Json.scalar) (toJson env).write =
      some ((env.entries.map fun e => (e.1, Json.real e.2)).map fun m => (m.1, m.2.readBack)) :=
    Json.document_objectOf_write hmembers
  have htable : Table.ofList env.entries = env := Table.ext (Table.entries_ofList env.ordered)
  rw [ofJson?, hdocument, List.map_map, Option.bind_eq_bind, Option.bind_some]
  change (List.mapM _ (env.entries.map fun e => (e.1, (Json.real e.2).readBack)) >>= _) = _
  rw [mapM_readBack]
  by_cases hf : ∀ e ∈ env.entries, e.2.isFinite
  · rw [if_pos hf, if_pos (show AllFinite env from hf)]
    exact congrArg some htable
  · rw [if_neg hf, if_neg (show ¬AllFinite env from hf)]
    rfl

end Environment

/-- Settings and environments are read back if their numbers are finite, and refused otherwise. -/
theorem json_read_back :
    (∀ s : Settings, Settings.ofJson? s.toJson.write = if s.AllFinite then some s else none) ∧
      (∀ env : Environment, Environment.ofJson? (Environment.toJson env).write =
        if Environment.AllFinite env then some env else none) ∧
      ∀ text s, Settings.ofJson? text = some s →
        s.AllFinite ∧ ∀ minX maxX, s.error? ≠ some (.badDomain minX maxX) := by
  refine ⟨Settings.ofJson?_write_toJson, Environment.ofJson?_write_toJson, fun text s h => ?_⟩
  have hs := Settings.allFinite_of_ofJson? h
  exact ⟨hs, hs.error?_ne_badDomain⟩

theorem json_read_back_of_partial_text :
    Settings.ofJson? "\x7b\"max_x\": 1.7976931348623157e308, \"note\": [1e999]\x7d" =
        some { maxX := Float.ofBits 0x7fefffffffffffff } ∧
      ({ maxX := Float.ofBits 0x7fefffffffffffff } : Settings).AllFinite := by
  have h : Settings.ofJson? "\x7b\"max_x\": 1.7976931348623157e308, \"note\": [1e999]\x7d" =
      some { maxX := Float.ofBits 0x7fefffffffffffff } := by
    decide +kernel
  exact ⟨h, (json_read_back.2.2 _ _ h).1⟩

end BlendPlot
