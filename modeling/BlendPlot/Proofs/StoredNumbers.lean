import BlendPlot.Proofs.Tables
import BlendPlot.Session

namespace BlendPlot

namespace Json

inductive FiniteNumbers : Json → Prop where
  | null : FiniteNumbers .null
  | bool (value : Bool) : FiniteNumbers (.bool value)
  | integer {value : Int} (h : (Float.ofInt value).isFinite) : FiniteNumbers (.integer value)
  | real {value : Float} (h : value.isFinite) : FiniteNumbers (.real value)
  | string (value : String) : FiniteNumbers (.string value)
  | array {items : List Json} (h : ∀ v ∈ items, FiniteNumbers v) : FiniteNumbers (.array items)
  | object {members : List (String × Json)} (h : ∀ m ∈ members, FiniteNumbers m.2) :
      FiniteNumbers (.object members)

namespace Numeral

theorem toFloat_of_whole {n : Numeral} (hf : n.fraction = none) (he : n.exponent = none) :
    n.magnitude.toFloat = Float.ofNat n.magnitude.digits := by
  have hmagnitude : n.magnitude = ⟨n.magnitude.digits, 0⟩ := by
    simp [magnitude, Decimal.ofPoint, hf, he]
  rw [hmagnitude]
  rfl

/-- A whole number is the same double as an integer and as a decimal. -/
theorem ofInt_of_whole {n : Numeral} (hf : n.fraction = none) (he : n.exponent = none)
    (hz : n.negative = true → n.magnitude.digits ≠ 0) :
    Float.ofInt (if n.negative then -↑n.magnitude.digits else ↑n.magnitude.digits) = n.toFloat := by
  rw [toFloat, toFloat_of_whole hf he]
  cases hn : n.negative with
  | false => rfl
  | true =>
    -- An integer has one zero: a zero with a sign is read as a decimal.
    obtain ⟨k, hk⟩ := Nat.exists_eq_succ_of_ne_zero (hz hn)
    rw [hk]
    rfl

theorem finiteNumbers_of_toJson? {n : Numeral} {v : Json} (h : n.toJson? = some v) :
    v.FiniteNumbers := by
  unfold toJson? at h
  split at h
  next => cases h
  next hfinite =>
    have hf : n.toFloat.isFinite := by simpa using hfinite
    split at h
    next hwhole =>
      cases h
      simp only [Bool.and_eq_true, Option.isNone_iff_eq_none, Bool.not_eq_true',
        Bool.and_eq_false_imp, decide_eq_false_iff_not] at hwhole
      obtain ⟨⟨hfraction, hexponent⟩, hsigned⟩ := hwhole
      refine .integer ?_
      rw [ofInt_of_whole hfraction hexponent hsigned]
      exact hf
    next =>
      cases h
      exact .real hf

end Numeral

theorem scalarValue_finiteNumbers {cs rest : List Char} {v : Json}
    (h : scalarValue cs = some (v, rest)) : v.FiniteNumbers := by
  unfold scalarValue at h
  split at h
  · obtain ⟨_, -, h⟩ := Option.map_eq_some_iff.mp h
    cases h
    exact .null
  · obtain ⟨_, -, h⟩ := Option.map_eq_some_iff.mp h
    cases h
    exact .bool true
  · obtain ⟨_, -, h⟩ := Option.map_eq_some_iff.mp h
    cases h
    exact .bool false
  · obtain ⟨_, -, h⟩ := Option.map_eq_some_iff.mp h
    cases h
    exact .string _
  · obtain ⟨_, -, h⟩ := Option.bind_eq_some_iff.mp h
    obtain ⟨_, hv, h⟩ := Option.bind_eq_some_iff.mp h
    cases h
    exact Numeral.finiteNumbers_of_toJson? hv

section

variable {α : Type} {P : α → Prop}

theorem items_forall {sub : Reader α} (hsub : ∀ {cs v rest}, sub.run cs = some (v, rest) → P v)
    {cs rest : List Char} {vs : List α} (h : items sub cs = some (vs, rest)) : ∀ v ∈ vs, P v := by
  fun_induction items sub cs generalizing vs rest with
  | case1 => cases h
  | case2 cs first more hs more' ht ih =>
    obtain ⟨_, hr, h⟩ := Option.map_eq_some_iff.mp h
    cases h
    exact List.forall_mem_cons.mpr ⟨hsub hs, ih hr⟩
  | case3 cs first more hs more' ht =>
    cases h
    exact List.forall_mem_singleton.mpr (hsub hs)
  | case4 => cases h

theorem arrayRest_forall {sub : Reader α}
    (hsub : ∀ {cs v rest}, sub.run cs = some (v, rest) → P v) {cs rest : List Char} {vs : List α}
    (h : arrayRest sub cs = some (vs, rest)) : ∀ v ∈ vs, P v := by
  unfold arrayRest at h
  split at h
  next => cases h; exact nofun
  next => exact items_forall hsub h

theorem member_value {sub : String → Reader α}
    (hsub : ∀ {key cs v rest}, (sub key).run cs = some (v, rest) → P v) {cs rest : List Char}
    {m : String × α} (h : member sub cs = some (m, rest)) : P m.2 := by
  obtain ⟨_, -, h⟩ := Option.bind_eq_some_iff.mp h
  obtain ⟨_, -, h⟩ := Option.bind_eq_some_iff.mp h
  obtain ⟨_, hv, h⟩ := Option.bind_eq_some_iff.mp h
  cases h
  exact hsub hv

theorem members_forall {sub : String → Reader α}
    (hsub : ∀ {key cs v rest}, (sub key).run cs = some (v, rest) → P v) {cs rest : List Char}
    {ms : List (String × α)} (h : members sub cs = some (ms, rest)) : ∀ m ∈ ms, P m.2 := by
  fun_induction members sub cs generalizing ms rest with
  | case1 => cases h
  | case2 cs first more hm more' ht ih =>
    obtain ⟨_, hr, h⟩ := Option.map_eq_some_iff.mp h
    cases h
    exact List.forall_mem_cons.mpr ⟨member_value hsub hm, ih hr⟩
  | case3 cs first more hm more' ht =>
    cases h
    exact List.forall_mem_singleton.mpr (member_value hsub hm)
  | case4 => cases h

theorem objectRest_forall {sub : String → Reader α}
    (hsub : ∀ {key cs v rest}, (sub key).run cs = some (v, rest) → P v) {cs rest : List Char}
    {ms : List (String × α)} (h : objectRest sub cs = some (ms, rest)) : ∀ m ∈ ms, P m.2 := by
  unfold objectRest at h
  split at h
  next => cases h; exact nofun
  next => exact members_forall hsub h

end

theorem value_finiteNumbers {room : Nat} {cs rest : List Char} {v : Json}
    (h : (value room).run cs = some (v, rest)) : v.FiniteNumbers := by
  induction room generalizing cs rest v with
  | zero => exact scalarValue_finiteNumbers h
  | succ room ih =>
    change layer (value room) cs = some (v, rest) at h
    unfold layer at h
    split at h
    · obtain ⟨_, harray, h⟩ := Option.map_eq_some_iff.mp h
      cases h
      exact .array (arrayRest_forall ih harray)
    · obtain ⟨_, hobject, h⟩ := Option.map_eq_some_iff.mp h
      cases h
      exact .object (objectRest_forall ih hobject)
    · exact scalarValue_finiteNumbers h

theorem exists_run_of_document {α : Type} {r : Reader α} {text : String} {a : α}
    (h : document r text = some a) : ∃ cs rest, r.run cs = some (a, rest) := by
  unfold document at h
  split at h
  next => cases h
  next hrun =>
    split at h
    next =>
      cases h
      exact ⟨_, _, hrun⟩
    next => cases h

theorem document_finiteNumbers {room : Nat} {text : String} {v : Json}
    (h : document (value room) text = some v) : v.FiniteNumbers := by
  obtain ⟨_, _, hrun⟩ := exists_run_of_document h
  exact value_finiteNumbers hrun

theorem isFinite_of_toFloat? {v : Json} {x : Float} (hv : v.FiniteNumbers)
    (h : v.toFloat? = some x) : x.isFinite := by
  cases hv with
  | integer hf =>
    cases h
    exact hf
  | real hf =>
    cases h
    exact hf
  | null | bool | string | array | object => cases h

end Json

def Environment.AllFinite (env : Environment) : Prop :=
  ∀ e ∈ env.entries, e.2.isFinite

theorem Environment.allFinite_empty : AllFinite Table.empty :=
  List.forall_mem_nil _

theorem Environment.AllFinite.insert {env : Environment} (h : AllFinite env) (name : String)
    {value : Float} (hv : value.isFinite) : AllFinite (Table.insert env name value) := by
  intro e he
  rcases Table.mem_insertEntry he with rfl | he
  · exact hv
  · exact h e he

theorem Environment.AllFinite.filter_eq {env : Environment} (h : AllFinite env) :
    (env.filter fun e => e.2.isFinite) = env :=
  Table.ext (List.filter_eq_self.mpr h)

namespace State

theorem readValue_allFinite {env env' : Environment} {m : String × Json}
    (henv : Environment.AllFinite env) (hm : m.2.FiniteNumbers)
    (h : readValue env m = .ok env') : Environment.AllFinite env' := by
  unfold readValue at h
  split at h
  next => cases h; exact henv
  next name _ =>
    split at h
    next => cases h; exact henv
    next value hv =>
      cases h
      rw [hv] at hm
      cases hm with
      | integer hf => exact henv.insert name hf
    next value hv =>
      cases h
      rw [hv] at hm
      cases hm with
      | real hf => exact henv.insert name hf
    next => cases h

theorem ofMembers_allFinite {members : Table Json} {state : State}
    (hm : ∀ m ∈ members.entries, m.2.FiniteNumbers) (h : ofMembers members = .ok state) :
    Environment.AllFinite state.env := by
  obtain ⟨sources, -, h⟩ := bind_eq_ok.mp h
  obtain ⟨env, henv, h⟩ := bind_eq_ok.mp h
  cases h
  refine foldlM_preserves (fun m hmem b b' hb hread => ?_) Environment.allFinite_empty henv
  exact readValue_allFinite hb (hm m hmem) hread

theorem ofJson_allFinite {text : String} {state : State} (h : ofJson text = .ok state) :
    Environment.AllFinite state.env := by
  unfold ofJson at h
  split at h
  next => cases h
  next members hdocument =>
    cases Json.document_finiteNumbers hdocument with
    | object hm => exact ofMembers_allFinite (fun m hmem => hm m (Table.mem_of_mem_ofList hmem)) h
  next => cases h

/-- Whatever is stored, the values of a loaded state are finite. -/
theorem load_allFinite {σ : Type} [Storage σ] (storage : σ) :
    Environment.AllFinite (load storage).value.env := by
  have hdefault : Environment.AllFinite ({} : State).env := Environment.allFinite_empty
  unfold load
  split
  next => exact hdefault
  next => exact hdefault
  next text _ =>
    cases hjson : ofJson text with
    | ok state => exact ofJson_allFinite hjson
    | error e => exact hdefault

end State

end BlendPlot
