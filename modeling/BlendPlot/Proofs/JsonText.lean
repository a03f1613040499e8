import BlendPlot.Json.Reader
import BlendPlot.Json.Writer
import BlendPlot.Proofs.NumberText

namespace BlendPlot.Json

theorem digits_run {run rest : List Char} (hne : run ≠ []) (hrun : ∀ c ∈ run, c.isDigit)
    (hrest : ∀ c ∈ rest.head?, c.isDigit = false) : digits (run ++ rest) = some (run, rest) := by
  rw [digits, takeWhile_run hrun hrest, dropWhile_run hrun hrest, if_neg]
  simpa using hne

theorem whole_run {run rest : List Char} (hne : run ≠ []) (hrun : ∀ c ∈ run, c.isDigit)
    (hlead : run = ['0'] ∨ run.head? ≠ some '0') (hrest : ∀ c ∈ rest.head?, c.isDigit = false) :
    whole (run ++ rest) = some (run, rest) := by
  rcases hlead with rfl | hlead
  · rfl
  · rw [← digits_run hne hrun hrest]
    obtain ⟨c, cs, rfl⟩ := List.exists_cons_of_ne_nil hne
    rw [List.cons_append, whole.eq_def]
    split
    next h =>
      obtain ⟨rfl, -⟩ := List.cons.inj h
      exact absurd rfl hlead
    next => rfl

theorem fraction_text {f : Option (List Char)} (hf : f ≠ some [])
    (hdigits : ∀ c ∈ f.getD [], c.isDigit) {rest : List Char}
    (hrest : ∀ c ∈ rest.head?, c.isDigit = false) (hpoint : rest.head? ≠ some '.') :
    fraction (Numeral.fractionText f ++ rest) = some (f, rest) := by
  cases f with
  | none =>
    change fraction rest = some (none, rest)
    unfold fraction
    split
    next => exact absurd rfl hpoint
    next => rfl
  | some ds =>
    have hne : ds ≠ [] := fun h => hf (congrArg some h)
    rw [Option.getD_some] at hdigits
    change (digits (ds ++ rest) >>= fun r => pure (some r.1, r.2)) = some (some ds, rest)
    rw [digits_run hne hdigits hrest]
    rfl

theorem signedDigits_text (e : Int) {rest : List Char}
    (hrest : ∀ c ∈ rest.head?, c.isDigit = false) :
    signedDigits ((if e < 0 then '-' else '+') :: (Nat.toDigits 10 e.natAbs ++ rest)) =
      some (e, rest) := by
  have hdigits := digits_run (Nat.toDigits_ne_nil (n := e.natAbs) (b := 10))
    (fun c => Decimal.isDigit_of_mem_toDigits) hrest
  have hvalue := Decimal.digitsValue_toDigits e.natAbs
  split
  next he =>
    have habs : -(e.natAbs : Int) = e := by omega
    simp only [signedDigits, hdigits, hvalue, habs, Option.bind_eq_bind, Option.bind_some, pure]
  next he =>
    have habs : (e.natAbs : Int) = e := by omega
    simp only [signedDigits, hdigits, hvalue, habs, Option.bind_eq_bind, Option.bind_some, pure]

theorem exponent_text (e : Option Int) {rest : List Char} (hrest : EndsWord rest) :
    exponent (Numeral.exponentText e ++ rest) = some (e, rest) := by
  cases e with
  | none =>
    change exponent rest = some (none, rest)
    unfold exponent
    split
    next => exact absurd (hrest 'e' rfl) (by decide)
    next => exact absurd (hrest 'E' rfl) (by decide)
    next => rfl
  | some e =>
    change (signedDigits ((if e < 0 then '-' else '+') :: (Nat.toDigits 10 e.natAbs ++ rest)) >>=
      fun r => pure (some r.1, r.2)) = some (some e, rest)
    rw [signedDigits_text e hrest.not_isDigit]
    rfl

theorem unsigned_text {n : Numeral} (hn : n.Proper) {rest : List Char} (hrest : EndsWord rest) :
    unsigned n.negative (n.text ++ rest) = some (n, rest) := by
  obtain ⟨negative, w, f, e⟩ := n
  obtain ⟨⟨hne, hw, hf⟩, hfne, hlead⟩ := hn
  have hexponent := exponent_text e hrest
  have hdigit : ∀ c ∈ (Numeral.exponentText e ++ rest).head?, c.isDigit = false := by
    cases e with
    | none => exact hrest.not_isDigit
    | some e =>
      intro c hc
      obtain rfl := Option.some.inj hc
      decide
  have hpoint : (Numeral.exponentText e ++ rest).head? ≠ some '.' := by
    cases e with
    | none => exact hrest.head?_ne_point
    | some e => simp [Numeral.exponentText]
  have hfraction := fraction_text hfne hf hdigit hpoint
  have hafter : ∀ c ∈ (Numeral.fractionText f ++ (Numeral.exponentText e ++ rest)).head?,
      c.isDigit = false := by
    cases f with
    | none => exact hdigit
    | some ds =>
      intro c hc
      obtain rfl := Option.some.inj hc
      decide
  have hwhole := whole_run hne hw hlead hafter
  dsimp only at hwhole hfraction
  simp only [unsigned, Numeral.text, List.append_assoc, hwhole, hfraction, hexponent,
    Option.bind_eq_bind, Option.bind_some, pure]

theorem numeral_text {n : Numeral} (hn : n.Proper) {rest : List Char} (hrest : EndsWord rest) :
    numeral ((if n.negative then ['-'] else []) ++ n.text ++ rest) = some (n, rest) := by
  have hunsigned := unsigned_text hn hrest
  cases hs : n.negative with
  | true =>
    rw [hs] at hunsigned
    exact hunsigned
  | false =>
    rw [hs] at hunsigned
    obtain ⟨hne, hw, -⟩ := hn.numeral
    obtain ⟨c, cs, hcs⟩ := List.exists_cons_of_ne_nil hne
    have hdigit : c.isDigit := hw c (by simp [hcs])
    have htext : n.text = c :: (cs ++ Numeral.fractionText n.fraction ++
        Numeral.exponentText n.exponent) := by
      rw [Numeral.text, hcs]
      rfl
    rw [← hunsigned, htext]
    simp only [Bool.false_eq_true, if_false, List.nil_append, List.cons_append]
    unfold numeral
    split
    next h =>
      obtain ⟨rfl, -⟩ := List.cons.inj h
      exact absurd hdigit (by decide)
    next => rfl

def IsScalar : Json → Prop
  | string _ => True
  | real _ => True
  | _ => False

/-- The value that is read back: numbers that are not finite are lost. -/
def readBack : Json → Json
  | real value => if value.isFinite then .real value else .null
  | v => v

theorem scalarValue_of_numeral {cs rest : List Char} {n : Numeral} {v : Json}
    (h : numeral cs = some (n, rest)) (hv : n.toJson? = some v) :
    scalarValue cs = some (v, rest) := by
  unfold scalarValue
  split
  next => simp [numeral, unsigned, whole, digits] at h
  next => simp [numeral, unsigned, whole, digits] at h
  next => simp [numeral, unsigned, whole, digits] at h
  next => simp [numeral, unsigned, whole, digits] at h
  next => simp [h, hv]

theorem scalarValue_quote (text : String) (rest : List Char) :
    scalarValue ((quote text).toList ++ rest) = some (.string text, rest) := by
  have hread := quotedString_quote text rest
  obtain ⟨cs, hcs⟩ : ∃ cs, (quote text).toList ++ rest = '"' :: cs := ⟨_, by simp [quote]; rfl⟩
  rw [hcs] at hread ⊢
  change (quotedString ('"' :: cs)).map _ = _
  rw [hread]
  rfl

theorem scalarValue_null (rest : List Char) :
    scalarValue ("null".toList ++ rest) = some (.null, rest) := by
  change (afterWord ['u', 'l', 'l'] ('u' :: 'l' :: 'l' :: rest)).map _ = _
  simp [afterWord]

theorem scalarValue_real {value : Float} (hf : value.isFinite) {rest : List Char}
    (hrest : EndsWord rest) :
    scalarValue ((Decimal.Layout.data.text value).toList ++ rest) = some (.real value, rest) := by
  obtain ⟨n, htext, -, hproper, hvalue, -, hpoint⟩ := Decimal.text_spells .data hf
  have hread := numeral_text hproper hrest
  have hreal : n.toJson? = some (.real value) := by
    have hwhole : (n.fraction.isNone && n.exponent.isNone) = false := by
      rw [← Option.not_isSome, ← Option.not_isSome]
      rcases hpoint rfl with h | h <;> simp [h]
    rw [Numeral.toJson?, hvalue, hf, hwhole]
    rfl
  rw [htext]
  exact scalarValue_of_numeral hread hreal

theorem scalarValue_write {v : Json} (hv : v.IsScalar) {rest : List Char} (hrest : EndsWord rest) :
    scalarValue (v.write.toList ++ rest) = some (v.readBack, rest) := by
  cases v with
  | string text => exact scalarValue_quote text rest
  | real value =>
    rw [write, readBack]
    split
    next hf => exact scalarValue_real hf hrest
    next => exact scalarValue_null rest
  | null | bool | integer | array | object => exact absurd hv id

theorem trimmed_of_scalarValue {cs rest : List Char} {v : Json}
    (h : scalarValue cs = some (v, rest)) : trimmed cs = cs := by
  cases cs with
  | nil => rfl
  | cons c cs =>
    have hc : isSpace c = false := by
      rw [Bool.eq_false_iff]
      intro hspace
      simp only [isSpace, Bool.or_eq_true, decide_eq_true_eq] at hspace
      rcases hspace with ((rfl | rfl) | rfl) | rfl <;>
        simp [scalarValue, numeral, unsigned, whole, digits] at h
    rw [trimmed, List.dropWhile_cons_of_neg (by simp [hc])]

theorem value_run_of_scalarValue {cs rest : List Char} {v : Json}
    (h : scalarValue cs = some (v, rest)) (room : Nat) :
    (value room).run cs = some (v, rest) := by
  cases room with
  | zero => exact h
  | succ room =>
    change layer (value room) cs = _
    unfold layer
    split
    next => simp [scalarValue, numeral, unsigned, whole, digits] at h
    next => simp [scalarValue, numeral, unsigned, whole, digits] at h
    next => exact h

/-- A reader reads the text of a value as `a`, after blanks if need be, and stops at its end. -/
def ReadsAs {α : Type} (r : Reader α) (v : Json) (a : α) : Prop :=
  ∀ rest, EndsWord rest → r.run (trimmed (v.write.toList ++ rest)) = some (a, rest)

theorem readsAs_value_of_scalarValue {v a : Json}
    (h : ∀ rest, EndsWord rest → scalarValue (v.write.toList ++ rest) = some (a, rest))
    (room : Nat) : ReadsAs (value room) v a := by
  intro rest hrest
  have hread := h rest hrest
  rw [trimmed_of_scalarValue hread]
  exact value_run_of_scalarValue hread room

theorem readsAs_value {v : Json} (hv : v.IsScalar) (room : Nat) :
    ReadsAs (value room) v v.readBack :=
  readsAs_value_of_scalarValue (fun _ hrest => scalarValue_write hv hrest) room

theorem ReadsAs.filterMap {α β : Type} {r : Reader α} {v : Json} {a : α} {f : α → Option β} {b : β}
    (h : ReadsAs r v a) (hf : f a = some b) : ReadsAs (r.filterMap f) v b := by
  intro rest hrest
  simp only [Reader.filterMap, h rest hrest, hf, Option.bind_eq_bind, Option.bind_some, pure]

section

variable {α : Type} {sub : String → Reader α} {read : String × Json → α}

theorem member_write {key : String} {v : Json} {a : α} (h : ReadsAs (sub key) v a)
    {rest : List Char} (hrest : EndsWord rest) :
    member sub ((quote key ++ ":" ++ v.write).toList ++ rest) = some ((key, a), rest) := by
  have hread := h rest hrest
  have hkey := quotedString_quote key (':' :: (v.write.toList ++ rest))
  have htrim : trimmed ((quote key).toList ++ ':' :: (v.write.toList ++ rest)) =
      (quote key).toList ++ ':' :: (v.write.toList ++ rest) :=
    trimmed_of_scalarValue (scalarValue_quote key _)
  have htext : (quote key ++ ":" ++ v.write).toList ++ rest =
      (quote key).toList ++ ':' :: (v.write.toList ++ rest) := by
    simp
  have hcolon : afterColon (':' :: (v.write.toList ++ rest)) = some (v.write.toList ++ rest) := rfl
  rw [htext, member, htrim]
  simp only [hkey, hcolon, hread, Option.bind_eq_bind, Option.bind_some, pure]

theorem members_of_member {cs rest : List Char} {m : String × α}
    (h : member sub cs = some (m, rest)) :
    members sub cs =
      match trimmed rest with
      | ',' :: more => (members sub more).map fun r => (m :: r.1, r.2)
      | '\x7d' :: more => some ([m], more)
      | _ => none := by
  rw [members.eq_def]
  split
  next hnone =>
    rw [h] at hnone
    cases hnone
  next hsome =>
    rw [h] at hsome
    cases hsome
    split <;> simp_all

theorem members_write {ms : List (String × Json)} (hne : ms ≠ [])
    (hms : ∀ m ∈ ms, ReadsAs (sub m.1) m.2 (read m)) (rest : List Char) :
    members sub ((",".intercalate (writeMembers ms)).toList ++ '\x7d' :: rest) =
      some (ms.map fun m => (m.1, read m), rest) := by
  induction ms with
  | nil => exact absurd rfl hne
  | cons m ms ih =>
    obtain ⟨key, v⟩ := m
    have hm : ReadsAs (sub key) v (read (key, v)) := hms (key, v) List.mem_cons_self
    cases ms with
    | nil =>
      have hmember := member_write hm (endsWord_cons (c := '\x7d') (by decide) rest)
      have htext : (",".intercalate (writeMembers [(key, v)])).toList =
          (quote key ++ ":" ++ v.write).toList := by
        simp [writeMembers]
      rw [htext, members_of_member hmember]
      rfl
    | cons m' ms =>
      have hmore := ih (List.cons_ne_nil m' ms) fun e he => hms e (List.mem_cons_of_mem _ he)
      have hmember := member_write hm (endsWord_cons (c := ',') (by decide)
        ((",".intercalate (writeMembers (m' :: ms))).toList ++ '\x7d' :: rest))
      have htext :
          (",".intercalate (writeMembers ((key, v) :: m' :: ms))).toList ++ '\x7d' :: rest =
          (quote key ++ ":" ++ v.write).toList ++
            ',' :: ((",".intercalate (writeMembers (m' :: ms))).toList ++ '\x7d' :: rest) := by
        obtain ⟨key', v'⟩ := m'
        simp [writeMembers]
      rw [htext, members_of_member hmember]
      change (members _
        ((",".intercalate (writeMembers (m' :: ms))).toList ++ '\x7d' :: rest)).map _ = _
      rw [hmore]
      rfl

theorem writeMembers_eq_cons {ms : List (String × Json)} (hne : ms ≠ []) :
    ∃ cs, (",".intercalate (writeMembers ms)).toList = '"' :: cs := by
  cases ms with
  | nil => exact absurd rfl hne
  | cons m ms =>
    cases ms with
    | nil => exact ⟨_, by simp [writeMembers, quote]; rfl⟩
    | cons m' ms => exact ⟨_, by simp [writeMembers, quote]; rfl⟩

theorem objectRest_write {ms : List (String × Json)}
    (hms : ∀ m ∈ ms, ReadsAs (sub m.1) m.2 (read m)) (rest : List Char) :
    objectRest sub ((",".intercalate (writeMembers ms)).toList ++ '\x7d' :: rest) =
      some (ms.map fun m => (m.1, read m), rest) := by
  by_cases hne : ms = []
  · subst hne
    rfl
  · have hread := members_write hne hms rest
    obtain ⟨cs, hcs⟩ := writeMembers_eq_cons hne
    rw [hcs] at hread ⊢
    exact hread

theorem write_object_toList (ms : List (String × Json)) :
    (object ms).write.toList =
      '\x7b' :: ((",".intercalate (writeMembers ms)).toList ++ ['\x7d']) := by
  simp [write]

/-- An object that was written is read with the readers for its members. -/
theorem document_objectOf_write {ms : List (String × Json)}
    (hms : ∀ m ∈ ms, ReadsAs (sub m.1) m.2 (read m)) :
    document (objectOf sub) (object ms).write = some (ms.map fun m => (m.1, read m)) := by
  have hrun : (objectOf sub).run (trimmed (object ms).write.toList) =
      some (ms.map fun m => (m.1, read m), []) := by
    rw [write_object_toList]
    exact objectRest_write hms []
  rw [document, hrun]
  rfl

end

theorem document_write (room : Nat) {ms : List (String × Json)} (hms : ∀ m ∈ ms, m.2.IsScalar) :
    document (value (room + 1)) (object ms).write =
      some (object (ms.map fun m => (m.1, m.2.readBack))) := by
  have hrest : objectRest (fun _ => value room)
      ((",".intercalate (writeMembers ms)).toList ++ ['\x7d']) =
      some (ms.map fun m => (m.1, m.2.readBack), []) :=
    objectRest_write (fun m hm => readsAs_value (hms m hm) room) []
  have hrun : (value (room + 1)).run (trimmed (object ms).write.toList) =
      some (object (ms.map fun m => (m.1, m.2.readBack)), []) := by
    rw [write_object_toList]
    change (objectRest (fun _ => value room)
      ((",".intercalate (writeMembers ms)).toList ++ ['\x7d'])).map _ = _
    rw [hrest]
    rfl
  rw [document, hrun]
  rfl

end BlendPlot.Json
