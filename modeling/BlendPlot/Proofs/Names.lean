import BlendPlot.Parameter
import BlendPlot.Proofs.Binding
import BlendPlot.Proofs.Compilation
import BlendPlot.Proofs.Parsing
import BlendPlot.Proofs.Words

namespace BlendPlot

def Lexeme.name? : Lexeme → Option String
  | name letters => some letters
  | _ => none

def NoIdentifier (cs : List Char) : Prop :=
  ∀ c ∈ cs, isIdentifierChar c = false

theorem not_isIdentifierChar_of_isDigit {c : Char} (h : c.isDigit) : isIdentifierChar c = false :=
  Bool.eq_false_iff.mpr fun hc => not_isDigit_of_isIdentifierChar hc h

theorem not_isIdentifierChar_of_isBlankChar {c : Char} (h : isBlankChar c) : ¬isIdentifierChar c :=
  fun hc => not_isBlankChar_of_isIdentifierChar hc h

theorem noIdentifier_digits (cs : List Char) : NoIdentifier (cs.takeWhile Char.isDigit) :=
  fun c hc => not_isIdentifierChar_of_isDigit (List.all_eq_true.mp List.all_takeWhile c hc)

theorem noIdentifier_numeral {whole : List Char} {fraction : Option (List Char)}
    (hw : NoIdentifier whole) (hf : NoIdentifier (fraction.getD [])) :
    NoIdentifier (Lexeme.number whole fraction).spelling.toList := by
  cases fraction with
  | none => simpa [Lexeme.spelling] using hw
  | some ds =>
    intro c hc
    simp only [Lexeme.spelling, String.toList_ofList, List.mem_append, List.mem_cons] at hc
    rcases hc with hc | rfl | hc
    · exact hw c hc
    · decide
    · exact hf c hc

theorem Lexeme.Reads.other {c : Char} {cs rest : List Char} {word : Lexeme}
    (hr : Lexeme.Reads c cs word rest) (h : isIdentifierChar c = false) :
    word.name? = none ∧ NoIdentifier word.spelling.toList := by
  have hcons : NoIdentifier (c :: cs.takeWhile Char.isDigit) :=
    List.forall_mem_cons.mpr ⟨h, noIdentifier_digits cs⟩
  have hsingle : NoIdentifier [c] := List.forall_mem_singleton.mpr h
  cases hr with
  | integer => exact ⟨rfl, noIdentifier_numeral hcons nofun⟩
  | @decimal rest => exact ⟨rfl, noIdentifier_numeral hcons (noIdentifier_digits rest)⟩
  | fraction => exact ⟨rfl, noIdentifier_numeral nofun (noIdentifier_digits cs)⟩
  | name hc => simp [h] at hc
  | sign hc | opening hc | closing hc | comma hc =>
    subst hc
    exact ⟨rfl, by simpa [spelling] using hsingle⟩
  | unknown => exact ⟨rfl, by simpa [spelling] using hsingle⟩

theorem identifierRunsOf_append {front : List Char} (h : NoIdentifier front) (rest : List Char) :
    identifierRunsOf (front ++ rest) = identifierRunsOf rest := by
  induction front with
  | nil => rfl
  | cons c cs ih =>
    obtain ⟨hc, hcs⟩ := List.forall_mem_cons.mp h
    rw [List.cons_append, identifierRunsOf, if_neg (by simp [hc]), ih hcs]

/-- The names among the words of a text are its identifier runs. -/
theorem names_wordsOf (cs : List Char) :
    (wordsOf cs).filterMap Lexeme.name? = identifierRunsOf cs := by
  induction cs using words_induction with
  | nil => simp [identifierRunsOf]
  | blank c cs hb ih =>
    rw [wordsOf_blank hb, identifierRunsOf, if_neg (not_isIdentifierChar_of_isBlankChar hb), ih]
  | word c cs hb ih =>
    rw [wordsOf_cons hb]
    by_cases hc : isIdentifierChar c
    · rw [read_identifier hc] at ih ⊢
      rw [identifierRunsOf, if_pos hc, ← ih]
      rfl
    · obtain ⟨hname, hspelling⟩ := (Lexeme.reads_read c cs).other (Bool.eq_false_iff.mpr hc)
      calc (_ :: wordsOf (Lexeme.read c cs).2).filterMap Lexeme.name?
          = identifierRunsOf (Lexeme.read c cs).2 := by rw [List.filterMap_cons_none hname, ih]
        _ = identifierRunsOf ((Lexeme.read c cs).1.spelling.toList ++ (Lexeme.read c cs).2) :=
            (identifierRunsOf_append hspelling _).symm
        _ = identifierRunsOf (c :: cs) := by rw [Lexeme.spelling_read]

theorem mem_parameterNames {texts : List String} {name : String} :
    name ∈ parameterNames texts ↔
      isReserved name = false ∧ ∃ text ∈ texts, name ∈ identifierRuns text := by
  rw [parameterNames, Table.mem_names_ofList, List.map_map]
  simp [Function.comp_def, and_comm]

/-- Every name in an expression is an identifier run of its text. -/
theorem names_of_parse {text : String} {tree : Expr} (h : Expr.parse text = .ok tree) :
    tree.Every (fun _ => True) (· ∈ identifierRuns text) := by
  obtain ⟨n, hderives, -⟩ := derives_of_parse h
  refine hderives.every fun word hword => ?_
  cases word with
  | name letters =>
    show letters ∈ identifierRunsOf text.toList
    rw [← names_wordsOf]
    exact List.mem_filterMap.mpr ⟨.name letters, hword, rfl⟩
  | number | sign | opening | closing | comma | unknown => trivial

theorem errorOf_check (slot : Slot) (names : List String) (text : String) :
    errorOf (slot.check names text) =
      if isBlank text then none
      else
        match Expr.parse text with
        | .error e => some ⟨slot, .parse e⟩
        | .ok tree => (tree.errors ⟨names, slot != .blend⟩).head?.map fun e => ⟨slot, .bind e⟩ := by
  unfold Slot.check
  split
  next => rfl
  next =>
    cases Expr.parse text with
    | error e => rfl
    | ok tree =>
      dsimp only
      rw [← Expr.errorOf_bind]
      cases tree.bind ⟨names, slot != .blend⟩ <;> rfl

theorem unknownName_of_check {slot : Slot} {names : List String} {text name : String}
    {e : SlotError} (h : slot.check names text = .error e)
    (he : e.cause = .bind (.unknownName name)) : name ∈ parameterNames [text] ∧ name ∉ names := by
  have herror := errorOf_eq_some_iff.mpr h
  rw [errorOf_check] at herror
  split at herror
  next => cases herror
  next =>
    cases hp : Expr.parse text with
    | error cause =>
      rw [hp] at herror
      cases herror
      cases he
    | ok tree =>
      rw [hp] at herror
      obtain ⟨cause, hfirst, rfl⟩ := Option.map_eq_some_iff.mp herror
      cases he
      obtain ⟨hrun, hfree, hout⟩ :=
        Expr.unknownName_of_mem_errors (names_of_parse hp) (List.mem_of_head? hfirst)
      exact ⟨mem_parameterNames.mpr ⟨hfree, text, List.mem_singleton_self text, hrun⟩, hout⟩

theorem parameterNames_subset {text : String} {texts : List String} (h : text ∈ texts) :
    parameterNames [text] ⊆ parameterNames texts := by
  intro name hname
  obtain ⟨hfree, other, hother, hrun⟩ := mem_parameterNames.mp hname
  obtain rfl := List.mem_singleton.mp hother
  exact mem_parameterNames.mpr ⟨hfree, other, h, hrun⟩

/-- Over the names found in them, no texts have an unknown name. -/
theorem cause_ne_unknownName :
    (∀ (s : Sources) (env : Environment) (e : SlotError) (name : String),
      s.compile (parameterNames s.texts) env = .error e ∨ e ∈ s.errors (parameterNames s.texts) →
        e.cause ≠ .bind (.unknownName name)) ∧
    ∀ (slot : Slot) (text : String) (names : List String), parameterNames [text] ⊆ names →
      ∀ (e : SlotError) (name : String), slot.check names text = .error e →
        e.cause ≠ .bind (.unknownName name) := by
  have known (slot : Slot) (text : String) (names : List String)
      (hsub : parameterNames [text] ⊆ names) (e : SlotError) (name : String)
      (h : slot.check names text = .error e) : e.cause ≠ .bind (.unknownName name) := by
    intro hcause
    obtain ⟨hmem, hout⟩ := unknownName_of_check h hcause
    exact hout (hsub hmem)
  refine ⟨fun s env e name h => ?_, known⟩
  have hmem : e ∈ s.errors (parameterNames s.texts) := h.elim Sources.mem_errors_of_compile id
  obtain ⟨slot, hcheck⟩ := Sources.exists_check_of_mem_errors hmem
  exact known slot _ _ (parameterNames_subset (s.get_mem_texts slot)) e name hcheck

theorem cause_ne_unknownName_of_reserved :
    let s : Sources := ⟨"k * sin", "2k", "b / alpha"⟩
    let uncalled : SlotError := ⟨.first, .bind (.uncalledFunction "sin")⟩
    let unavailable : SlotError := ⟨.blend, .bind (.unavailable "alpha")⟩
    uncalled ∈ s.errors (parameterNames s.texts) ∧ parameterNames [s.blend] ⊆ ["c", "b"] ∧
      Slot.blend.check ["c", "b"] s.blend = .error unavailable ∧
      ∀ name, uncalled.cause ≠ .bind (.unknownName name) ∧
        unavailable.cause ≠ .bind (.unknownName name) := by
  intro s uncalled unavailable
  have hmem : uncalled ∈ s.errors (parameterNames s.texts) := by decide +kernel
  have hsub : parameterNames [s.blend] ⊆ ["c", "b"] := by decide +kernel
  have hcheck : Slot.blend.check ["c", "b"] s.blend = .error unavailable :=
    errorOf_eq_some_iff.mp (by decide +kernel)
  refine ⟨hmem, hsub, hcheck, fun name => ⟨?_, ?_⟩⟩
  · exact cause_ne_unknownName.1 s Table.empty uncalled name (Or.inr hmem)
  · exact cause_ne_unknownName.2 .blend s.blend ["c", "b"] hsub unavailable name hcheck

end BlendPlot
