import BlendPlot.Curve.Listing
import BlendPlot.Proofs.Injectivity
import BlendPlot.Proofs.Names

namespace BlendPlot

theorem eq_of_run_append {p : Char → Bool} {run other rest more : List Char}
    (hrun : ∀ c ∈ run, p c) (hother : ∀ c ∈ other, p c)
    (hrest : ∀ c ∈ rest.head?, p c = false) (hmore : ∀ c ∈ more.head?, p c = false)
    (h : run ++ rest = other ++ more) : run = other ∧ rest = more := by
  have htake := congrArg (List.takeWhile p) h
  have hdrop := congrArg (List.dropWhile p) h
  rw [takeWhile_run hrun hrest, takeWhile_run hother hmore] at htake
  rw [dropWhile_run hrun hrest, dropWhile_run hother hmore] at hdrop
  exact ⟨htake, hdrop⟩

theorem eq_of_append_cons {stop : Char} {run other rest more : List Char} (hrun : stop ∉ run)
    (hother : stop ∉ other) (h : run ++ stop :: rest = other ++ stop :: more) :
    run = other ∧ rest = more := by
  have ends (tail : List Char) : ∀ c ∈ (stop :: tail).head?, (c != stop) = false := by
    intro c hc
    obtain rfl := Option.some.inj hc
    exact bne_self_eq_false stop
  have differs {cs : List Char} (hcs : stop ∉ cs) : ∀ c ∈ cs, c != stop := by
    intro c hc
    exact bne_iff_ne.mpr (ne_of_mem_of_not_mem hc hcs)
  obtain ⟨hsame, htails⟩ :=
    eq_of_run_append (differs hrun) (differs hother) (ends rest) (ends more) h
  exact ⟨hsame, (List.cons.inj htails).2⟩

theorem IsIdentifier.not_mem {name : String} {c : Char} (h : IsIdentifier name)
    (hc : isIdentifierChar c = false) : c ∉ name.toList := by
  intro hmem
  rw [h.2 c hmem] at hc
  cases hc

/-- The text of an element can be split off the front, if what follows begins as it may. -/
structure Separable {α : Type} (valid : α → Prop) (follows : List Char → Prop)
    (text : α → List Char) : Prop where
  begins : ∀ a rest, follows (text a ++ rest)
  split : ∀ {a b rest more}, valid a → valid b → follows rest → follows more →
    text a ++ rest = text b ++ more → a = b ∧ rest = more

namespace Separable

variable {α : Type} {valid : α → Prop} {follows : List Char → Prop} {text : α → List Char}

theorem follows_flatMap (h : Separable valid follows text) (as : List α) {rest : List Char}
    (hrest : follows rest) : follows (as.flatMap text ++ rest) := by
  cases as with
  | nil => exact hrest
  | cons a as =>
    rw [List.flatMap_cons, List.append_assoc]
    exact h.begins a _

/-- A list is found again in its text if what follows it is not taken for another element. -/
theorem eq_of_flatMap (h : Separable valid follows text) {as bs : List α} {rest more : List Char}
    (has : ∀ a ∈ as, valid a) (hbs : ∀ b ∈ bs, valid b) (hrest : follows rest)
    (hmore : follows more) (stopRest : ∀ a tail, valid a → text a ++ tail ≠ rest)
    (stopMore : ∀ a tail, valid a → text a ++ tail ≠ more)
    (heq : as.flatMap text ++ rest = bs.flatMap text ++ more) : as = bs ∧ rest = more := by
  induction as generalizing bs with
  | nil =>
    cases bs with
    | nil => exact ⟨rfl, heq⟩
    | cons b bs =>
      rw [List.flatMap_cons, List.append_assoc] at heq
      exact absurd heq.symm (stopRest b _ (hbs b List.mem_cons_self))
  | cons a as ih =>
    obtain ⟨ha, has⟩ := List.forall_mem_cons.mp has
    cases bs with
    | nil =>
      rw [List.flatMap_cons, List.append_assoc] at heq
      exact absurd heq (stopMore a _ ha)
    | cons b bs =>
      obtain ⟨hb, hbs⟩ := List.forall_mem_cons.mp hbs
      rw [List.flatMap_cons, List.flatMap_cons, List.append_assoc, List.append_assoc] at heq
      obtain ⟨hsame, htails⟩ :=
        h.split ha hb (h.follows_flatMap as hrest) (h.follows_flatMap bs hmore) heq
      obtain ⟨hlists, hends⟩ := ih has hbs htails
      exact ⟨by rw [hsame, hlists], hends⟩

end Separable

namespace Curve

def parametersText (ps : List Parameter) : List Char :=
  ps.flatMap fun p => (parameterText p).toList

theorem parameterText_append (p : Parameter) (rest : List Char) :
    (parameterText p).toList ++ rest =
      ',' :: ' ' :: (p.name.toList ++ ' ' :: '=' :: ' ' ::
        ((Decimal.Layout.plain.text p.value).toList ++ rest)) := by
  simp [parameterText]

theorem separable_parameterText :
    Separable (fun p : Parameter => IsIdentifier p.name)
      (fun rest => ∀ c ∈ rest.head?, isNumberChar c = false)
      (fun p => (parameterText p).toList) where
  begins p rest := by
    intro c hc
    rw [parameterText_append] at hc
    obtain rfl := Option.some.inj hc
    decide
  split {p q rest more} hp hq hrest hmore h := by
    rw [parameterText_append, parameterText_append] at h
    simp only [List.cons.injEq, true_and] at h
    obtain ⟨hname, h⟩ := eq_of_append_cons (hp.not_mem (by decide)) (hq.not_mem (by decide)) h
    simp only [List.cons.injEq, true_and] at h
    obtain ⟨hvalue, hends⟩ := eq_of_run_append (isNumberChar_of_mem_text p.value)
      (isNumberChar_of_mem_text q.value) hrest hmore h
    refine ⟨?_, hends⟩
    cases p
    cases q
    rw [Parameter.mk.injEq]
    exact ⟨String.toList_inj.mp hname,
      Decimal.text_injective .plain (String.toList_inj.mp hvalue)⟩

theorem parametersText_inj {ps qs : List Parameter} {rest more : List Char}
    (hps : ∀ p ∈ ps, IsIdentifier p.name) (hqs : ∀ q ∈ qs, IsIdentifier q.name)
    (h : parametersText ps ++ ')' :: rest = parametersText qs ++ ')' :: more) :
    ps = qs ∧ rest = more := by
  have follows (tail : List Char) : ∀ c ∈ (')' :: tail).head?, isNumberChar c = false := by
    intro c hc
    obtain rfl := Option.some.inj hc
    decide
  have stops (tail : List Char) (p : Parameter) (other : List Char) (_ : IsIdentifier p.name) :
      (parameterText p).toList ++ other ≠ ')' :: tail := by
    rw [parameterText_append]
    intro h
    exact absurd (List.cons.inj h).1 (by decide)
  obtain ⟨hsame, hends⟩ := separable_parameterText.eq_of_flatMap hps hqs (follows rest)
    (follows more) (stops rest) (stops more) h
  exact ⟨hsame, (List.cons.inj hends).2⟩

def definitions (c : Curve) : List (String × String) :=
  (c.first.map fun part => ("f1", part.expr.text)).toList ++
    (c.second.map fun part => ("f2", part.expr.text)).toList ++ [("alpha", weightText c.weight)]

def definitionsText (ds : List (String × String)) : List Char :=
  ds.flatMap fun d => (definition d.1 d.2).toList

def returnText (rest : List Char) : List Char :=
  ' ' :: ' ' :: ("return".toList ++ ' ' :: rest)

/-- A definition that can be told from what follows it, and from the result. -/
structure IsLine (d : String × String) : Prop where
  ne_return : d.1 ≠ "return"
  space_not_mem : ' ' ∉ d.1.toList
  newline_not_mem : '\n' ∉ d.2.toList

theorem definition_append (d : String × String) (rest : List Char) :
    (definition d.1 d.2).toList ++ rest =
      ' ' :: ' ' :: (d.1.toList ++ ' ' :: '=' :: ' ' :: (d.2.toList ++ '\n' :: rest)) := by
  simp [definition]

theorem separable_definition :
    Separable IsLine (fun _ => True) (fun d => (definition d.1 d.2).toList) where
  begins _ _ := trivial
  split {d e rest more} hd he _ _ h := by
    rw [definition_append, definition_append] at h
    simp only [List.cons.injEq, true_and] at h
    obtain ⟨hname, h⟩ := eq_of_append_cons hd.space_not_mem he.space_not_mem h
    simp only [List.cons.injEq, true_and] at h
    obtain ⟨hvalue, hends⟩ := eq_of_append_cons hd.newline_not_mem he.newline_not_mem h
    exact ⟨Prod.ext (String.toList_inj.mp hname) (String.toList_inj.mp hvalue), hends⟩

theorem IsLine.ne_returnText {d : String × String} (h : IsLine d) (rest tail : List Char) :
    (definition d.1 d.2).toList ++ tail ≠ returnText rest := by
  intro heq
  rw [definition_append, returnText] at heq
  simp only [List.cons.injEq, true_and] at heq
  obtain ⟨hname, -⟩ := eq_of_append_cons h.space_not_mem (by decide) heq
  exact h.ne_return (String.toList_inj.mp hname)

theorem definitionsText_inj {ds es : List (String × String)} {rest more : List Char}
    (hds : ∀ d ∈ ds, IsLine d) (hes : ∀ e ∈ es, IsLine e)
    (h : definitionsText ds ++ returnText rest = definitionsText es ++ returnText more) :
    ds = es := by
  have hboth := separable_definition.eq_of_flatMap hds hes trivial trivial
    (fun _ tail hd => hd.ne_returnText rest tail) (fun _ tail he => he.ne_returnText more tail) h
  exact hboth.1

theorem listing_toList (c : Curve) :
    ∃ rest, c.listing.toList =
      '(' :: 'x' :: (parametersText c.parameters ++ ')' :: (" => \x7b\n".toList ++
        (definitionsText c.definitions ++ returnText rest))) := by
  refine ⟨c.resultText.toList ++ "\n\x7d".toList, ?_⟩
  obtain ⟨first, second, weight, parameters⟩ := c
  cases first <;> cases second <;>
    simp [listing, String.toList_join, parametersText, definitions, definitionsText, returnText,
      sideDefinition, List.flatMap_map]

end Curve

/-- A part whose expression can be told from its text and has its formula as its meaning. -/
structure Part.Legible (scope : Scope) (part : Part) : Prop where
  wellFormed : part.expr.WellFormed
  height_le : part.expr.height ≤ maxDepth
  bind_eq : part.expr.bind scope = .ok part.formula

theorem Part.Legible.eq_of_text_eq {scope : Scope} {a b : Part} (ha : a.Legible scope)
    (hb : b.Legible scope) (h : a.expr.text = b.expr.text) : a = b := by
  have hexpr := ha.wellFormed.text_injective hb.wellFormed ha.height_le hb.height_le h
  have hformula := ha.bind_eq
  rw [hexpr, hb.bind_eq] at hformula
  cases a
  cases b
  rw [Part.mk.injEq]
  exact ⟨hexpr, (Except.ok.inj hformula).symm⟩

theorem Part.Legible.option_eq {scope : Scope} {a b : Option Part}
    (ha : ∀ part ∈ a, part.Legible scope) (hb : ∀ part ∈ b, part.Legible scope)
    (h : a.map (·.expr.text) = b.map (·.expr.text)) : a = b := by
  cases a with
  | none => exact (Option.map_eq_none_iff.mp h.symm).symm
  | some part =>
    obtain ⟨other, rfl, htext⟩ := Option.map_eq_some_iff.mp h.symm
    exact congrArg some ((ha part rfl).eq_of_text_eq (hb other rfl) htext.symm)

namespace Curve

theorem opening_mem_weightText (part : Part) : '(' ∈ (weightText (.varying part)).toList := by
  simp [weightText]

theorem weightText_fixed_ne_varying (value : Float) (part : Part) :
    weightText (.fixed value) ≠ weightText (.varying part) := by
  intro h
  have hmem := opening_mem_weightText part
  rw [← h] at hmem
  exact absurd (isNumberChar_of_mem_text value '(' hmem) (by decide)

theorem weightText_inj {scope : Scope} {v w : Weight}
    (hv : ∀ part, v = .varying part → part.Legible scope)
    (hw : ∀ part, w = .varying part → part.Legible scope) (h : weightText v = weightText w) :
    v = w := by
  cases v with
  | fixed value =>
    cases w with
    | fixed other => exact congrArg Weight.fixed (Decimal.text_injective .plain h)
    | varying part => exact absurd h (weightText_fixed_ne_varying value part)
  | varying part =>
    cases w with
    | fixed value => exact absurd h.symm (weightText_fixed_ne_varying value part)
    | varying other =>
      have htext : part.expr.text = other.expr.text := by
        apply String.toList_inj.mp
        have hchars := congrArg String.toList h
        simp only [weightText, String.toList_append] at hchars
        exact List.append_cancel_left (List.append_cancel_right hchars)
      exact congrArg Weight.varying ((hv part rfl).eq_of_text_eq (hw other rfl) htext)

theorem newline_not_mem_weightText {constant : Float → Prop} {w : Weight}
    (h : ∀ part, w = .varying part → part.expr.Every constant IsIdentifier) :
    '\n' ∉ (weightText w).toList := by
  cases w with
  | fixed value =>
    intro hc
    exact absurd (isNumberChar_of_mem_text value _ hc) (by decide)
  | varying part =>
    have hpart := Expr.newline_not_mem_text (h part rfl)
    simpa [weightText] using hpart

def names (c : Curve) : List String :=
  c.parameters.map (·.name)

/-- A curve that can be told from its listing. -/
structure Legible (c : Curve) : Prop where
  names : ∀ p ∈ c.parameters, IsIdentifier p.name
  first : ∀ part ∈ c.first, part.Legible ⟨c.names, true⟩
  second : ∀ part ∈ c.second, part.Legible ⟨c.names, true⟩
  weight : ∀ part, c.weight = .varying part → part.Legible ⟨c.names, false⟩

theorem Legible.isLine {c : Curve} (h : c.Legible) : ∀ d ∈ c.definitions, IsLine d := by
  have side {name : String} {side : Option Part} (hname : name ≠ "return" ∧ ' ' ∉ name.toList)
      (hside : ∀ part ∈ side, part.Legible ⟨c.names, true⟩) :
      ∀ d ∈ (side.map fun part => (name, part.expr.text)).toList, IsLine d := by
    intro d hd
    obtain ⟨part, hpart, rfl⟩ := Option.map_eq_some_iff.mp (Option.mem_toList.mp hd)
    exact ⟨hname.1, hname.2, Expr.newline_not_mem_text (hside part hpart).wellFormed⟩
  have hweight : "alpha" ≠ "return" ∧ ' ' ∉ "alpha".toList := by decide
  intro d hd
  rw [definitions, List.mem_append, List.mem_append, List.mem_singleton] at hd
  rcases hd with (hd | hd) | rfl
  · exact side (by decide) h.first d hd
  · exact side (by decide) h.second d hd
  · exact ⟨hweight.1, hweight.2,
      newline_not_mem_weightText fun part hpart => (h.weight part hpart).wellFormed⟩

theorem lookup_definitions (c : Curve) :
    c.definitions.lookup "f1" = c.first.map (·.expr.text) ∧
      c.definitions.lookup "f2" = c.second.map (·.expr.text) ∧
      c.definitions.lookup "alpha" = some (weightText c.weight) := by
  obtain ⟨first, second, weight, parameters⟩ := c
  cases first <;> cases second <;> exact ⟨rfl, rfl, rfl⟩

theorem Legible.eq_of_listing_eq {c d : Curve} (hc : c.Legible) (hd : d.Legible)
    (h : c.listing = d.listing) : c = d := by
  obtain ⟨rest, hcText⟩ := c.listing_toList
  obtain ⟨more, hdText⟩ := d.listing_toList
  have htext := congrArg String.toList h
  rw [hcText, hdText] at htext
  simp only [List.cons.injEq, true_and] at htext
  obtain ⟨hparameters, hbody⟩ := parametersText_inj hc.names hd.names htext
  have hnames : c.names = d.names := congrArg (List.map Parameter.name) hparameters
  have hdefinitions : c.definitions = d.definitions :=
    definitionsText_inj hc.isLine hd.isLine (List.append_cancel_left hbody)
  obtain ⟨hfirstC, hsecondC, hweightC⟩ := c.lookup_definitions
  obtain ⟨hfirstD, hsecondD, hweightD⟩ := d.lookup_definitions
  rw [← hdefinitions, hfirstC] at hfirstD
  rw [← hdefinitions, hsecondC] at hsecondD
  rw [← hdefinitions, hweightC] at hweightD
  have hfirst := Part.Legible.option_eq hc.first (hnames ▸ hd.first) hfirstD
  have hsecond := Part.Legible.option_eq hc.second (hnames ▸ hd.second) hsecondD
  have hweight := weightText_inj hc.weight (hnames ▸ hd.weight) (Option.some.inj hweightD)
  cases c
  cases d
  rw [Curve.mk.injEq]
  exact ⟨hfirst, hsecond, hweight, hparameters⟩

end Curve

theorem Weight.eq_some_of_ofBlend {values : List Float} {blend : Option Part} {part : Part}
    (h : ofBlend values blend = varying part) : blend = some part := by
  cases blend with
  | none => cases h
  | some other =>
    rw [ofBlend] at h
    split at h
    · cases h
    · exact congrArg some (Weight.varying.inj h)

theorem isIdentifier_of_mem_parameterNames {texts : List String} {name : String}
    (h : name ∈ parameterNames texts) : IsIdentifier name := by
  obtain ⟨-, text, -, hrun⟩ := mem_parameterNames.mp h
  rw [identifierRuns, ← names_wordsOf] at hrun
  obtain ⟨word, hword, hname⟩ := List.mem_filterMap.mp hrun
  cases word with
  | name letters =>
    obtain rfl := Option.some.inj hname
    exact isIdentifier_of_mem_wordsOf hword
  | number | sign | opening | closing | comma | unknown => cases hname

namespace Sources

/-- No numeral in the texts is too large for a double; one that is reads like a name. -/
def FiniteLiterals (s : Sources) : Prop :=
  ∀ text ∈ s.texts, ∀ word ∈ lexemes text, ∀ value ∈ word.value?, value.isFinite

example : (Expr.number (1 / 0)).text = (Expr.name "inf").text := by decide +kernel

variable {s : Sources} {env : Environment} {c : Curve}

theorem parameters_of_compile {names : List String} (h : s.compile names env = .ok c) :
    c.parameters = Environment.parameters env names := by
  obtain ⟨first, -, h⟩ := bind_eq_ok.mp h
  obtain ⟨second, -, h⟩ := bind_eq_ok.mp h
  obtain ⟨blend, -, h⟩ := bind_eq_ok.mp h
  cases h
  rfl

theorem names_of_compile {names : List String} (h : s.compile names env = .ok c) :
    c.names = names := by
  rw [Curve.names, parameters_of_compile h, Environment.parameters, List.map_map]
  exact List.map_id names

theorem FiniteLiterals.legible_of_check (hs : s.FiniteLiterals) (slot : Slot) {names : List String}
    {side : Option Part} (h : slot.check names (s.get slot) = .ok side) :
    ∀ part ∈ side, part.Legible ⟨names, slot != .blend⟩ := by
  intro part hpart
  rw [Option.mem_def.mp hpart] at h
  obtain ⟨-, hparse, hbind⟩ := Slot.parse_of_check h
  obtain ⟨n, hderives, -, hheight⟩ := derives_of_parse hparse
  have hfinite : part.expr.FiniteConstants := by
    refine hderives.every fun word hword => ?_
    cases word with
    | number whole fraction => exact hs _ (s.get_mem_texts slot) _ hword _ rfl
    | name | sign | opening | closing | comma | unknown => trivial
  exact ⟨wellFormed_of_parse hparse hfinite, hheight, hbind⟩

theorem FiniteLiterals.legible_of_compile (hs : s.FiniteLiterals)
    (h : s.compile (parameterNames s.texts) env = .ok c) : c.Legible := by
  have hnames := names_of_compile h
  obtain ⟨blend, hfirst, hsecond, hblend, hweight, -⟩ := compile_eq_ok h
  refine ⟨?_, ?_, ?_, ?_⟩
  · intro p hp
    have hname : p.name ∈ c.names := List.mem_map_of_mem hp
    rw [hnames] at hname
    exact isIdentifier_of_mem_parameterNames hname
  · rw [hnames]
    exact hs.legible_of_check .first hfirst
  · rw [hnames]
    exact hs.legible_of_check .second hsecond
  · intro part hpart
    rw [hweight] at hpart
    rw [hnames]
    exact hs.legible_of_check .blend hblend part (Weight.eq_some_of_ofBlend hpart)

/-- Curves with the same listing are the same: parameters, weight and value everywhere. -/
theorem curve_eq_of_listing_eq {s t : Sources} {env env' : Environment} {c d : Curve}
    (hs : s.FiniteLiterals) (ht : t.FiniteLiterals)
    (hc : s.compile (parameterNames s.texts) env = .ok c)
    (hd : t.compile (parameterNames t.texts) env' = .ok d) (h : c.listing = d.listing) :
    c.parameters = d.parameters ∧ ∀ x, c.weightAt x = d.weightAt x ∧ c.eval x = d.eval x := by
  have hsame : c = d :=
    (hs.legible_of_compile hc).eq_of_listing_eq (ht.legible_of_compile hd) h
  subst hsame
  exact ⟨rfl, fun x => ⟨rfl, rfl⟩⟩

theorem curve_eq_of_listing_eq_of_other_spelling :
    let s : Sources := ⟨"a*x", "", "0.50"⟩
    let t : Sources := ⟨"(a * x)", " ", ".5 + 0"⟩
    let env : Environment := Table.ofList [("a", 0 / 0)]
    let env' : Environment := Table.ofList [("a", 0 / 0), ("b", 1)]
    s.FiniteLiterals ∧ t.FiniteLiterals ∧
      ∃ c d, s.compile (parameterNames s.texts) env = .ok c ∧
        t.compile (parameterNames t.texts) env' = .ok d ∧ c.listing = d.listing ∧
        c.parameters = d.parameters ∧
        ∀ x, c.weightAt x = d.weightAt x ∧ c.eval x = d.eval x := by
  intro s t env env'
  have hs : s.FiniteLiterals := by
    unfold FiniteLiterals
    decide +kernel
  have ht : t.FiniteLiterals := by
    unfold FiniteLiterals
    decide +kernel
  obtain ⟨c, hc⟩ := s.compile_of_errors_eq_nil (parameterNames s.texts) env (by decide +kernel)
  obtain ⟨d, hd⟩ := t.compile_of_errors_eq_nil (parameterNames t.texts) env' (by decide +kernel)
  have hlistings : (s.compile (parameterNames s.texts) env).toOption.map Curve.listing =
      (t.compile (parameterNames t.texts) env').toOption.map Curve.listing := by
    decide +kernel
  rw [hc, hd] at hlistings
  have h : c.listing = d.listing := Option.some.inj hlistings
  exact ⟨hs, ht, c, d, hc, hd, h, curve_eq_of_listing_eq hs ht hc hd h⟩

end Sources

end BlendPlot
