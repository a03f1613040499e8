import BlendPlot.Proofs.Listing
import BlendPlot.Proofs.Meaning
import BlendPlot.Proofs.Nodes

namespace BlendPlot

def Formula.IsReference : Formula → Prop
  | argument | weight | parameter _ => True
  | constant _ | negate _ | binary .. | call .. => False

/-- A reserved name is never a parameter, though it may be in the list. -/
def Expr.IsReference (parameters : List String) : Expr → Prop
  | name id => id = "x" ∨ isReserved id = false ∧ id ∈ parameters
  | number _ | negate _ | binary .. | call .. => False

namespace Formula

theorem isConstant_iff {f : Formula} : f.isConstant ↔ ∀ node ∈ f.nodes, ¬ node.IsReference := by
  induction f with
  | constant | argument | weight | parameter => simp [isConstant, nodes, IsReference]
  | negate operand ih => simp [isConstant, nodes, IsReference, ih]
  | binary op left right ihl ihr =>
    rw [isConstant, Bool.and_eq_true, ihl, ihr, nodes, List.forall_mem_cons,
      List.forall_mem_append]
    exact (and_iff_right id).symm
  | call f operand ih => simp [isConstant, nodes, IsReference, ih]

theorem eval_eq_of_weight_not_mem {f : Formula} (h : .weight ∉ f.nodes) (x a b : Float)
    (values : List Float) : f.eval ⟨x, a, values⟩ = f.eval ⟨x, b, values⟩ := by
  induction f with
  | constant | argument | parameter => rfl
  | weight => exact absurd (List.mem_singleton_self _) h
  | negate operand ih => rw [eval, eval, ih fun hmem => h (List.mem_cons_of_mem _ hmem)]
  | binary op left right ihl ihr =>
    have hparts := fun hmem => h (List.mem_cons_of_mem _ (List.mem_append.mpr hmem))
    rw [eval, eval, ihl fun hmem => hparts (Or.inl hmem), ihr fun hmem => hparts (Or.inr hmem)]
  | call f operand ih => rw [eval, eval, ih fun hmem => h (List.mem_cons_of_mem _ hmem)]

end Formula

theorem Scope.Means.isReference_iff {s : Scope} {node : Expr} {f : Formula}
    (hw : s.weight = false) (h : s.Means node f) :
    node.IsReference s.parameters ↔ f.IsReference := by
  cases node with
  | name id =>
    cases f with
    | constant c =>
      obtain ⟨rfl, -⟩ := h
      have hpi : isReserved "pi" = true := by decide
      simp [Expr.IsReference, Formula.IsReference, hpi]
    | argument => exact ⟨fun _ => trivial, fun _ => Or.inl h⟩
    | weight => simp [hw, Means] at h
    | parameter i =>
      exact ⟨fun _ => trivial, fun _ => Or.inr ⟨h.1, List.mem_of_getElem? h.2.1⟩⟩
    | negate | binary | call => exact h.elim
  | number | negate | binary | call =>
    refine iff_of_false id fun hf => ?_
    cases f with
    | argument | weight | parameter => exact h.elim
    | constant | negate | binary | call => exact hf

def Expr.IsConstant (parameters : List String) (tree : Expr) : Prop :=
  ∀ node ∈ tree.nodes, ¬ node.IsReference parameters

theorem Expr.isConstant_of_bind {s : Scope} {tree : Expr} {formula : Formula}
    (hw : s.weight = false) (h : tree.bind s = .ok formula) :
    formula.isConstant ↔ tree.IsConstant s.parameters := by
  rw [Formula.isConstant_iff, IsConstant]
  exact (forall_mem_iff_of_forall₂ (means_of_bind h) fun _ _ hmeans =>
    not_congr (hmeans.isReference_iff hw)).symm

def linesOf (text : String) : List String :=
  (text.toList.splitOn '\n').map String.ofList

/-- The last line but two of a listing gives the weight as `weight`. -/
def ShowsWeight (listing weight : String) : Prop :=
  ∃ earlier result,
    linesOf listing = earlier ++ ["  alpha = " ++ weight, "  return " ++ result, "\x7d"]

theorem linesOf_append (text more : String) :
    linesOf (text ++ "\n" ++ more) = linesOf text ++ linesOf more := by
  have hlist : (text ++ "\n" ++ more).toList = text.toList ++ '\n' :: more.toList := by simp
  rw [linesOf, hlist, List.splitOn_append_cons_self, List.map_append]
  rfl

theorem linesOf_line {text : String} (h : '\n' ∉ text.toList) : linesOf text = [text] := by
  rw [linesOf, List.splitOn_eq_singleton h, List.map_singleton, String.ofList_toList]

theorem ShowsWeight.unique {listing v w : String} (hv : ShowsWeight listing v)
    (hw : ShowsWeight listing w) : v = w := by
  obtain ⟨earlier, result, hv⟩ := hv
  obtain ⟨front, other, hw⟩ := hw
  rw [hv] at hw
  have hlast := (List.append_inj' hw rfl).2
  have hline := (List.cons.inj hlast).1
  exact (String.append_right_inj _).mp hline

namespace Curve

theorem exists_append_sideDefinition (text name : String) (side : Option Part) :
    ∃ front, text ++ "\n" ++ sideDefinition name side = front ++ "\n" := by
  cases side with
  | none => exact ⟨text, by simp [sideDefinition]⟩
  | some part =>
    refine ⟨text ++ "\n" ++ ("  " ++ name ++ " = " ++ part.expr.text), ?_⟩
    simp only [sideDefinition, definition, String.append_assoc]

theorem listing_eq_append (c : Curve) :
    ∃ front, c.listing = front ++ "\n" ++ ("  alpha = " ++ weightText c.weight) ++ "\n" ++
      ("  return " ++ c.resultText) ++ "\n" ++ "\x7d" := by
  obtain ⟨front, hfirst⟩ := exists_append_sideDefinition
    ("(x" ++ String.join (c.parameters.map parameterText) ++ ") => \x7b") "f1" c.first
  obtain ⟨front, hsecond⟩ := exists_append_sideDefinition front "f2" c.second
  refine ⟨front, ?_⟩
  rw [← hsecond, ← hfirst]
  have hopening : ") => \x7b\n" = ") => \x7b" ++ "\n" := by decide
  have hname : "  alpha = " = "  " ++ "alpha" ++ " = " := by decide
  have hclosing : "\n\x7d" = "\n" ++ "\x7d" := by decide
  simp only [listing, definition, hopening, hname, hclosing, String.append_assoc]

theorem newline_not_mem_resultText (c : Curve) : '\n' ∉ c.resultText.toList := by
  unfold resultText
  split <;> decide

theorem showsWeight_listing {c : Curve} (h : '\n' ∉ (weightText c.weight).toList) :
    ShowsWeight c.listing (weightText c.weight) := by
  obtain ⟨front, hlisting⟩ := c.listing_eq_append
  have hweight : '\n' ∉ ("  alpha = " ++ weightText c.weight).toList := by simpa using h
  have hresult : '\n' ∉ ("  return " ++ c.resultText).toList := by
    simpa using c.newline_not_mem_resultText
  have hclosing : '\n' ∉ "\x7d".toList := by decide
  refine ⟨linesOf front, c.resultText, ?_⟩
  rw [hlisting, linesOf_append, linesOf_append, linesOf_append, linesOf_line hweight,
    linesOf_line hresult, linesOf_line hclosing]
  simp only [List.append_assoc, List.cons_append, List.nil_append]

end Curve

namespace Weight

variable {values : List Float} {part : Part} {v : Float}

/-- A blend has a fixed weight exactly if it is constant. -/
theorem ofBlend_some_eq_fixed_iff :
    ofBlend values (some part) = fixed v ↔
      part.formula.isConstant ∧ ∀ w, clampWeight (part.formula.eval w) = v := by
  rw [ofBlend]
  by_cases h : part.formula.isConstant
  · rw [if_pos h]
    constructor
    · intro hv
      cases hv
      exact ⟨h, fun w => congrArg clampWeight (Formula.eval_eq_of_isConstant h _ _)⟩
    · exact fun hv => congrArg fixed (hv.2 _)
  · rw [if_neg h]
    exact iff_of_false Weight.noConfusion fun hv => h hv.1

theorem exists_ofBlend_some_eq_fixed_iff :
    (∃ v, ofBlend values (some part) = fixed v) ↔ part.formula.isConstant := by
  constructor
  · rintro ⟨v, hv⟩
    exact (ofBlend_some_eq_fixed_iff.mp hv).1
  · intro h
    exact ⟨_, if_pos h⟩

end Weight

namespace Sources

/-- The blend is blank, or its tree names neither the argument nor one of the parameters. -/
def ConstantBlend (s : Sources) (names : List String) : Prop :=
  isBlank s.blend ∨ ∃ tree, Expr.parse s.blend = .ok tree ∧ tree.IsConstant names

variable {s : Sources} {names : List String} {env : Environment} {curve : Curve}

theorem weight_of_compile (h : s.compile names env = .ok curve) :
    ∃ blend, Slot.blend.check names s.blend = .ok blend ∧
      curve.weight = .ofBlend curve.values blend := by
  obtain ⟨blend, -, -, hblend, hweight, -⟩ := compile_eq_ok h
  exact ⟨blend, hblend, hweight⟩

theorem showsWeight_of_compile (h : s.compile names env = .ok curve) :
    ShowsWeight curve.listing (Curve.weightText curve.weight) := by
  obtain ⟨blend, hblend, hweight⟩ := weight_of_compile h
  apply Curve.showsWeight_listing
  apply Curve.newline_not_mem_weightText
  intro part hpart
  rw [hweight] at hpart
  rw [Weight.eq_some_of_ofBlend hpart] at hblend
  exact every_of_parse (Slot.parse_of_check hblend).2.1

theorem showsNumber_iff (h : s.compile names env = .ok curve) {v : Float} :
    ShowsWeight curve.listing (Decimal.Layout.plain.text v) ↔ curve.weight = .fixed v := by
  have hshows := showsWeight_of_compile h
  constructor
  · intro hv
    have htext : Curve.weightText curve.weight = Curve.weightText (.fixed v) := hshows.unique hv
    cases hweight : curve.weight with
    | fixed value =>
      rw [hweight] at htext
      exact congrArg Weight.fixed (Decimal.text_injective .plain htext)
    | varying part =>
      rw [hweight] at htext
      exact absurd htext.symm (Curve.weightText_fixed_ne_varying v part)
  · intro hweight
    rw [hweight] at hshows
    exact hshows

theorem exists_weight_eq_fixed_iff (h : s.compile names env = .ok curve) :
    (∃ v, curve.weight = .fixed v) ↔ s.ConstantBlend names := by
  obtain ⟨blend, hblend, hweight⟩ := weight_of_compile h
  rw [hweight]
  cases blend with
  | none => exact ⟨fun _ => Or.inl (Slot.isBlank_of_check hblend), fun _ => ⟨0, rfl⟩⟩
  | some part =>
    obtain ⟨htext, hparse, hbind⟩ := Slot.parse_of_check hblend
    rw [Weight.exists_ofBlend_some_eq_fixed_iff, Expr.isConstant_of_bind rfl hbind]
    simp [ConstantBlend, htext, hparse]

theorem weight_eq_fixed_of_compile {env' : Environment} {curve' : Curve}
    (h : s.compile names env = .ok curve) (h' : s.compile names env' = .ok curve') {v : Float}
    (hv : curve.weight = .fixed v) : curve'.weight = .fixed v := by
  obtain ⟨blend, hblend, hweight⟩ := weight_of_compile h
  obtain ⟨other, hother, hweight'⟩ := weight_of_compile h'
  obtain rfl := Except.ok.inj (hblend.symm.trans hother)
  rw [hweight] at hv
  rw [hweight']
  cases blend with
  | none => exact hv
  | some part => exact Weight.ofBlend_some_eq_fixed_iff.mpr (Weight.ofBlend_some_eq_fixed_iff.mp hv)

theorem weight_of_blank_blend (h : s.compile names env = .ok curve) (hblank : isBlank s.blend) :
    curve.weight = .fixed 0 := by
  obtain ⟨blend, hblend, hweight⟩ := weight_of_compile h
  cases blend with
  | none => exact hweight
  | some part => simp [(Slot.parse_of_check hblend).1] at hblank

theorem weight_of_check (h : s.compile names env = .ok curve) {part : Part}
    (hpart : Slot.blend.check names s.blend = .ok (some part)) :
    curve.weight = .ofBlend curve.values (some part) := by
  obtain ⟨blend, hblend, hweight⟩ := weight_of_compile h
  obtain rfl := Except.ok.inj (hblend.symm.trans hpart)
  exact hweight

theorem showsTree_of_compile (h : s.compile names env = .ok curve)
    (hvaries : ¬ s.ConstantBlend names) :
    ∃ tree, Expr.parse s.blend = .ok tree ∧
      ShowsWeight curve.listing ("min(1, max(0, " ++ tree.text ++ "))") := by
  have hshows := showsWeight_of_compile h
  obtain ⟨blend, hblend, hweight⟩ := weight_of_compile h
  cases hw : curve.weight with
  | fixed v => exact absurd ((exists_weight_eq_fixed_iff h).mp ⟨v, hw⟩) hvaries
  | varying part =>
    rw [hw] at hshows
    rw [hw] at hweight
    rw [Weight.eq_some_of_ofBlend hweight.symm] at hblend
    exact ⟨part.expr, (Slot.parse_of_check hblend).2.1, hshows⟩

/-- The listing shows a number exactly if the blend is constant, and that is always the weight. -/
theorem constantBlend_of_compile (h : s.compile names env = .ok curve) :
    (∃! text, ShowsWeight curve.listing text) ∧
      ((∃ v, ShowsWeight curve.listing (Decimal.Layout.plain.text v)) ↔ s.ConstantBlend names) ∧
      (∀ v, ShowsWeight curve.listing (Decimal.Layout.plain.text v) →
        (∀ x, curve.weightAt x = v) ∧
          (∀ env', ∃ other, s.compile names env' = .ok other ∧
            ShowsWeight other.listing (Decimal.Layout.plain.text v) ∧
              ∀ x, other.weightAt x = v) ∧
          (isBlank s.blend → v = 0) ∧
          ∀ part, Slot.blend.check names s.blend = .ok (some part) →
            ∀ w, clampWeight (part.formula.eval w) = v) ∧
      (¬ s.ConstantBlend names → ∃ tree, Expr.parse s.blend = .ok tree ∧
        ShowsWeight curve.listing ("min(1, max(0, " ++ tree.text ++ "))")) ∧
      ∀ part, Slot.blend.check names s.blend = .ok (some part) →
        (∀ x a b values, part.formula.eval ⟨x, a, values⟩ = part.formula.eval ⟨x, b, values⟩) ∧
          ∀ x a, curve.weightAt x = clampWeight (part.formula.eval ⟨x, a, curve.values⟩) := by
  refine ⟨?unique, ?number, fun v hv => ?_, showsTree_of_compile h, fun part hpart => ?placeholder⟩
  case unique =>
    have hshows := showsWeight_of_compile h
    exact ⟨_, hshows, fun _ hother => hother.unique hshows⟩
  case number => simp only [showsNumber_iff h, exists_weight_eq_fixed_iff h]
  case placeholder =>
    have hbind := (Slot.parse_of_check hpart).2.2
    have hweight := Expr.weight_not_mem_of_bind rfl hbind
    have heval := Formula.eval_eq_of_weight_not_mem hweight
    refine ⟨heval, fun x a => ?_⟩
    rw [Curve.weightAt_of_blend (weight_of_check h hpart), heval x absent a]
  have hfixed : curve.weight = .fixed v := (showsNumber_iff h).mp hv
  refine ⟨fun x => ?everywhere, fun env' => ?env, fun hblank => ?blank, fun part hpart => ?unfolded⟩
  case everywhere => rw [Curve.weightAt, hfixed]
  case env =>
    have hnone := errors_eq_nil_of_compile s names env h
    obtain ⟨other, hother⟩ := s.compile_of_errors_eq_nil names env' hnone
    have hsame := weight_eq_fixed_of_compile h hother hfixed
    refine ⟨other, hother, (showsNumber_iff hother).mpr hsame, fun x => ?_⟩
    rw [Curve.weightAt, hsame]
  case blank =>
    rw [weight_of_blank_blend h hblank] at hfixed
    exact (Weight.fixed.inj hfixed).symm
  case unfolded =>
    rw [weight_of_check h hpart] at hfixed
    exact (Weight.ofBlend_some_eq_fixed_iff.mp hfixed).2

theorem constantBlend_of_compile_of_large :
    let s : Sources := ⟨"k * x", "", "3 / 2 + 0 * pi"⟩
    let names := ["k", "pi"]
    let env : Environment := Table.empty.insert "k" 2
    ∃ curve, s.compile names env = .ok curve ∧
      ShowsWeight curve.listing (Decimal.Layout.plain.text 1) ∧ s.ConstantBlend names ∧
      (∀ x, curve.weightAt x = 1) ∧
      ∀ env', ∃ other, s.compile names env' = .ok other ∧ ∀ x, other.weightAt x = 1 := by
  intro s names env
  obtain ⟨curve, hc⟩ := s.compile_of_errors_eq_nil names env (by decide +kernel)
  have hlisting : (s.compile names env).toOption.map (linesOf ·.listing) =
      some ["(x, k = 2, pi = 0) => \x7b", "  f1 = k * x", "  alpha = 1", "  return f1",
        "\x7d"] := by
    decide +kernel
  rw [hc] at hlisting
  have hone : "  alpha = 1" = "  alpha = " ++ Decimal.Layout.plain.text 1 := by decide +kernel
  have hshows : ShowsWeight curve.listing (Decimal.Layout.plain.text 1) := by
    refine ⟨["(x, k = 2, pi = 0) => \x7b", "  f1 = k * x"], "f1", ?_⟩
    rw [← hone]
    exact Option.some.inj hlisting
  obtain ⟨-, hnumber, hfixed, -⟩ := constantBlend_of_compile hc
  obtain ⟨hweight, henv, -⟩ := hfixed 1 hshows
  refine ⟨curve, hc, hshows, hnumber.mp ⟨1, hshows⟩, hweight, fun env' => ?_⟩
  obtain ⟨other, hother, -, hsame⟩ := henv env'
  exact ⟨other, hother, hsame⟩

end Sources

end BlendPlot
