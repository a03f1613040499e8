import BlendPlot.Proofs.Binding
import BlendPlot.Proofs.Compilation

namespace BlendPlot

/-- Where a text is evaluated. The weight has no value in the text that defines it. -/
structure Place where
  argument : Float
  weight : Option Float
  env : Environment

def Place.value? (p : Place) (name : String) : Option Float :=
  match name with
  | "x" => some p.argument
  | "alpha" => p.weight
  | "pi" => some pi
  | "sin" | "cos" | "sqrt" => none
  | _ => some (Environment.get p.env name)

/-- The value of a tree, if all its names and calls have one. -/
def Expr.valueAt? (p : Place) : Expr → Option Float
  | number value => some value
  | name id => p.value? id
  | negate operand => return -(← operand.valueAt? p)
  | binary .plus left right => return (← left.valueAt? p) + (← right.valueAt? p)
  | binary .minus left right => return (← left.valueAt? p) - (← right.valueAt? p)
  | binary .times left right => return (← left.valueAt? p) * (← right.valueAt? p)
  | binary .divide left right => return (← left.valueAt? p) / (← right.valueAt? p)
  | binary .power left right => return Float.pow (← left.valueAt? p) (← right.valueAt? p)
  | call "sin" [operand] => return (← operand.valueAt? p).sin
  | call "cos" [operand] => return (← operand.valueAt? p).cos
  | call "sqrt" [operand] => return (← operand.valueAt? p).sqrt
  | call _ _ => none

def Place.read? (p : Place) (text : String) : Option Float :=
  match Expr.parse text with
  | .error _ => none
  | .ok tree => tree.valueAt? p

namespace Sources

/-- The weight that the texts mean; a blank blend means zero. -/
def weight? (s : Sources) (env : Environment) (x : Float) : Option Float :=
  if isBlank s.blend then some 0
  else (Place.read? ⟨x, none, env⟩ s.blend).map clampWeight

/-- The value that the texts mean: the two sides mixed, one of them alone, or zero. -/
def value? (s : Sources) (env : Environment) (x : Float) : Option Float := do
  let w ← s.weight? env x
  let p : Place := ⟨x, some w, env⟩
  match isBlank s.first, isBlank s.second with
  | false, false => return (← p.read? s.first) * (1 - w) + (← p.read? s.second) * w
  | false, true => p.read? s.first
  | true, false => p.read? s.second
  | true, true => return 0

end Sources

namespace Place

def valuation (p : Place) (names : List String) : Valuation :=
  ⟨p.argument, p.weight.getD absent, names.map (Environment.get p.env)⟩

theorem value?_free (p : Place) {name : String} (h : isReserved name = false) :
    p.value? name = some (Environment.get p.env name) := by
  unfold value?
  split
  case h_7 => rfl
  all_goals exact absurd h (by decide)

theorem value?_of_find {p : Place} {names : List String} {name : String} {formula : Formula}
    (h : Scope.find ⟨names, p.weight.isSome⟩ name = .ok formula) :
    p.value? name = some (formula.eval (p.valuation names)) := by
  cases name using Symbol.name_cases with
  | argument | constant => cases h; rfl
  | weight =>
    rw [Scope.find_weight] at h
    split at h
    next hw =>
      cases h
      obtain ⟨w, hw⟩ := Option.isSome_iff_exists.mp hw
      change p.weight = some (p.weight.getD absent)
      rw [hw]
      rfl
    next => cases h
  | function f => cases f <;> cases h
  | free name hfree =>
    rw [Scope.find, Symbol.find?_free hfree] at h
    cases hi : names.idxOf? name with
    | none => rw [hi] at h; cases h
    | some i =>
      rw [hi] at h
      cases h
      obtain ⟨hlt, rfl, -⟩ := List.idxOf?_eq_some_iff.mp hi
      rw [p.value?_free hfree]
      change _ = some ((names.map (Environment.get p.env)).getD i 0)
      rw [List.getD_eq_getElem?_getD, List.getElem?_map, List.getElem?_eq_getElem hlt]
      rfl

end Place

namespace Expr

theorem valueAt?_binary (p : Place) (op : Operator) (left right : Expr) :
    (binary op left right).valueAt? p =
      (do return op.apply (← left.valueAt? p) (← right.valueAt? p)) := by
  cases op <;> rfl

theorem valueAt?_call (p : Place) (f : Function) (operand : Expr) :
    (call f.name [operand]).valueAt? p = (do return f.apply (← operand.valueAt? p)) := by
  cases f <;> rfl

/-- A bound tree has the value of its formula, whatever the order of the parameters. -/
theorem valueAt?_of_bind {p : Place} {names : List String} {tree : Expr} {formula : Formula}
    (h : tree.bind ⟨names, p.weight.isSome⟩ = .ok formula) :
    tree.valueAt? p = some (formula.eval (p.valuation names)) := by
  induction tree using induction_parts generalizing formula with
  | number value => cases h; rfl
  | name id => exact Place.value?_of_find h
  | negate operand ih =>
    obtain ⟨f, hf, h⟩ := bind_eq_ok.mp h
    cases h
    rw [valueAt?, ih hf]
    rfl
  | binary op left right ihl ihr =>
    obtain ⟨f, hf, h⟩ := bind_eq_ok.mp h
    obtain ⟨g, hg, h⟩ := bind_eq_ok.mp h
    cases h
    rw [valueAt?_binary, ihl hf, ihr hg]
    rfl
  | call function arguments ih =>
    obtain ⟨f, argument, g, rfl, rfl, hg, rfl⟩ := bind_call_eq_ok h
    rw [valueAt?_call, ih argument List.mem_cons_self hg]
    rfl

end Expr

theorem Slot.read?_of_check {slot : Slot} {names : List String} {text : String} {part : Part}
    {p : Place} (h : slot.check names text = .ok (some part))
    (hw : p.weight.isSome = (slot != .blend)) :
    isBlank text = false ∧ p.read? text = some (part.formula.eval (p.valuation names)) := by
  obtain ⟨htext, hparse, hbind⟩ := Slot.parse_of_check h
  rw [← hw] at hbind
  refine ⟨htext, ?_⟩
  rw [Place.read?, hparse]
  exact Expr.valueAt?_of_bind hbind

theorem Curve.weightAt_of_blend {c : Curve} {part : Part}
    (h : c.weight = .ofBlend c.values (some part)) (x : Float) :
    c.weightAt x = clampWeight (part.formula.eval ⟨x, absent, c.values⟩) := by
  rw [Weight.ofBlend] at h
  rw [Curve.weightAt, h]
  by_cases hconstant : part.formula.isConstant
  · rw [if_pos hconstant]
    exact congrArg clampWeight (Formula.eval_eq_of_isConstant hconstant _ _)
  · rw [if_neg hconstant]

namespace Sources

variable {s : Sources} {names : List String} {env : Environment} {curve : Curve}

theorem weight?_of_compile (h : s.compile names env = .ok curve) (x : Float) :
    s.weight? env x = some (curve.weightAt x) := by
  obtain ⟨blend, -, -, hblend, hweight, hvalues⟩ := compile_eq_ok h
  rw [weight?]
  cases blend with
  | none =>
    rw [if_pos (Slot.isBlank_of_check hblend), Curve.weightAt, hweight]
    rfl
  | some part =>
    obtain ⟨htext, hread⟩ := Slot.read?_of_check (p := ⟨x, none, env⟩) hblend rfl
    rw [if_neg (by simp [htext]), hread, Curve.weightAt_of_blend hweight, hvalues]
    rfl

theorem read?_side {slot : Slot} {text : String} {part : Part}
    (hslot : slot ≠ .blend) (h : slot.check names text = .ok (some part))
    (hvalues : curve.values = names.map (Environment.get env)) (x w : Float) :
    isBlank text = false ∧
      Place.read? ⟨x, some w, env⟩ text = some (part.formula.eval ⟨x, w, curve.values⟩) := by
  rw [hvalues]
  exact Slot.read?_of_check (p := ⟨x, some w, env⟩) h (by simpa using hslot)

/-- A compiled curve has the weight and the value that its texts mean, at every argument. -/
theorem meaning_of_compile (h : s.compile names env = .ok curve) (x : Float) :
    s.weight? env x = some (curve.weightAt x) ∧ s.value? env x = some (curve.eval x) := by
  have hweight := weight?_of_compile h x
  refine ⟨hweight, ?_⟩
  obtain ⟨-, hfirst, hsecond, -, -, hvalues⟩ := compile_eq_ok h
  rw [value?, hweight, Curve.eval]
  simp only [Option.bind_eq_bind, Option.bind_some, Option.pure_def]
  -- Both sides are evaluated with the one weight, and how it was found no longer matters.
  generalize curve.weightAt x = w
  obtain ⟨first, second, weight, parameters⟩ := curve
  match first, second, hfirst, hsecond with
  | some f, some g, hfirst, hsecond =>
    obtain ⟨hf, hreadf⟩ := read?_side (by decide) hfirst hvalues x w
    obtain ⟨hg, hreadg⟩ := read?_side (by decide) hsecond hvalues x w
    simp only [hf, hg, hreadf, hreadg, Option.bind_some]
  | some f, none, hfirst, hsecond =>
    obtain ⟨hf, hread⟩ := read?_side (by decide) hfirst hvalues x w
    have hg := Slot.isBlank_of_check hsecond
    simp only [hf, hg, hread]
  | none, some g, hfirst, hsecond =>
    obtain ⟨hg, hread⟩ := read?_side (by decide) hsecond hvalues x w
    have hf := Slot.isBlank_of_check hfirst
    simp only [hf, hg, hread]
  | none, none, hfirst, hsecond =>
    have hf := Slot.isBlank_of_check hfirst
    have hg := Slot.isBlank_of_check hsecond
    simp only [hf, hg]

theorem meaning_of_compile_over_any_list :
    let s : Sources := ⟨"k * x - b", "sin(alpha)", "3"⟩
    let names := ["b", "k", "x", "k", "other"]
    let env : Environment := Table.empty.insert "k" 2
    ∃ curve, s.compile names env = .ok curve ∧
      ∀ x, s.weight? env x = some (curve.weightAt x) ∧ s.value? env x = some (curve.eval x) := by
  intro s names env
  obtain ⟨curve, hc⟩ := s.compile_of_errors_eq_nil names env (by decide +kernel)
  exact ⟨curve, hc, meaning_of_compile hc⟩

end Sources

end BlendPlot
