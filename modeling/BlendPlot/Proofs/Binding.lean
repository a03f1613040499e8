import BlendPlot.Formula.Binding
import BlendPlot.Proofs.Tables
import BlendPlot.Proofs.Trees
import BlendPlot.Result
import Mathlib.Data.List.Basic

namespace BlendPlot

@[elab_as_elim]
theorem Symbol.name_cases {motive : String → Prop} (argument : motive "x") (weight : motive "alpha")
    (constant : motive "pi") (function : ∀ f : Function, motive f.name)
    (free : ∀ name, isReserved name = false → motive name) (name : String) : motive name := by
  cases hs : Symbol.find? name with
  | none => exact free name (by rw [isReserved, hs]; rfl)
  | some s =>
    have hmem : (name, s) ∈ Symbol.table := Table.mem_of_lookup hs
    simp only [Symbol.table, List.mem_cons, Prod.mk.injEq, List.not_mem_nil, or_false] at hmem
    rcases hmem with h | h | h | h | h | h <;> obtain ⟨rfl, -⟩ := h
    · exact argument
    · exact weight
    · exact function .cosine
    · exact function .sine
    · exact function .squareRoot
    · exact constant

theorem Symbol.find?_function (f : Function) : Symbol.find? f.name = some (.function f) := by
  cases f <;> rfl

theorem Symbol.name_of_find? {name : String} {f : Function}
    (h : Symbol.find? name = some (.function f)) : name = f.name := by
  have hmem : (name, Symbol.function f) ∈ Symbol.table := Table.mem_of_lookup h
  simp only [Symbol.table, List.mem_cons, Prod.mk.injEq, Symbol.function.injEq, reduceCtorEq,
    and_false, false_or, List.not_mem_nil, or_false] at hmem
  rcases hmem with ⟨rfl, rfl⟩ | ⟨rfl, rfl⟩ | ⟨rfl, rfl⟩ <;> rfl

theorem Symbol.find?_free {name : String} (h : isReserved name = false) :
    Symbol.find? name = none := by
  rw [isReserved] at h
  exact Option.isNone_iff_eq_none.mp (by simpa using h)

def Scope.nameError? (s : Scope) (name : String) : Option BindError :=
  match name with
  | "x" | "pi" => none
  | "alpha" => if s.weight then none else some (.unavailable name)
  | "sin" | "cos" | "sqrt" => some (.uncalledFunction name)
  | _ => if name ∈ s.parameters then none else some (.unknownName name)

/-- What is wrong with a call apart from its arguments. -/
def callError? (function : String) (count : Nat) : Option BindError :=
  match function with
  | "sin" | "cos" | "sqrt" => if count = 1 then none else some (.wrongArity function count)
  | _ => some (.unknownFunction function)

theorem Scope.find_weight (s : Scope) :
    s.find "alpha" = if s.weight then .ok .weight else .error (.unavailable "alpha") := rfl

theorem Scope.nameError?_weight (s : Scope) :
    s.nameError? "alpha" = if s.weight then none else some (.unavailable "alpha") := rfl

theorem Scope.nameError?_free (s : Scope) {name : String} (h : isReserved name = false) :
    s.nameError? name = if name ∈ s.parameters then none else some (.unknownName name) := by
  unfold nameError?
  split
  case h_7 => rfl
  all_goals exact absurd h (by decide)

theorem callError?_unknown {name : String} (h : ∀ f : Function, name ≠ f.name) (count : Nat) :
    callError? name count = some (.unknownFunction name) := by
  unfold callError?
  split
  · exact absurd rfl (h .sine)
  · exact absurd rfl (h .cosine)
  · exact absurd rfl (h .squareRoot)
  · rfl

theorem callError?_function (f : Function) (count : Nat) :
    callError? f.name count = if count = 1 then none else some (.wrongArity f.name count) := by
  cases f <;> rfl

namespace Expr

mutual

/-- Everything that is wrong with the names of an expression, in the order of reading. -/
def errors (s : Scope) : Expr → List BindError
  | number _ => []
  | name id => (s.nameError? id).toList
  | negate operand => operand.errors s
  | binary _ left right => left.errors s ++ right.errors s
  | call function arguments =>
    (callError? function arguments.length).toList ++ errorsIn s arguments

def errorsIn (s : Scope) : List Expr → List BindError
  | [] => []
  | e :: es => e.errors s ++ errorsIn s es

end

end Expr

theorem errorOf_find (s : Scope) (name : String) : errorOf (s.find name) = s.nameError? name := by
  cases name using Symbol.name_cases with
  | argument | constant => rfl
  | weight =>
    rw [Scope.find_weight, Scope.nameError?_weight]
    split <;> rfl
  | function f => cases f <;> rfl
  | free name h =>
    rw [Scope.find, Symbol.find?_free h, s.nameError?_free h]
    cases hi : s.parameters.idxOf? name with
    | none => rw [if_neg (List.idxOf?_eq_none_iff.mp hi)]; rfl
    | some i =>
      obtain ⟨hlt, rfl, -⟩ := List.idxOf?_eq_some_iff.mp hi
      rw [if_pos (List.getElem_mem hlt)]
      rfl

namespace Expr

theorem errors_call (s : Scope) (function : String) (arguments : List Expr) :
    (call function arguments).errors s =
      (callError? function arguments.length).toList ++ arguments.flatMap (·.errors s) := by
  have hlist : errorsIn s arguments = arguments.flatMap (·.errors s) := by
    induction arguments with
    | nil => rfl
    | cons a as ih => rw [errorsIn, List.flatMap_cons, ih]
  rw [errors, hlist]

theorem bind_call_function (s : Scope) (f : Function) (argument : Expr) :
    (call f.name [argument]).bind s = argument.bind s >>= fun g => pure (.call f g) := by
  rw [Expr.bind, Symbol.find?_function]

theorem bind_call_wrongArity (s : Scope) (f : Function) {arguments : List Expr}
    (h : arguments.length ≠ 1) :
    (call f.name arguments).bind s = .error (.wrongArity f.name arguments.length) := by
  rw [Expr.bind, Symbol.find?_function]
  match arguments with
  | [] => rfl
  | [a] => exact absurd rfl h
  | a :: b :: rest => rfl

theorem bind_call_unknown (s : Scope) {function : String} (h : ∀ f : Function, function ≠ f.name)
    (arguments : List Expr) :
    (call function arguments).bind s = .error (.unknownFunction function) := by
  rw [Expr.bind]
  split
  next f hs => exact absurd (Symbol.name_of_find? hs) (h f)
  next => rfl

theorem bind_call_eq_ok {s : Scope} {function : String} {arguments : List Expr} {formula : Formula}
    (h : (call function arguments).bind s = .ok formula) :
    ∃ f argument g, function = Function.name f ∧ arguments = [argument] ∧
      argument.bind s = .ok g ∧ formula = .call f g := by
  by_cases hf : ∃ f : Function, function = f.name
  · obtain ⟨f, rfl⟩ := hf
    by_cases hone : arguments.length = 1
    · obtain ⟨argument, rfl⟩ := List.length_eq_one_iff.mp hone
      rw [bind_call_function] at h
      obtain ⟨g, hg, h⟩ := bind_eq_ok.mp h
      cases h
      exact ⟨f, argument, g, rfl, rfl, hg, rfl⟩
    · rw [bind_call_wrongArity s f hone] at h
      cases h
  · rw [bind_call_unknown s (not_exists.mp hf)] at h
    cases h

theorem errorOf_bind_call (s : Scope) (function : String) {arguments : List Expr}
    (ih : ∀ a ∈ arguments, errorOf (a.bind s) = (a.errors s).head?) :
    errorOf ((call function arguments).bind s) = ((call function arguments).errors s).head? := by
  rw [errors_call]
  by_cases h : ∃ f : Function, function = f.name
  · obtain ⟨f, rfl⟩ := h
    rw [callError?_function]
    by_cases hone : arguments.length = 1
    · obtain ⟨a, rfl⟩ := List.length_eq_one_iff.mp hone
      rw [bind_call_function, errorOf_bind_pure, ih a List.mem_cons_self, if_pos hone,
        List.flatMap_singleton]
      rfl
    · rw [bind_call_wrongArity s f hone, if_neg hone]
      rfl
  · rw [bind_call_unknown s (not_exists.mp h), callError?_unknown (not_exists.mp h)]
    rfl

/-- Binding fails with the first error, and only if there is one. -/
theorem errorOf_bind (s : Scope) (tree : Expr) : errorOf (tree.bind s) = (tree.errors s).head? := by
  induction tree using induction_parts with
  | number value => rfl
  | name id => rw [Expr.bind, errorOf_find, errors, Option.head?_toList]
  | negate operand ih => rw [Expr.bind, errorOf_bind_pure, ih, errors]
  | binary op left right ihl ihr =>
    rw [Expr.bind, errorOf_bind_bind_pure, ihl, ihr, errors, List.head?_append]
  | call function arguments ih => exact errorOf_bind_call s function ih

theorem unknownName_of_nameError? {s : Scope} {letters name : String}
    (h : s.nameError? letters = some (.unknownName name)) :
    letters = name ∧ isReserved name = false ∧ name ∉ s.parameters := by
  cases letters using Symbol.name_cases with
  | argument | constant => cases h
  | weight =>
    rw [Scope.nameError?_weight] at h
    split at h <;> cases h
  | function f => cases f <;> cases h
  | free letters hfree =>
    rw [s.nameError?_free hfree] at h
    split at h
    next => cases h
    next hmem =>
      cases h
      exact ⟨rfl, hfree, hmem⟩

theorem callError?_ne_unknownName (function : String) (count : Nat) (name : String) :
    callError? function count ≠ some (.unknownName name) := by
  unfold callError?
  split
  case h_4 => nofun
  all_goals split <;> nofun

theorem unknownName_of_mem_errors {s : Scope} {constant : Float → Prop} {id : String → Prop}
    {tree : Expr} (h : tree.Every constant id) {name : String}
    (he : .unknownName name ∈ tree.errors s) :
    id name ∧ isReserved name = false ∧ name ∉ s.parameters := by
  induction tree using induction_parts with
  | number value => cases he
  | name letters =>
    obtain ⟨rfl, hfree⟩ := unknownName_of_nameError? (Option.mem_toList.mp he)
    exact ⟨h, hfree⟩
  | negate operand ih => exact ih h he
  | binary op left right ihl ihr =>
    rcases List.mem_append.mp he with he | he
    · exact ihl h.1 he
    · exact ihr h.2 he
  | call function arguments ih =>
    rw [errors_call] at he
    rcases List.mem_append.mp he with he | he
    · exact absurd (Option.mem_toList.mp he) (callError?_ne_unknownName _ _ _)
    · obtain ⟨a, ha, he⟩ := List.mem_flatMap.mp he
      exact ih a ha (everyIn_iff.mp h.2 a ha) he

/-- The same free names are parameters of both scopes. -/
def SameKnown (s t : Scope) (id : String) : Prop :=
  isReserved id = false → (id ∈ s.parameters ↔ id ∈ t.parameters)

theorem nameError?_congr {s t : Scope} {id : String} (h : SameKnown s t id)
    (hw : s.weight = t.weight) : s.nameError? id = t.nameError? id := by
  cases id using Symbol.name_cases with
  | argument | constant => rfl
  | weight => rw [Scope.nameError?_weight, Scope.nameError?_weight, hw]
  | function f => cases f <;> rfl
  | free id hfree =>
    rw [s.nameError?_free hfree, t.nameError?_free hfree]
    simp only [h hfree]

theorem errors_congr {s t : Scope} {constant : Float → Prop} {tree : Expr}
    (h : tree.Every constant (SameKnown s t)) (hw : s.weight = t.weight) :
    tree.errors s = tree.errors t := by
  induction tree using induction_parts with
  | number value => rfl
  | name letters => rw [errors, errors, nameError?_congr h hw]
  | negate operand ih => exact ih h
  | binary op left right ihl ihr => rw [errors, errors, ihl h.1, ihr h.2]
  | call function arguments ih =>
    rw [errors_call, errors_call]
    congr 1
    exact List.flatMap_congr fun a ha => ih a ha (everyIn_iff.mp h.2 a ha)

end Expr

end BlendPlot
