import BlendPlot.Proofs.Binding
import Mathlib.Data.List.Forall2

namespace BlendPlot

section

variable {α β : Type} {R : α → β → Prop} {as : List α} {bs : List β}

theorem exists_of_mem_right {b : β} (h : List.Forall₂ R as bs) (hb : b ∈ bs) :
    ∃ a ∈ as, R a b := by
  induction h with
  | nil => cases hb
  | cons hr _ ih =>
    rcases List.mem_cons.mp hb with rfl | hb
    · exact ⟨_, List.mem_cons_self, hr⟩
    · obtain ⟨a, ha, hr⟩ := ih hb
      exact ⟨a, List.mem_cons_of_mem _ ha, hr⟩

theorem forall_mem_iff_of_forall₂ {p : α → Prop} {q : β → Prop} (h : List.Forall₂ R as bs)
    (hpq : ∀ a b, R a b → (p a ↔ q b)) : (∀ a ∈ as, p a) ↔ ∀ b ∈ bs, q b := by
  induction h with
  | nil => simp
  | cons hr _ ih => rw [List.forall_mem_cons, List.forall_mem_cons, hpq _ _ hr, ih]

end

namespace Expr

mutual

/-- The nodes of a tree in the order of reading, each before its parts. -/
def nodes : Expr → List Expr
  | number value => [number value]
  | name id => [name id]
  | negate operand => negate operand :: operand.nodes
  | binary op left right => binary op left right :: (left.nodes ++ right.nodes)
  | call function arguments => call function arguments :: nodesIn arguments

@[inherit_doc nodes]
def nodesIn : List Expr → List Expr
  | [] => []
  | e :: es => e.nodes ++ nodesIn es

end

theorem nodes_call (function : String) (arguments : List Expr) :
    (call function arguments).nodes = call function arguments :: arguments.flatMap nodes := by
  have hlist : nodesIn arguments = arguments.flatMap nodes := by
    induction arguments with
    | nil => rfl
    | cons a as ih => rw [nodesIn, List.flatMap_cons, ih]
  rw [nodes, hlist]

end Expr

def Formula.nodes : Formula → List Formula
  | constant value => [constant value]
  | argument => [argument]
  | weight => [weight]
  | parameter index => [parameter index]
  | negate operand => negate operand :: operand.nodes
  | binary op left right => binary op left right :: (left.nodes ++ right.nodes)
  | call f operand => call f operand :: operand.nodes

namespace Scope

/-- A name has a meaning in the scope, and a call is one of a function with one argument. -/
def Admits (s : Scope) : Expr → Prop
  | .name id =>
    id = "x" ∨ id = "pi" ∨ id = "alpha" ∧ s.weight ∨ isReserved id = false ∧ id ∈ s.parameters
  | .call function arguments =>
    (function = "sin" ∨ function = "cos" ∨ function = "sqrt") ∧ arguments.length = 1
  | _ => True

def violation? (s : Scope) : Expr → Option BindError
  | .name id => s.nameError? id
  | .call function arguments => callError? function arguments.length
  | _ => none

/-- Of several parameters with one name the first is meant. -/
def Means (s : Scope) : Expr → Formula → Prop
  | .number value, .constant c => c = value
  | .name id, .argument => id = "x"
  | .name id, .weight => id = "alpha" ∧ s.weight
  | .name id, .constant c => id = "pi" ∧ c = pi
  | .name id, .parameter i =>
    isReserved id = false ∧ s.parameters[i]? = some id ∧ ∀ j < i, s.parameters[j]? ≠ some id
  | .negate _, .negate _ => True
  | .binary op _ _, .binary other _ _ => op = other
  | .call function arguments, .call f _ => function = f.name ∧ arguments.length = 1
  | _, _ => False

variable {s : Scope}

theorem nameError?_eq_none_iff {id : String} : s.nameError? id = none ↔ s.Admits (.name id) := by
  cases id using Symbol.name_cases with
  | argument | constant => simp [nameError?, Admits]
  | weight =>
    have hreserved : isReserved "alpha" = true := by decide
    simp [nameError?_weight, Admits, hreserved]
  | function f =>
    have hreserved : isReserved f.name = true := by cases f <;> decide
    cases f <;> simp_all [nameError?, Admits, Function.name]
  | free id hfree =>
    have hne {name : String} (h : isReserved name = true) : id ≠ name := by
      rintro rfl
      simp [hfree] at h
    have hx : id ≠ "x" := hne (by decide)
    have hpi : id ≠ "pi" := hne (by decide)
    have halpha : id ≠ "alpha" := hne (by decide)
    simp [nameError?_free s hfree, Admits, hfree, hx, hpi, halpha]

theorem callError?_eq_none_iff {function : String} {arguments : List Expr} :
    callError? function arguments.length = none ↔ s.Admits (.call function arguments) := by
  by_cases h : ∃ f : Function, function = f.name
  · obtain ⟨f, rfl⟩ := h
    rw [callError?_function]
    cases f <;> simp [Admits, Function.name]
  · have hne := not_exists.mp h
    have hsin : function ≠ "sin" := hne .sine
    have hcos : function ≠ "cos" := hne .cosine
    have hsqrt : function ≠ "sqrt" := hne .squareRoot
    simp [callError?_unknown hne, Admits, hsin, hcos, hsqrt]

theorem violation?_eq_none_iff {node : Expr} : s.violation? node = none ↔ s.Admits node := by
  cases node with
  | name id => exact nameError?_eq_none_iff
  | call function arguments => exact callError?_eq_none_iff
  | number | negate | binary => exact ⟨fun _ => trivial, fun _ => rfl⟩

theorem means_of_find {id : String} {formula : Formula} (h : s.find id = .ok formula) :
    List.Forall₂ s.Means [.name id] formula.nodes := by
  cases id using Symbol.name_cases with
  | argument =>
    cases h
    exact .cons rfl .nil
  | constant =>
    cases h
    exact .cons ⟨rfl, rfl⟩ .nil
  | weight =>
    rw [find_weight] at h
    split at h
    next hw =>
      cases h
      exact .cons ⟨rfl, hw⟩ .nil
    next => cases h
  | function f => cases f <;> cases h
  | free id hfree =>
    rw [find, Symbol.find?_free hfree] at h
    cases hi : s.parameters.idxOf? id with
    | none =>
      rw [hi] at h
      cases h
    | some i =>
      rw [hi] at h
      cases h
      obtain ⟨hlt, hid, hfirst⟩ := List.idxOf?_eq_some_iff.mp hi
      refine .cons ⟨hfree, ?_, fun j hj => ?_⟩ .nil
      · rw [List.getElem?_eq_getElem hlt, hid]
      · rw [List.getElem?_eq_getElem (Nat.lt_trans hj hlt)]
        exact fun heq => hfirst j hj (Option.some.inj heq)

theorem height_of_find {id : String} {formula : Formula} (h : s.find id = .ok formula) :
    formula.height = 1 := by
  have hmeans := means_of_find h
  cases formula with
  | constant | argument | weight | parameter => rfl
  | negate | binary | call => exact (List.forall₂_cons.mp hmeans).1.elim

end Scope

namespace Expr

variable {s : Scope}

theorem errors_eq_filterMap (s : Scope) (tree : Expr) :
    tree.errors s = tree.nodes.filterMap s.violation? := by
  induction tree using induction_parts with
  | number value => rfl
  | name id =>
    rw [errors, nodes, List.filterMap_cons]
    cases h : s.nameError? id <;> simp [Scope.violation?, h]
  | negate operand ih =>
    rw [errors, nodes, List.filterMap_cons_none rfl, ih]
  | binary op left right ihl ihr =>
    rw [errors, nodes, List.filterMap_cons_none rfl, List.filterMap_append, ihl, ihr]
  | call function arguments ih =>
    have hparts : arguments.flatMap (·.errors s) =
        (arguments.flatMap nodes).filterMap s.violation? := by
      rw [List.filterMap_flatMap]
      exact List.flatMap_congr ih
    rw [errors_call, nodes_call, hparts, List.filterMap_cons]
    cases h : callError? function arguments.length <;> simp [Scope.violation?, h]

theorem errorOf_bind_eq_findSome? (s : Scope) (tree : Expr) :
    errorOf (tree.bind s) = tree.nodes.findSome? s.violation? := by
  rw [errorOf_bind, errors_eq_filterMap, List.head?_filterMap]

theorem means_of_bind {tree : Expr} {formula : Formula} (h : tree.bind s = .ok formula) :
    List.Forall₂ s.Means tree.nodes formula.nodes := by
  induction tree using induction_parts generalizing formula with
  | number value =>
    cases h
    exact .cons rfl .nil
  | name id => exact Scope.means_of_find h
  | negate operand ih =>
    obtain ⟨f, hf, h⟩ := bind_eq_ok.mp h
    cases h
    exact .cons trivial (ih hf)
  | binary op left right ihl ihr =>
    obtain ⟨f, hf, h⟩ := bind_eq_ok.mp h
    obtain ⟨g, hg, h⟩ := bind_eq_ok.mp h
    cases h
    exact .cons rfl (List.rel_append (ihl hf) (ihr hg))
  | call function arguments ih =>
    obtain ⟨f, argument, g, rfl, rfl, hg, rfl⟩ := bind_call_eq_ok h
    rw [nodes_call, List.flatMap_singleton]
    exact .cons ⟨rfl, rfl⟩ (ih argument List.mem_cons_self hg)

theorem weight_not_mem_of_bind {tree : Expr} {formula : Formula} (hw : s.weight = false)
    (h : tree.bind s = .ok formula) : .weight ∉ formula.nodes := by
  intro hmem
  obtain ⟨node, -, hnode⟩ := exists_of_mem_right (means_of_bind h) hmem
  cases node with
  | name id => simp [hw, Scope.Means] at hnode
  | number | negate | binary | call => exact hnode.elim

theorem height_of_bind {tree : Expr} {formula : Formula} (h : tree.bind s = .ok formula) :
    formula.height = tree.height := by
  induction tree using induction_parts generalizing formula with
  | number value =>
    cases h
    rfl
  | name id => exact Scope.height_of_find h
  | negate operand ih =>
    obtain ⟨f, hf, h⟩ := bind_eq_ok.mp h
    cases h
    rw [Formula.height, height, ih hf]
  | binary op left right ihl ihr =>
    obtain ⟨f, hf, h⟩ := bind_eq_ok.mp h
    obtain ⟨g, hg, h⟩ := bind_eq_ok.mp h
    cases h
    rw [Formula.height, height, ihl hf, ihr hg]
  | call function arguments ih =>
    obtain ⟨f, argument, g, rfl, rfl, hg, rfl⟩ := bind_call_eq_ok h
    simp only [Formula.height, height, maxHeight, ih argument List.mem_cons_self hg]
    omega

/-- A tree can be bound exactly if each node can, and the first wrong node gives the error. -/
theorem bind_node_by_node (s : Scope) (tree : Expr) :
    ((∃ formula, tree.bind s = .ok formula) ↔ ∀ node ∈ tree.nodes, s.Admits node) ∧
      (∀ e, tree.bind s = .error e ↔
        ∃ before node after, tree.nodes = before ++ node :: after ∧
          (∀ earlier ∈ before, s.Admits earlier) ∧ s.violation? node = some e) ∧
      ∀ formula, tree.bind s = .ok formula →
        formula.height = tree.height ∧ List.Forall₂ s.Means tree.nodes formula.nodes ∧
          (∀ i, .parameter i ∈ formula.nodes → i < s.parameters.length) ∧
          (s.weight = false → .weight ∉ formula.nodes) := by
  have hfirst := errorOf_bind_eq_findSome? s tree
  refine ⟨?_, fun e => ?_, fun formula h => ?_⟩
  · rw [← errorOf_eq_none_iff, hfirst, List.findSome?_eq_none_iff]
    exact forall₂_congr fun _ _ => Scope.violation?_eq_none_iff
  · rw [← errorOf_eq_some_iff, hfirst, List.findSome?_eq_some_iff]
    simp only [Scope.violation?_eq_none_iff, and_comm]
  · have hmeans := means_of_bind h
    refine ⟨height_of_bind h, hmeans, fun i hi => ?_, fun hw => weight_not_mem_of_bind hw h⟩
    obtain ⟨node, -, hnode⟩ := exists_of_mem_right hmeans hi
    cases node with
    | name id => exact (List.getElem?_eq_some_iff.mp hnode.2.1).1
    | number | negate | binary | call => exact hnode.elim

theorem bind_node_by_node_of_repeated_names :
    let s : Scope := ⟨["b", "x", "k", "b", "k"], false⟩
    let tree := binary .minus (negate (call "sin" [name "k"])) (binary .times (name "x") (name "b"))
    let formula := Formula.binary .minus (.negate (.call .sine (.parameter 2)))
      (.binary .times .argument (.parameter 0))
    tree.bind s = .ok formula ∧ formula.height = tree.height ∧
      List.Forall₂ s.Means tree.nodes formula.nodes ∧
      (∀ i, .parameter i ∈ formula.nodes → i < 5) ∧ .weight ∉ formula.nodes := by
  intro s tree formula
  have hbind : tree.bind s = .ok formula := rfl
  obtain ⟨hheight, hmeans, hindex, hweight⟩ := (bind_node_by_node s tree).2.2 formula hbind
  exact ⟨hbind, hheight, hmeans, hindex, hweight rfl⟩

/-- An unknown function comes before the number and the names of its arguments. -/
example : errorOf ((call "tan" [name "cos", name "alpha"]).bind ⟨[], false⟩) =
    some (.unknownFunction "tan") := rfl

end Expr

end BlendPlot
