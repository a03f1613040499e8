import BlendPlot.Proofs.Grammar

namespace BlendPlot

namespace Expr

/-- Induction over trees, a call after its arguments. -/
@[elab_as_elim]
theorem induction_parts {motive : Expr → Prop} (number : ∀ value, motive (.number value))
    (name : ∀ id, motive (.name id))
    (negate : ∀ operand, motive operand → motive (.negate operand))
    (binary : ∀ op left right, motive left → motive right → motive (.binary op left right))
    (call : ∀ function arguments, (∀ a ∈ arguments, motive a) → motive (.call function arguments))
    (tree : Expr) : motive tree := by
  refine @Expr.rec motive (fun es => ∀ e ∈ es, motive e) number name negate binary call ?_ ?_ tree
  · exact nofun
  · intro e es he hes d hd
    rcases List.mem_cons.mp hd with rfl | hd
    · exact he
    · exact hes d hd

mutual

/-- Trees whose constants and names all have a property. -/
def Every (constant : Float → Prop) (id : String → Prop) : Expr → Prop
  | number value => constant value
  | name letters => id letters
  | negate operand => operand.Every constant id
  | binary _ left right => left.Every constant id ∧ right.Every constant id
  | call function arguments => id function ∧ EveryIn constant id arguments

@[inherit_doc Every]
def EveryIn (constant : Float → Prop) (id : String → Prop) : List Expr → Prop
  | [] => True
  | e :: es => e.Every constant id ∧ EveryIn constant id es

end

theorem everyIn_iff {constant : Float → Prop} {id : String → Prop} {es : List Expr} :
    EveryIn constant id es ↔ ∀ e ∈ es, e.Every constant id := by
  induction es with
  | nil => simp [EveryIn]
  | cons e es ih => simp [EveryIn, ih]

theorem Every.combine {p q : Float → Prop} {r s : String → Prop} {tree : Expr}
    (h : tree.Every p r) (h' : tree.Every q s) :
    tree.Every (fun x => p x ∧ q x) (fun x => r x ∧ s x) := by
  induction tree using induction_parts with
  | number | name => exact ⟨h, h'⟩
  | negate operand ih => exact ih h h'
  | binary op left right ihl ihr => exact ⟨ihl h.1 h'.1, ihr h.2 h'.2⟩
  | call function arguments ih =>
    refine ⟨⟨h.1, h'.1⟩, everyIn_iff.mpr fun a ha => ?_⟩
    exact ih a ha (everyIn_iff.mp h.2 a ha) (everyIn_iff.mp h'.2 a ha)

theorem Every.weaken {p q : Float → Prop} {r s : String → Prop} {tree : Expr}
    (h : tree.Every p r) (hp : ∀ x, p x → q x) (hr : ∀ x, r x → s x) : tree.Every q s := by
  induction tree using induction_parts with
  | number value => exact hp value h
  | name letters => exact hr letters h
  | negate operand ih => exact ih h
  | binary op left right ihl ihr => exact ⟨ihl h.1, ihr h.2⟩
  | call function arguments ih =>
    exact ⟨hr function h.1, everyIn_iff.mpr fun a ha => ih a ha (everyIn_iff.mp h.2 a ha)⟩

end Expr

def Lexeme.Every (constant : Float → Prop) (id : String → Prop) : Lexeme → Prop
  | number whole fraction => constant (Decimal.ofPoint whole (fraction.getD [])).toFloat
  | name letters => id letters
  | _ => True

theorem Derives.every {constant : Float → Prop} {id : String → Prop} {c : Category}
    {words : List Lexeme} {tree : Expr} {n : Nat} (h : Derives c words tree n)
    (hw : ∀ word ∈ words, word.Every constant id) : tree.Every constant id := by
  induction h with
  | ofTerm _ ih | ofUnary _ ih | ofPower _ ih | ofPrimary _ ih => exact ih hw
  | sum _ _ _ ihl ihr | product _ _ _ ihl ihr | power _ _ ihl ihr =>
    exact ⟨ihl fun word hm => hw word (by simp [hm]), ihr fun word hm => hw word (by simp [hm])⟩
  | positive _ ih | negative _ ih | group _ ih => exact ih fun word hm => hw word (by simp [hm])
  | number h =>
    obtain ⟨whole, fraction, rfl, rfl⟩ := Lexeme.value?_eq_some h
    exact hw _ List.mem_cons_self
  | name letters => exact hw (.name letters) List.mem_cons_self
  | @call function args h ih =>
    refine ⟨hw (.name function) List.mem_cons_self, Expr.everyIn_iff.mpr ?_⟩
    intro tree ht
    obtain ⟨a, ha, rfl⟩ := List.mem_map.mp ht
    exact ih a ha fun word hm => hw word (by simp [Piece.mem_listed_of_mem ha hm])

end BlendPlot
