import BlendPlot.Expr
import BlendPlot.Expr.Error
import BlendPlot.Token.Lexer

namespace BlendPlot

inductive Category where
  | expression
  | term
  | unary
  | power
  | primary
  deriving DecidableEq

/-- Some words, the tree they write and how deep they nest. -/
structure Piece where
  words : List Lexeme
  tree : Expr
  nesting : Nat

def Piece.listed (pieces : List Piece) : List Lexeme :=
  [Lexeme.comma].intercalate (pieces.map (·.words))

def Piece.deepest : List Piece → Nat
  | [] => 0
  | p :: ps => max p.nesting (deepest ps)

/-- A name before a parenthesis can only be called: in no layer does a group follow an operand. -/
inductive Derives : Category → List Lexeme → Expr → Nat → Prop where
  | ofTerm {words tree n} (h : Derives .term words tree n) : Derives .expression words tree n
  | sum {op lefts rights left right n m} (hop : op = .plus ∨ op = .minus)
      (hl : Derives .expression lefts left n) (hr : Derives .term rights right m) :
      Derives .expression (lefts ++ .sign op :: rights) (.binary op left right) (max n (m + 1))
  | ofUnary {words tree n} (h : Derives .unary words tree n) : Derives .term words tree n
  | product {op lefts rights left right n m} (hop : op = .times ∨ op = .divide)
      (hl : Derives .term lefts left n) (hr : Derives .unary rights right m) :
      Derives .term (lefts ++ .sign op :: rights) (.binary op left right) (max n (m + 1))
  | ofPower {words tree n} (h : Derives .power words tree n) : Derives .unary words tree n
  | positive {words tree n} (h : Derives .unary words tree n) :
      Derives .unary (.sign .plus :: words) tree (n + 1)
  | negative {words tree n} (h : Derives .unary words tree n) :
      Derives .unary (.sign .minus :: words) (.negate tree) (n + 1)
  | ofPrimary {words tree n} (h : Derives .primary words tree n) : Derives .power words tree n
  | power {lefts rights left right n m} (hl : Derives .primary lefts left n)
      (hr : Derives .unary rights right m) :
      Derives .power (lefts ++ .sign .power :: rights) (.binary .power left right) (max n (m + 1))
  | number {word value} (h : word.value? = some value) : Derives .primary [word] (.number value) 1
  | name (id : String) : Derives .primary [.name id] (.name id) 1
  | call (function : String) {args : List Piece}
      (h : ∀ a ∈ args, Derives .expression a.words a.tree a.nesting) :
      Derives .primary (.name function :: .opening :: (Piece.listed args ++ [.closing]))
        (.call function (args.map (·.tree))) (Piece.deepest args + 1)
  | group {words tree n} (h : Derives .expression words tree n) :
      Derives .primary (.opening :: (words ++ [.closing])) tree (n + 1)

namespace Category

def level : Category → Nat
  | expression => 1
  | term => 2
  | unary => signLevel
  | power => 4
  | primary => atomLevel

/-- The loosest layer whose operators bind at least as tightly as a level. -/
def ofLevel : Nat → Category
  | 0 | 1 => expression
  | 2 => term
  | 3 => unary
  | 4 => power
  | _ => primary

theorem expression_level_le (c : Category) : expression.level ≤ c.level := by
  cases c <;> decide

theorem level_le_primary (c : Category) : c.level ≤ primary.level := by
  cases c <;> decide

theorem level_ofLevel (n : Nat) : (ofLevel n).level = max (min n atomLevel) 1 := by
  match n with
  | 0 | 1 | 2 | 3 | 4 => rfl
  | k + 5 =>
    rw [Nat.min_eq_right (show atomLevel ≤ k + 5 from Nat.le_add_left 5 k)]
    rfl

theorem ofLevel_level_mono {m n : Nat} (h : m ≤ n) : (ofLevel m).level ≤ (ofLevel n).level := by
  rw [level_ofLevel, level_ofLevel]
  omega

end Category

theorem Lexeme.value?_eq_some {word : Lexeme} {value : Float} (h : word.value? = some value) :
    ∃ whole fraction, word = .number whole fraction ∧
      value = (Decimal.ofPoint whole (fraction.getD [])).toFloat := by
  cases word with
  | number whole fraction => exact ⟨whole, fraction, rfl, (Option.some.inj h).symm⟩
  | _ => cases h

theorem Expr.maxHeight_le {trees : List Expr} {n : Nat} (h : ∀ tree ∈ trees, tree.height ≤ n) :
    maxHeight trees ≤ n := by
  induction trees with
  | nil => exact Nat.zero_le n
  | cons tree trees ih =>
    obtain ⟨htree, hmore⟩ := List.forall_mem_cons.mp h
    exact Nat.max_le.mpr ⟨htree, ih hmore⟩

namespace Piece

@[simp] theorem listed_singleton (p : Piece) : listed [p] = p.words := by
  simp [listed]

theorem listed_cons_cons (p q : Piece) (ps : List Piece) :
    listed (p :: q :: ps) = p.words ++ .comma :: listed (q :: ps) := by
  simp [listed, List.intercalate]

theorem mem_listed {w : Lexeme} {ps : List Piece} (h : w ∈ listed ps) :
    w = .comma ∨ ∃ p ∈ ps, w ∈ p.words := by
  induction ps with
  | nil => simp [listed] at h
  | cons p ps ih =>
    cases ps with
    | nil => exact Or.inr ⟨p, by simp, by simpa using h⟩
    | cons q qs =>
      rw [listed_cons_cons] at h
      rcases List.mem_append.mp h with hp | hc
      · exact Or.inr ⟨p, by simp, hp⟩
      · rcases List.mem_cons.mp hc with rfl | hq
        · exact Or.inl rfl
        · refine (ih hq).imp_right ?_
          rintro ⟨r, hr, hw⟩
          exact ⟨r, List.mem_cons_of_mem p hr, hw⟩

theorem mem_listed_of_mem {w : Lexeme} {p : Piece} {ps : List Piece} (hp : p ∈ ps)
    (h : w ∈ p.words) : w ∈ listed ps := by
  induction ps with
  | nil => cases hp
  | cons q ps ih =>
    cases ps with
    | nil =>
      obtain rfl := List.mem_singleton.mp hp
      simpa using h
    | cons r rs =>
      rw [listed_cons_cons]
      rcases List.mem_cons.mp hp with rfl | hp
      · exact List.mem_append_left _ h
      · exact List.mem_append_right _ (List.mem_cons_of_mem _ (ih hp))

theorem exists_listed_eq_cons {ps : List Piece} (hne : ps ≠ [])
    (h : ∀ p ∈ ps, p.words ≠ []) :
    ∃ word words, listed ps = word :: words ∧ ∃ p ∈ ps, p.words.head? = some word := by
  cases ps with
  | nil => exact absurd rfl hne
  | cons p ps =>
    obtain ⟨word, words, hw⟩ := List.exists_cons_of_ne_nil (h p (by simp))
    cases ps with
    | nil => exact ⟨word, words, by simp [hw], p, by simp, by simp [hw]⟩
    | cons q qs =>
      refine ⟨word, words ++ .comma :: listed (q :: qs), ?_, p, by simp, by simp [hw]⟩
      rw [listed_cons_cons, hw, List.cons_append]

theorem length_le_listed {q : Piece} {qs : List Piece} (h : q ∈ qs) :
    q.words.length ≤ (listed qs).length := by
  induction qs with
  | nil => cases h
  | cons r rs ih =>
    cases rs with
    | nil =>
      obtain rfl := List.mem_singleton.mp h
      simp
    | cons s ss =>
      rw [listed_cons_cons, List.length_append, List.length_cons]
      rcases List.mem_cons.mp h with rfl | h
      · omega
      · have hle := ih h
        omega

theorem maxHeight_le_length {args : List Piece}
    (h : ∀ a ∈ args, a.tree.height ≤ a.words.length) :
    Expr.maxHeight (args.map (·.tree)) ≤ (listed args).length := by
  refine Expr.maxHeight_le fun tree htree => ?_
  obtain ⟨a, ha, rfl⟩ := List.mem_map.mp htree
  exact Nat.le_trans (h a ha) (length_le_listed ha)

theorem deepest_le_iff {ps : List Piece} {n : Nat} :
    deepest ps ≤ n ↔ ∀ p ∈ ps, p.nesting ≤ n := by
  induction ps with
  | nil => simp [deepest]
  | cons p ps ih => rw [deepest, List.forall_mem_cons, Nat.max_le, ih]

end Piece

namespace Derives

theorem nesting_pos {c : Category} {words : List Lexeme} {tree : Expr} {n : Nat}
    (h : Derives c words tree n) : 0 < n := by
  induction h with
  | ofTerm _ ih | ofUnary _ ih | ofPower _ ih | ofPrimary _ ih => exact ih
  | sum _ _ _ ih _ | product _ _ _ ih _ | power _ _ ih _ => omega
  | positive | negative | number | name | call | group => omega

theorem words_ne_nil {c : Category} {words : List Lexeme} {tree : Expr} {n : Nat}
    (h : Derives c words tree n) : words ≠ [] := by
  induction h with
  | ofTerm _ ih | ofUnary _ ih | ofPower _ ih | ofPrimary _ ih => exact ih
  | sum | product | power => simp
  | positive | negative | number | name | call | group => simp

/-- Each level of a tree takes a word of its own. -/
theorem height_le_length {c : Category} {words : List Lexeme} {tree : Expr} {n : Nat}
    (h : Derives c words tree n) : tree.height ≤ words.length := by
  induction h with
  | ofTerm _ ih | ofUnary _ ih | ofPower _ ih | ofPrimary _ ih => exact ih
  | sum _ _ _ ihl ihr | product _ _ _ ihl ihr | power _ _ ihl ihr =>
    simp only [Expr.height, List.length_append, List.length_cons]
    omega
  | positive _ ih | negative _ ih | group _ ih =>
    simp only [Expr.height, List.length_append, List.length_cons]
    omega
  | number | name => exact Nat.le_refl 1
  | @call function args _ ih =>
    have hargs := Piece.maxHeight_le_length ih
    simp only [Expr.height, List.length_append, List.length_cons]
    omega

theorem head?_ne_closing {c : Category} {words : List Lexeme} {tree : Expr} {n : Nat}
    (h : Derives c words tree n) : words.head? ≠ some .closing := by
  induction h with
  | ofTerm _ ih | ofUnary _ ih | ofPower _ ih | ofPrimary _ ih => exact ih
  | sum _ hl _ ih _ | product _ hl _ ih _ | power hl _ ih _ =>
    obtain ⟨word, words, hw⟩ := List.exists_cons_of_ne_nil hl.words_ne_nil
    rw [hw] at ih ⊢
    exact ih
  | positive | negative | name | call | group => simp
  | number h =>
    obtain ⟨whole, fraction, rfl, _⟩ := Lexeme.value?_eq_some h
    simp

theorem not_mem_unknown {c : Category} {words : List Lexeme} {tree : Expr} {n : Nat}
    (h : Derives c words tree n) (char : Char) : .unknown char ∉ words := by
  induction h with
  | ofTerm _ ih | ofUnary _ ih | ofPower _ ih | ofPrimary _ ih => exact ih
  | sum _ _ _ ihl ihr | product _ _ _ ihl ihr | power _ _ ihl ihr => simp [ihl, ihr]
  | positive _ ih | negative _ ih | group _ ih => simp [ih]
  | number h =>
    obtain ⟨whole, fraction, rfl, _⟩ := Lexeme.value?_eq_some h
    simp
  | name => simp
  | @call function args h ih =>
    intro hm
    have hl : Lexeme.unknown char ∈ Piece.listed args := by simpa using hm
    rcases Piece.mem_listed hl with hc | ⟨p, hp, hw⟩
    · cases hc
    · exact ih p hp hw

/-- What a tighter layer writes, a looser one writes as well. -/
theorem loosen {c d : Category} {words : List Lexeme} {tree : Expr} {n : Nat}
    (h : Derives c words tree n) (hd : d.level ≤ c.level) : Derives d words tree n := by
  have toPower (h : Derives .primary words tree n) : Derives .power words tree n := .ofPrimary h
  have toUnary (h : Derives .power words tree n) : Derives .unary words tree n := .ofPower h
  have toTerm (h : Derives .unary words tree n) : Derives .term words tree n := .ofUnary h
  have toExpression (h : Derives .term words tree n) : Derives .expression words tree n := .ofTerm h
  cases c <;> cases d <;> first
    | exact absurd hd (by decide)
    | exact h
    | simp_all

/-- A right operand may begin with a sign even where the operator binds more tightly. -/
theorem binary {op : Operator} {lefts rights : List Lexeme} {left right : Expr} {n m : Nat}
    (hl : Derives (.ofLevel op.leftLevel) lefts left n)
    (hr : Derives (.ofLevel (min op.rightLevel signLevel)) rights right m) :
    Derives (.ofLevel op.level) (lefts ++ .sign op :: rights) (.binary op left right)
      (max n (m + 1)) := by
  cases op with
  | plus => exact .sum (Or.inl rfl) hl hr
  | minus => exact .sum (Or.inr rfl) hl hr
  | times => exact .product (Or.inl rfl) hl hr
  | divide => exact .product (Or.inr rfl) hl hr
  | power => exact .power hl hr

end Derives

def lexemes (text : String) : List Lexeme :=
  (tokens text).map (·.lexeme)

end BlendPlot
