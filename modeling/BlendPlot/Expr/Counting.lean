import BlendPlot.Expr.Parser

namespace BlendPlot

namespace Counting

open BlendPlot.Parser

/-- Where reading stands: the tokens that are left and how many expressions are being read. -/
structure Place where
  left : List Token
  depth : Nat

abbrev After (ts : List Token) := {q : Place // q.left.length < ts.length}

abbrev From (ts : List Token) := {q : Place // q.left.length ≤ ts.length}

inductive Halt where
  /-- Something is wrong with the text, but no limit is exceeded. -/
  | refused (error : ParseError)
  /-- At this place an expression is due inside too many others. -/
  | nested (place : Place)
  /-- The tree that is to be built next is too high. -/
  | tall (tree : Expr)

def Halt.error : Halt → ParseError
  | refused error => error
  | nested _ | tall _ => .tooComplex

def orRefuse {α : Type} : (x : Except ParseError α) → Except Halt {a : α // x = .ok a}
  | .ok a => .ok ⟨a, rfl⟩
  | .error e => .error (.refused e)

def node (tree : Expr) (parts : List Measured) : Except Halt Measured :=
  match Measured.above tree parts with
  | .ok m => .ok m
  | .error _ => .error (.tall tree)

-- The second part of each measure orders the functions that call each other before the same tokens.
mutual

def expression (level : Nat) (ts : List Token) (depth : Nat) :
    Except Halt (Measured × After ts) :=
  let entered := depth + 1
  if maxDepth < entered then .error (.nested ⟨ts, entered - 1⟩)
  else do
    let (first, ⟨q, hq⟩) ← operand ts entered
    let (whole, ⟨r, hr⟩) ← operators level first q.left q.depth
    return (whole, ⟨{ r with depth := r.depth - 1 }, Nat.lt_of_le_of_lt hr hq⟩)
termination_by (ts.length, 3)

def operand (ts : List Token) (depth : Nat) : Except Halt (Measured × After ts) :=
  match ts with
  | ⟨.sign .plus, position⟩ :: ts => do
    let (inner, ⟨q, hq⟩) ← afterOperator signLevel .plus position ts depth
    return (inner, ⟨q, Nat.lt_succ_of_lt hq⟩)
  | ⟨.sign .minus, position⟩ :: ts => do
    let (inner, ⟨q, hq⟩) ← afterOperator signLevel .minus position ts depth
    let m ← node (.negate inner.expr) [inner]
    return (m, ⟨q, Nat.lt_succ_of_lt hq⟩)
  | ts => primary ts depth
termination_by (ts.length, 2)

def operators (level : Nat) (left : Measured) (ts : List Token) (depth : Nat) :
    Except Halt (Measured × From ts) :=
  match ts with
  | ⟨.sign op, position⟩ :: more =>
    if level ≤ op.level then do
      let (right, ⟨q, hq⟩) ← afterOperator op.rightLevel op position more depth
      let m ← node (.binary op left.expr right.expr) [left, right]
      let (whole, ⟨r, hr⟩) ← operators level m q.left q.depth
      return (whole, ⟨r, Nat.le_of_lt (Nat.lt_succ_of_lt (Nat.lt_of_le_of_lt hr hq))⟩)
    else .ok (left, ⟨⟨⟨.sign op, position⟩ :: more, depth⟩, Nat.le_refl _⟩)
  | ts => .ok (left, ⟨⟨ts, depth⟩, Nat.le_refl _⟩)
termination_by (ts.length, 0)

def afterOperator (level : Nat) (op : Operator) (position : Nat) (ts : List Token) (depth : Nat) :
    Except Halt (Measured × After ts) :=
  match ts with
  | [] => .error (.refused (.missingOperand op position))
  | t :: ts => expression level (t :: ts) depth
termination_by (ts.length, 4)

def primary (ts : List Token) (depth : Nat) : Except Halt (Measured × After ts) :=
  match ts with
  | [] => .error (.refused .endOfInput)
  | ⟨.number whole fraction, _⟩ :: ts =>
    let value := (Decimal.ofPoint whole (fraction.getD [])).toFloat
    .ok (.leaf (.number value), ⟨⟨ts, depth⟩, Nat.lt_succ_self _⟩)
  | ⟨.name id, _⟩ :: ⟨.opening, opening⟩ :: ts => do
    let (m, ⟨q, hq⟩) ← call id opening ts depth
    return (m, ⟨q, Nat.lt_succ_of_lt (Nat.lt_succ_of_lt hq)⟩)
  | ⟨.name id, _⟩ :: ts => .ok (.leaf (.name id), ⟨⟨ts, depth⟩, Nat.lt_succ_self _⟩)
  | ⟨.opening, opening⟩ :: ts => do
    let (inner, ⟨q, hq⟩) ← expression 0 ts depth
    let ⟨rest, hrest⟩ ← orRefuse (closing opening q.left)
    return (inner, ⟨{ q with left := rest },
      Nat.lt_succ_of_lt (Nat.lt_trans (closing_shorter hrest) hq)⟩)
  | ⟨.closing, position⟩ :: _ => .error (.refused (.closingForOperand position))
  | ⟨.unknown c, position⟩ :: _ => .error (.refused (.unknownInput c position))
  | t :: _ => .error (.refused (.unexpected t))
termination_by (ts.length, 1)

def call (function : String) (opening : Nat) (ts : List Token) (depth : Nat) :
    Except Halt (Measured × After ts) :=
  match ts with
  | ⟨.closing, _⟩ :: ts => do
    let m ← node (.call function []) []
    return (m, ⟨⟨ts, depth⟩, Nat.lt_succ_self _⟩)
  | ts => do
    let (args, ⟨q, hq⟩) ← arguments ts depth
    let ⟨rest, hrest⟩ ← orRefuse (closing opening q.left)
    let m ← node (.call function (args.map (·.expr))) args
    return (m, ⟨{ q with left := rest }, Nat.lt_trans (closing_shorter hrest) hq⟩)
termination_by (ts.length, 5)

def arguments (ts : List Token) (depth : Nat) : Except Halt (List Measured × After ts) := do
  let (first, ⟨q, hq⟩) ← expression 0 ts depth
  match q, hq with
  | ⟨⟨.comma, _⟩ :: more, depth⟩, hq =>
    have hmore := Nat.lt_of_succ_lt hq
    let (others, ⟨r, hr⟩) ← arguments more depth
    return (first :: others, ⟨r, Nat.lt_trans hr hmore⟩)
  | q, hq => return ([first], ⟨q, hq⟩)
termination_by (ts.length, 4)

end

end Counting

end BlendPlot
