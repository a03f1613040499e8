import BlendPlot.Expr
import BlendPlot.Expr.Error
import BlendPlot.Result
import BlendPlot.Token.Lexer

namespace BlendPlot

namespace Parser

structure Measured where
  expr : Expr
  height : Nat

def Measured.leaf (expr : Expr) : Measured := ⟨expr, 1⟩

/-- A tree one level above its highest part, if it is not too high. -/
def Measured.above (expr : Expr) (parts : List Measured) : Except ParseError Measured :=
  let height := parts.foldr (fun part h => max part.height h) 0 + 1
  if maxDepth < height then .error .tooComplex else .ok ⟨expr, height⟩

abbrev Taken (α : Type) := α × List Token

/-- A way to read an expression off the front of some tokens, at least one of them. -/
structure Reader where
  run : List Token → Except ParseError (Taken Measured)
  shorter : ∀ {ts m rest}, run ts = .ok (m, rest) → rest.length < ts.length

/-- The tokens after the parenthesis that closes the group opened at `opening`. -/
def closing (opening : Nat) : List Token → Except ParseError (List Token)
  | [] => .error (.unclosed opening)
  | t :: ts => if t.lexeme = .closing then .ok ts else .error (.expectedClosing t opening)

theorem closing_shorter {opening : Nat} {ts rest : List Token} (h : closing opening ts = .ok rest) :
    rest.length < ts.length := by
  cases ts with
  | nil => cases h
  | cons t ts =>
    simp only [closing] at h
    split at h <;> cases h
    exact Nat.lt_succ_self _

def arguments (sub : Reader) (ts : List Token) : Except ParseError (Taken (List Measured)) :=
  match _h : sub.run ts with
  | .error e => .error e
  | .ok (first, ⟨.comma, _⟩ :: more) =>
    match arguments sub more with
    | .error e => .error e
    | .ok (others, rest) => .ok (first :: others, rest)
  | .ok (first, rest) => .ok ([first], rest)
termination_by ts.length
decreasing_by exact Nat.lt_of_succ_lt (sub.shorter _h)

theorem arguments_shorter {sub : Reader} {ts rest : List Token} {args : List Measured}
    (h : arguments sub ts = .ok (args, rest)) : rest.length < ts.length := by
  fun_induction arguments sub ts generalizing args rest with
  | case1 => cases h
  | case2 => cases h
  | case3 ts first position more hs others rest' ha ih =>
    cases h
    exact Nat.lt_trans (ih ha) (Nat.lt_of_succ_lt (sub.shorter hs))
  | case4 ts first rest' hn hs =>
    cases h
    exact sub.shorter hs

def call (sub : Reader) (function : String) (opening : Nat) :
    List Token → Except ParseError (Taken Measured)
  | ⟨.closing, _⟩ :: ts => do
    let node ← Measured.above (.call function []) []
    return (node, ts)
  | ts => do
    let (args, rest) ← arguments sub ts
    let rest ← closing opening rest
    let node ← Measured.above (.call function (args.map (·.expr))) args
    return (node, rest)

theorem call_shorter {sub : Reader} {function : String} {opening : Nat} {ts rest : List Token}
    {m : Measured} (h : call sub function opening ts = .ok (m, rest)) :
    rest.length < ts.length := by
  unfold call at h
  split at h
  · obtain ⟨_, _, h⟩ := bind_eq_ok.mp h
    cases h
    exact Nat.lt_succ_self _
  · obtain ⟨_, ha, h⟩ := bind_eq_ok.mp h
    obtain ⟨_, hc, h⟩ := bind_eq_ok.mp h
    obtain ⟨_, _, h⟩ := bind_eq_ok.mp h
    cases h
    exact Nat.lt_trans (closing_shorter hc) (arguments_shorter ha)

def primary (sub : Reader) : List Token → Except ParseError (Taken Measured)
  | [] => .error .endOfInput
  | ⟨.number whole fraction, _⟩ :: ts =>
    .ok (.leaf (.number (Decimal.ofPoint whole (fraction.getD [])).toFloat), ts)
  | ⟨.name id, _⟩ :: ⟨.opening, opening⟩ :: ts => call sub id opening ts
  | ⟨.name id, _⟩ :: ts => .ok (.leaf (.name id), ts)
  | ⟨.opening, opening⟩ :: ts => do
    let (inner, rest) ← sub.run ts
    let rest ← closing opening rest
    return (inner, rest)
  | ⟨.closing, position⟩ :: _ => .error (.closingForOperand position)
  | ⟨.unknown c, position⟩ :: _ => .error (.unknownInput c position)
  | t :: _ => .error (.unexpected t)

theorem primary_shorter {sub : Reader} {ts rest : List Token} {m : Measured}
    (h : primary sub ts = .ok (m, rest)) : rest.length < ts.length := by
  unfold primary at h
  split at h
  · cases h
  · cases h
    exact Nat.lt_succ_self _
  · exact Nat.lt_succ_of_lt (Nat.lt_succ_of_lt (call_shorter h))
  · cases h
    exact Nat.lt_succ_self _
  · obtain ⟨_, hi, h⟩ := bind_eq_ok.mp h
    obtain ⟨_, hc, h⟩ := bind_eq_ok.mp h
    cases h
    exact Nat.lt_succ_of_lt (Nat.lt_trans (closing_shorter hc) (sub.shorter hi))
  all_goals cases h

def afterOperator (sub : Reader) (op : Operator) (position : Nat) :
    List Token → Except ParseError (Taken Measured)
  | [] => .error (.missingOperand op position)
  | t :: ts => sub.run (t :: ts)

theorem afterOperator_shorter {sub : Reader} {op : Operator} {position : Nat}
    {ts rest : List Token} {m : Measured} (h : afterOperator sub op position ts = .ok (m, rest)) :
    rest.length < ts.length := by
  cases ts with
  | nil => cases h
  | cons t ts => exact sub.shorter h

/-- An operand is a primary, or a sign and its operand; a plus sign leaves no trace. -/
def operand (sub : Nat → Reader) : List Token → Except ParseError (Taken Measured)
  | ⟨.sign .plus, position⟩ :: ts => afterOperator (sub signLevel) .plus position ts
  | ⟨.sign .minus, position⟩ :: ts => do
    let (inner, rest) ← afterOperator (sub signLevel) .minus position ts
    let node ← Measured.above (.negate inner.expr) [inner]
    return (node, rest)
  | ts => primary (sub 0) ts

theorem operand_shorter {sub : Nat → Reader} {ts rest : List Token} {m : Measured}
    (h : operand sub ts = .ok (m, rest)) : rest.length < ts.length := by
  unfold operand at h
  split at h
  · exact Nat.lt_succ_of_lt (afterOperator_shorter h)
  · obtain ⟨_, hi, h⟩ := bind_eq_ok.mp h
    obtain ⟨_, _, h⟩ := bind_eq_ok.mp h
    cases h
    exact Nat.lt_succ_of_lt (afterOperator_shorter hi)
  · exact primary_shorter h

/-- Reads the operators after `left` that bind at least as tightly as `level`. -/
def operators (sub : Nat → Reader) (level : Nat) (left : Measured) (ts : List Token) :
    Except ParseError (Taken Measured) :=
  match ts with
  | ⟨.sign op, position⟩ :: more =>
    if level ≤ op.level then
      match _h : afterOperator (sub op.rightLevel) op position more with
      | .error e => .error e
      | .ok (right, rest) =>
        match Measured.above (.binary op left.expr right.expr) [left, right] with
        | .error e => .error e
        | .ok node => operators sub level node rest
    else .ok (left, ⟨.sign op, position⟩ :: more)
  | ts => .ok (left, ts)
termination_by ts.length
decreasing_by exact Nat.lt_succ_of_lt (afterOperator_shorter _h)

theorem operators_no_longer {sub : Nat → Reader} {level : Nat} {left m : Measured}
    {ts rest : List Token} (h : operators sub level left ts = .ok (m, rest)) :
    rest.length ≤ ts.length := by
  fun_induction operators sub level left ts with
  | case1 => cases h
  | case2 => cases h
  | case3 left op position more hl right rest' hr node hn ih =>
    exact Nat.le_of_lt (Nat.lt_succ_of_lt (Nat.lt_of_le_of_lt (ih h) (afterOperator_shorter hr)))
  | case4 => cases h; exact Nat.le_refl _
  | case5 => cases h; exact Nat.le_refl _

/-- In an expression at most `room - 1` more may lie inside each other. -/
def expression : (room level : Nat) → Reader
  | 0, _ => ⟨fun _ => .error .tooComplex, fun h => nomatch h⟩
  | room + 1, level =>
    { run := fun ts => do
        let (first, rest) ← operand (expression room) ts
        operators (expression room) level first rest
      shorter := fun h => by
        obtain ⟨_, ho, h⟩ := bind_eq_ok.mp h
        exact Nat.lt_of_le_of_lt (operators_no_longer h) (operand_shorter ho) }

end Parser

def Expr.parse (text : String) : Except ParseError Expr :=
  match (Parser.expression maxDepth 0).run (tokens text) with
  | .error e => .error e
  | .ok (whole, []) => .ok whole.expr
  | .ok (_, t :: _) => .error (.ofTrailing t)

end BlendPlot
