import BlendPlot.Proofs.Parsing

namespace BlendPlot.Parser

/-- `other` has the next token of `rest`, or no token at all. -/
def Alike (rest other : List Token) : Prop :=
  ∀ t ∈ other.head?, rest.head? = some t

/-- What is read before some tokens is read before others that are like them. -/
def Local {α : Type} (f : List Token → Except ParseError (Taken α)) : Prop :=
  ∀ {ts rest a}, f ts = .ok (a, rest) →
    ∃ read, ts = read ++ rest ∧ ∀ other, Alike rest other → f (read ++ other) = .ok (a, other)

theorem Local.before {α : Type} {f : List Token → Except ParseError (Taken α)} (hf : Local f)
    {read rest other : List Token} {a : α} (h : f (read ++ rest) = .ok (a, rest))
    (halike : Alike rest other) : f (read ++ other) = .ok (a, other) := by
  obtain ⟨read', heq, hread⟩ := hf h
  obtain rfl := List.append_cancel_right heq
  exact hread other halike

theorem Local.at_end {α : Type} {f : List Token → Except ParseError (Taken α)} (hf : Local f)
    {read rest : List Token} {a : α} (h : f (read ++ rest) = .ok (a, rest)) :
    f read = .ok (a, []) := by
  have hread := hf.before h (nofun : Alike rest [])
  rwa [List.append_nil] at hread

theorem alike_of_head?_eq {rest other : List Token} (h : other.head? = rest.head?) :
    Alike rest other :=
  fun _ ht => h.symm.trans ht

theorem alike_cons {t : Token} {more other : List Token} : Alike (t :: more) (t :: other) :=
  alike_of_head?_eq rfl

theorem Alike.append {rest other : List Token} (h : Alike rest other) (read : List Token) :
    Alike (read ++ rest) (read ++ other) := by
  cases read with
  | nil => exact h
  | cons t ts => exact alike_cons

theorem closing_cons {t : Token} (h : t.lexeme = .closing) (opening : Nat) (ts : List Token) :
    closing opening (t :: ts) = .ok ts :=
  if_pos h

section

variable {sub : Reader} (hsub : Local sub.run)

include hsub

theorem arguments_local : Local (arguments sub) := by
  intro ts rest args h
  fun_induction arguments sub ts generalizing args rest with
  | case1 => cases h
  | case2 => cases h
  | case3 ts first position more hs others rest' ha ih =>
    cases h
    obtain ⟨read, rfl, hread⟩ := hsub hs
    obtain ⟨reads, rfl, hreads⟩ := ih ha
    refine ⟨read ++ ⟨.comma, position⟩ :: reads, by simp, fun other halike => ?_⟩
    have hfirst := hread (⟨.comma, position⟩ :: (reads ++ other)) alike_cons
    rw [List.append_assoc, List.cons_append, arguments_more hfirst rfl, hreads other halike]
    rfl
  | case4 ts first rest' hn hs =>
    cases h
    obtain ⟨read, rfl, hread⟩ := hsub hs
    refine ⟨read, rfl, fun other halike => arguments_last (hread other halike) ?_⟩
    rintro ⟨word, position⟩ ht rfl
    obtain ⟨more, rfl⟩ := List.head?_eq_some_iff.mp (halike _ ht)
    exact hn position more rfl

theorem call_local (function : String) (opening : Nat) : Local (call sub function opening) := by
  intro ts rest m h
  by_cases hhead : (ts.map (·.lexeme)).head? = some .closing
  · obtain ⟨position, more, rfl⟩ := eq_closing_of_head? hhead
    obtain ⟨node, hnode, h⟩ := bind_eq_ok.mp h
    cases h
    refine ⟨[⟨.closing, position⟩], rfl, fun other _ => ?_⟩
    change (Measured.above (.call function []) [] >>= _) = _
    rw [hnode]
    rfl
  · rw [call_of_head?_ne hhead] at h
    obtain ⟨⟨args, rest₁⟩, hargs, h⟩ := bind_eq_ok.mp h
    obtain ⟨rest₂, hclose, h⟩ := bind_eq_ok.mp h
    obtain ⟨node, hnode, h⟩ := bind_eq_ok.mp h
    cases h
    obtain ⟨read, rfl, hread⟩ := arguments_local hsub hargs
    obtain ⟨t, rfl, ht⟩ := closing_eq_ok hclose
    refine ⟨read ++ [t], by simp, fun other _ => ?_⟩
    have hhead' : ((read ++ t :: other).map (·.lexeme)).head? ≠ some .closing := by
      cases read with
      | nil => exact hhead
      | cons u us => exact hhead
    rw [List.append_assoc, List.singleton_append, call_of_head?_ne hhead',
      hread (t :: other) alike_cons]
    change (closing opening (t :: other) >>= _) = _
    rw [closing_cons ht]
    change (Measured.above _ args >>= _) = _
    rw [hnode]
    rfl

theorem primary_local : Local (primary sub) := by
  intro ts rest m h
  unfold primary at h
  split at h
  · cases h
  next whole fraction position ts =>
    cases h
    exact ⟨[⟨.number whole fraction, position⟩], rfl, fun _ _ => rfl⟩
  next id position opening ts =>
    obtain ⟨read, rfl, hread⟩ := call_local hsub id opening h
    exact ⟨⟨.name id, position⟩ :: ⟨.opening, opening⟩ :: read, rfl, hread⟩
  next id position ts hno =>
    cases h
    refine ⟨[⟨.name id, position⟩], rfl, fun other halike => ?_⟩
    cases other with
    | nil => rfl
    | cons t other =>
      obtain ⟨more, rfl⟩ := List.head?_eq_some_iff.mp (halike t rfl)
      obtain ⟨word, place⟩ := t
      cases word with
      | opening => exact absurd rfl (hno place more)
      | _ => rfl
  next opening ts =>
    obtain ⟨⟨inner, rest₁⟩, hi, h⟩ := bind_eq_ok.mp h
    obtain ⟨rest₂, hclose, h⟩ := bind_eq_ok.mp h
    cases h
    obtain ⟨read, rfl, hread⟩ := hsub hi
    obtain ⟨t, rfl, ht⟩ := closing_eq_ok hclose
    refine ⟨⟨.opening, opening⟩ :: (read ++ [t]), by simp, fun other _ => ?_⟩
    rw [List.cons_append, List.append_assoc, List.singleton_append]
    change (sub.run (read ++ t :: other) >>= _) = _
    rw [hread (t :: other) alike_cons]
    change (closing opening (t :: other) >>= _) = _
    rw [closing_cons ht]
    rfl
  all_goals cases h

theorem afterOperator_local (op : Operator) (position : Nat) :
    Local (afterOperator sub op position) := by
  intro ts rest m h
  have hrun := afterOperator_eq_ok h
  obtain ⟨read, rfl, hread⟩ := hsub hrun
  have hshort := sub.shorter hrun
  refine ⟨read, rfl, fun other halike => ?_⟩
  have hne : read ++ other ≠ [] := by
    rintro hnil
    obtain ⟨rfl, -⟩ := List.append_eq_nil_iff.mp hnil
    exact Nat.lt_irrefl _ hshort
  rw [afterOperator_of_ne_nil hne, hread other halike]

end

section

variable {sub : Nat → Reader} (hsub : ∀ level, Local (sub level).run)

include hsub

theorem operand_local : Local (operand sub) := by
  intro ts rest m h
  unfold operand at h
  split at h
  next position ts =>
    obtain ⟨read, rfl, hread⟩ := afterOperator_local (hsub signLevel) _ _ h
    exact ⟨⟨.sign .plus, position⟩ :: read, rfl, hread⟩
  next position ts =>
    obtain ⟨⟨inner, rest₁⟩, hi, h⟩ := bind_eq_ok.mp h
    obtain ⟨node, hnode, h⟩ := bind_eq_ok.mp h
    cases h
    obtain ⟨read, rfl, hread⟩ := afterOperator_local (hsub signLevel) _ _ hi
    refine ⟨⟨.sign .minus, position⟩ :: read, rfl, fun other halike => ?_⟩
    change (afterOperator _ _ _ (read ++ other) >>= _) = _
    rw [hread other halike]
    change (Measured.above _ [inner] >>= _) = _
    rw [hnode]
    rfl
  next hplus hminus =>
    obtain ⟨read, rfl, hread⟩ := primary_local (hsub 0) h
    refine ⟨read, rfl, fun other halike => ?_⟩
    have hprimary := hread other halike
    -- what begins with a sign is no primary
    unfold operand
    split
    next he => rw [he] at hprimary; cases hprimary
    next he => rw [he] at hprimary; cases hprimary
    next => exact hprimary

theorem operators_local (level : Nat) (left : Measured) : Local (operators sub level left) := by
  intro ts rest m h
  fun_induction operators sub level left ts with
  | case1 => cases h
  | case2 => cases h
  | case3 left op position more hop right rest₁ hr node hnode ih =>
    obtain ⟨read, rfl, hread⟩ := afterOperator_local (hsub op.rightLevel) _ _ hr
    obtain ⟨reads, rfl, hreads⟩ := ih h
    refine ⟨⟨.sign op, position⟩ :: (read ++ reads), by simp, fun other halike => ?_⟩
    rw [List.cons_append, List.append_assoc, operators_sign hop, hread _ (halike.append reads)]
    change (Measured.above _ _ >>= _) = _
    rw [hnode]
    exact hreads other halike
  | case4 left op position more hop =>
    cases h
    refine ⟨[], rfl, fun other halike => ?_⟩
    cases other with
    | nil => exact operators_of_stops (stops_nil level)
    | cons t other =>
      cases halike t rfl
      rw [List.nil_append, operators, if_neg hop]
  | case5 left ts hno =>
    cases h
    refine ⟨[], rfl, fun other halike => ?_⟩
    unfold operators
    split
    next op position more heq =>
      cases other with
      | nil => cases heq
      | cons t other =>
        cases heq
        obtain ⟨more', rfl⟩ := List.head?_eq_some_iff.mp (halike _ rfl)
        exact absurd rfl (hno op position more')
    next => rfl

end

theorem expression_local (room level : Nat) : Local (expression room level).run := by
  induction room generalizing level with
  | zero =>
    intro ts rest m h
    cases h
  | succ room ih =>
    intro ts rest m h
    obtain ⟨⟨first, rest₁⟩, ho, hops⟩ := bind_eq_ok.mp h
    obtain ⟨read, rfl, hread⟩ := operand_local ih ho
    obtain ⟨reads, rfl, hreads⟩ := operators_local ih level first hops
    refine ⟨read ++ reads, by simp, fun other halike => ?_⟩
    rw [List.append_assoc]
    change (operand (expression room) (read ++ (reads ++ other)) >>= _) = _
    rw [hread _ (halike.append reads)]
    exact hreads other halike

end BlendPlot.Parser
