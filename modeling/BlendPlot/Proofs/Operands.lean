import BlendPlot.Proofs.Openings
import BlendPlot.Proofs.Printing

namespace BlendPlot

theorem Piece.deepest_append (ps qs : List Piece) :
    deepest (ps ++ qs) = max (deepest ps) (deepest qs) := by
  induction ps with
  | nil => simp [deepest]
  | cons p ps ih => rw [List.cons_append, deepest, ih, deepest, Nat.max_assoc]

theorem intercalate_append_cons {α : Type} (sep : List α) (before : List (List α)) (part : List α)
    (after : List (List α)) :
    sep.intercalate (before ++ part :: after) =
      before.flatMap (· ++ sep) ++ (part ++ after.flatMap (sep ++ ·)) := by
  induction before with
  | nil =>
    induction after generalizing part with
    | nil => simp
    | cons other after ih =>
      have hrest := ih other
      rw [List.nil_append] at hrest ⊢
      rw [List.intercalate_cons_cons, hrest]
      simp
  | cons first before ih =>
    obtain ⟨second, rest, hcons⟩ := List.exists_cons_of_ne_nil
      (List.append_ne_nil_of_right_ne_nil before (List.cons_ne_nil part after))
    rw [List.cons_append, hcons, List.intercalate_cons_cons, ← hcons, ih]
    simp

namespace Expr

/-- The operand `part` is printed between `front` and `back`; `enough` is what reading it needs. -/
inductive OperandAt : Expr → (least enough : Nat) → Expr → (front back : List Char) → Prop where
  | operand (part : Expr) : OperandAt (.negate part) signLevel signLevel part ['-'] []
  | left (op : Operator) (part right : Expr) :
      OperandAt (.binary op part right) op.leftLevel op.leftLevel part []
        ((infixText op).toList ++ (guarded op.rightLevel right.level right.text).toList)
  | right (op : Operator) (left part : Expr) :
      OperandAt (.binary op left part) op.rightLevel (min op.rightLevel signLevel) part
        ((guarded op.leftLevel left.level left.text).toList ++ (infixText op).toList) []
  | argument (function : String) (before : List Expr) (part : Expr) (after : List Expr) :
      OperandAt (.call function (before ++ part :: after)) 0 0 part
        (function.toList ++ '(' :: before.flatMap fun a => a.text.toList ++ [',', ' '])
        ((after.flatMap fun a => [',', ' '] ++ a.text.toList) ++ [')'])

/-- Induction over trees, from the operands in all places to the whole. -/
theorem induction_operands {motive : Expr → Prop}
    (step : ∀ tree, (∀ {least enough part front back}, OperandAt tree least enough part front back →
      motive part) → motive tree) (tree : Expr) : motive tree := by
  induction tree using induction_parts with
  | number value => exact step _ nofun
  | name id => exact step _ nofun
  | negate operand ih =>
    refine step _ fun hp => ?_
    cases hp with
    | operand => exact ih
  | binary op left right ihl ihr =>
    refine step _ fun hp => ?_
    cases hp with
    | left => exact ihl
    | right => exact ihr
  | call function arguments ih =>
    refine step _ fun hp => ?_
    cases hp with
    | argument => exact ih _ (by simp)

theorem groupsIn_append (es ds : List Expr) : groupsIn (es ++ ds) = groupsIn es ++ groupsIn ds := by
  induction es with
  | nil => rfl
  | cons e es ih => rw [List.cons_append, groupsIn, ih, groupsIn, List.append_assoc]

theorem length_surround (least level : Nat) (counts : List Nat) :
    (surround least level counts).length = counts.length := by
  unfold surround
  split
  next => cases counts <;> rfl
  next => rfl

theorem exists_counts {args : List Expr} (h : ∀ a ∈ args, a.WellFormed) :
    ∃ counts, List.Forall₂ Opens (args.map fun a => wordsOf a.text.toList) counts ∧
      counts.flatten.length = (groupsIn args).length := by
  induction args with
  | nil => exact ⟨[], .nil, rfl⟩
  | cons a args ih =>
    obtain ⟨n, hderives⟩ := (h a List.mem_cons_self).derives
    obtain ⟨first, hfirst, hle⟩ := hderives.opens
    obtain ⟨others, hothers, hlength⟩ := ih fun b hb => h b (List.mem_cons_of_mem a hb)
    refine ⟨first :: others, .cons hfirst hothers, ?_⟩
    rw [List.flatten_cons, List.length_append, hlength, ← hle.length_eq, length_surround, groupsIn,
      List.length_append]

namespace OperandAt

variable {tree part : Expr} {least enough : Nat} {front back : List Char}

theorem every {constant : Float → Prop} {id : String → Prop}
    (hp : OperandAt tree least enough part front back) (h : tree.Every constant id) :
    part.Every constant id := by
  cases hp with
  | operand => exact h
  | left => exact h.1
  | right => exact h.2
  | argument function before part after => exact everyIn_iff.mp h.2 part (by simp)

theorem enough_le (hp : OperandAt tree least enough part front back) : enough ≤ least := by
  cases hp with
  | operand | left | argument => exact Nat.le_refl _
  | right => exact Nat.min_le_left _ _

/-- The only parentheses that are printed but not needed stand around a sign in an exponent. -/
theorem exponent (hp : OperandAt tree least enough part front back) (henough : enough ≤ part.level)
    (hleast : part.level < least) :
    ∃ base operand, tree = .binary .power base (.negate operand) ∧ part = .negate operand ∧
      front = (guarded Operator.power.leftLevel base.level base.text).toList ++ ['^'] ∧
      back = [] := by
  cases hp with
  | operand | left | argument => exact absurd hleast (Nat.not_lt_of_le henough)
  | right op base =>
    cases op with
    | plus | minus | times | divide => exact absurd hleast (Nat.not_lt_of_le henough)
    | power =>
      change 3 ≤ part.level at henough
      change part.level < 4 at hleast
      cases part with
      | negate operand => exact ⟨base, operand, rfl, rfl, rfl, rfl⟩
      | number | name | call => simp [level, atomLevel] at hleast
      | binary inner =>
        cases inner with
        | plus | minus | times | divide => simp [level, Operator.level] at henough
        | power => simp [level, Operator.level] at hleast

theorem argument_toList (function : String) (before after : List Expr) (cs : List Char) :
    (function.toList ++ '(' :: before.flatMap fun a => a.text.toList ++ [',', ' ']) ++
        (cs ++ ((after.flatMap fun a => [',', ' '] ++ a.text.toList) ++ [')'])) =
      function.toList ++ '(' :: ([',', ' '].intercalate (before.map (fun a => a.text.toList) ++
        cs :: after.map fun a => a.text.toList) ++ [')']) := by
  rw [intercalate_append_cons]
  simp [List.flatMap_map]

theorem text_eq (hp : OperandAt tree least enough part front back) :
    tree.text.toList = front ++
      ((opened least part.level ++ (part.text.toList ++ closed least part.level)) ++ back) := by
  rw [← guarded_toList]
  cases hp with
  | operand => rw [text_negate_toList, List.append_nil, List.singleton_append]
  | left => rw [text_binary_toList, List.nil_append]
  | right => rw [text_binary_toList, List.append_nil, List.append_assoc]
  | argument =>
    rw [text_call_toList, List.map_append, List.map_cons, guarded, if_neg (Nat.not_lt_zero _),
      argument_toList]

theorem opens (hp : OperandAt tree least enough part front back) (h : tree.WellFormed) :
    ∃ before after before' after', before.length = before'.length ∧
      tree.groups = before' ++ (surround enough part.level part.groups ++ after') ∧
      ∀ {cs counts}, Opens (wordsOf cs) counts →
        Opens (wordsOf (front ++ (cs ++ back))) (before ++ (counts ++ after)) := by
  cases hp with
  | operand =>
    refine ⟨[0], [], [0], [], rfl, by simp [groups], fun hcs => ?_⟩
    rw [List.append_nil, List.append_nil]
    exact wordsOf_sign .minus _ ▸ hcs.negative
  | left op part right =>
    obtain ⟨m, hright⟩ := WellFormed.derives_guarded h.2 op.rightLevel
    obtain ⟨counts, hcounts, -⟩ := hright.opens
    refine ⟨[], counts, [], _, rfl, by rw [groups, List.nil_append], fun hcs => ?_⟩
    rw [List.nil_append, List.nil_append, wordsOf_infix]
    exact hcs.binary hcounts op
  | right op left part =>
    obtain ⟨n, hleft⟩ := WellFormed.derives_guarded h.1 op.leftLevel
    obtain ⟨counts, hcounts, hle⟩ := hleft.opens
    refine ⟨counts, [], surround op.leftLevel left.level left.groups, [], ?_, ?_, fun hcs => ?_⟩
    · rw [← hle.length_eq, length_surround, length_surround]
    · rw [groups, List.append_nil]
    · rw [List.append_nil, List.append_nil, List.append_assoc, wordsOf_infix]
      exact hcounts.binary hcs op
  | argument function before part after =>
    have hall := everyIn_iff.mp h.2
    obtain ⟨ps, hps, hlength⟩ := exists_counts fun a ha => hall a (List.mem_append_left _ ha)
    obtain ⟨qs, hqs, -⟩ :=
      exists_counts (show ∀ a ∈ after, a.WellFormed from fun a ha => hall a (by simp [ha]))
    refine ⟨0 :: ps.flatten, qs.flatten, 0 :: groupsIn before, groupsIn after, ?_, ?_, ?_⟩
    · rw [List.length_cons, List.length_cons, hlength]
    · simp [groups, groupsIn_append, groupsIn, surround]
    · intro cs counts hcs
      have hcall := opens_call function (List.rel_append hps (.cons hcs hqs))
      rw [List.flatten_append, List.flatten_cons] at hcall
      rw [argument_toList, wordsOf_call h.1, List.map_append, List.map_cons, List.map_map,
        List.map_map]
      exact hcall

end OperandAt

end Expr

end BlendPlot
