import BlendPlot.Proofs.Operands

namespace BlendPlot

namespace Expr

/-- Constants are finite, of any sign, and names are identifiers. -/
def Printable (tree : Expr) : Prop :=
  tree.Every (fun value => value.isFinite) IsIdentifier

/-- There may be a sign before a number, and before the base of a power. -/
def textLevel : Expr → Nat
  | name _ | call _ _ => atomLevel
  | tree => min tree.level signLevel

theorem min_level_le_textLevel (tree : Expr) : min tree.level signLevel ≤ tree.textLevel := by
  cases tree with
  | name | call => exact Nat.min_le_left _ _
  | number | negate | binary => exact Nat.le_refl _

theorem textLevel_of_atomic {tree : Expr} (hnumber : ∀ value, tree ≠ number value)
    (h : atomLevel ≤ tree.level) : tree.textLevel = atomLevel := by
  cases tree with
  | number value => exact absurd rfl (hnumber value)
  | name | call => rfl
  | negate => simp [level, signLevel, atomLevel] at h
  | binary op => cases op <;> simp [level, Operator.level, atomLevel] at h

def Reads (tree : Expr) : Prop :=
  ∃ t n, Derives (.ofLevel tree.textLevel) (wordsOf tree.text.toList) t n

theorem Reads.guarded {tree : Expr} (h : tree.Reads) (least : Nat) :
    ∃ t n, Derives (.ofLevel (min least signLevel))
      (wordsOf (Expr.guarded least tree.level tree.text).toList) t n := by
  obtain ⟨t, n, hderives⟩ := h
  have hgroup := derives_enclosed hderives fun hlevel : least ≤ tree.level =>
    (min_le_min_right signLevel hlevel).trans tree.min_level_le_textLevel
  rw [← guarded_toList] at hgroup
  exact ⟨t, _, hgroup⟩

theorem exists_digits {value : Float} (h : value.isFinite) :
    ∃ digits t n, Derives .primary (wordsOf digits) t n ∧
      ((number value).text.toList = digits ∨ (number value).text.toList = '-' :: digits) := by
  obtain ⟨negative, whole, fraction, hnum, -, htext, -⟩ := plain_text_toList h
  refine ⟨_, _, 1, wordsOf_spelling hnum ▸ Derives.number rfl, ?_⟩
  rw [text, htext]
  cases negative with
  | false => exact Or.inl rfl
  | true => exact Or.inr rfl

/-- The base of a power is atomic, but for the sign of a constant. -/
theorem Reads.base {base : Expr} (h : base.Reads) (hb : base.Printable) :
    ∃ cs t n, Derives .primary (wordsOf cs) t n ∧
      ((Expr.guarded Operator.power.leftLevel base.level base.text).toList = cs ∨
        (Expr.guarded Operator.power.leftLevel base.level base.text).toList = '-' :: cs) := by
  obtain ⟨t, n, hderives⟩ := h
  cases base with
  | number value => exact exists_digits hb
  | name | call => exact ⟨_, t, n, hderives, Or.inl rfl⟩
  | negate | binary =>
    have hgroup := derives_enclosed hderives fun hlevel : Operator.power.leftLevel ≤ _ =>
      (textLevel_of_atomic (by simp) hlevel).ge
    rw [← guarded_toList] at hgroup
    exact ⟨_, t, _, hgroup, Or.inl rfl⟩

theorem exists_readings {args : List Expr} (h : ∀ a ∈ args, a.Reads) :
    ∃ pieces : List Piece,
      pieces.map (·.words) = args.map (fun a => wordsOf a.text.toList) ∧
      ∀ p ∈ pieces, Derives .expression p.words p.tree p.nesting := by
  induction args with
  | nil => exact ⟨[], rfl, nofun⟩
  | cons a as ih =>
    obtain ⟨t, n, hderives⟩ := h a List.mem_cons_self
    obtain ⟨pieces, hwords, hp⟩ := ih fun d hd => h d (List.mem_cons_of_mem a hd)
    refine ⟨⟨wordsOf a.text.toList, t, n⟩ :: pieces, ?_, List.forall_mem_cons.mpr ⟨?_, hp⟩⟩
    · rw [List.map_cons, List.map_cons, hwords]
    · exact hderives.loosen (Category.expression_level_le _)

namespace OperandAt

variable {tree part : Expr} {least enough : Nat} {front back : List Char}

/-- What is read in a place is an operand of what is read as a whole. -/
theorem reads (hp : OperandAt tree least enough part front back) (h : tree.Printable)
    (hreads : ∀ {least enough other front back}, OperandAt tree least enough other front back →
      other.Reads) :
    ∃ (whole : Expr → Expr) (depth : Nat → Nat), Monotone depth ∧
      ∀ {t n cs}, Derives (.ofLevel enough) (wordsOf cs) t n →
        Derives (.ofLevel tree.textLevel) (wordsOf (front ++ (cs ++ back))) (whole t)
          (depth n) := by
  cases hp with
  | operand =>
    refine ⟨.negate, (· + 1), fun _ _ => Nat.succ_le_succ, fun hcs => ?_⟩
    rw [List.append_nil]
    exact wordsOf_sign .minus _ ▸ .negative hcs
  | left op part right =>
    obtain ⟨other, m, hright⟩ := (hreads (.right op part right)).guarded op.rightLevel
    refine ⟨(.binary op · other), fun n => max n (m + 1), fun _ _ hn => max_le_max_right _ hn,
      fun hcs => ?_⟩
    rw [List.nil_append, wordsOf_infix]
    exact (hcs.binary hright).loosen (Category.ofLevel_level_mono (Nat.min_le_left _ _))
  | right op left part =>
    have hleft := hreads (.left op left part)
    by_cases hop : op.leftLevel ≤ signLevel
    · obtain ⟨other, n, hother⟩ := hleft.guarded op.leftLevel
      rw [Nat.min_eq_left hop] at hother
      refine ⟨.binary op other, fun m => max n (m + 1),
        fun _ _ hm => max_le_max_left _ (Nat.succ_le_succ hm), fun hcs => ?_⟩
      rw [List.append_nil, List.append_assoc, wordsOf_infix]
      exact (hother.binary hcs).loosen (Category.ofLevel_level_mono (Nat.min_le_left _ _))
    · obtain rfl : op = .power := by
        cases op with
        | power => rfl
        | plus | minus | times | divide => exact absurd (by decide) hop
      obtain ⟨digits, base, n, hbase, htext | htext⟩ := hleft.base h.1
      · refine ⟨.binary .power base, fun m => max n (m + 1),
          fun _ _ hm => max_le_max_left _ (Nat.succ_le_succ hm), fun hcs => ?_⟩
        rw [List.append_nil, List.append_assoc, wordsOf_infix, htext]
        exact .ofPower (.power hbase hcs)
      · -- the sign is read after the power
        refine ⟨fun t => .negate (.binary .power base t), fun m => max n (m + 1) + 1,
          fun _ _ hm => Nat.succ_le_succ (max_le_max_left _ (Nat.succ_le_succ hm)), fun hcs => ?_⟩
        rw [List.append_nil, List.append_assoc, htext, List.cons_append,
          show wordsOf ('-' :: _) = _ from wordsOf_sign .minus _, wordsOf_infix]
        exact .negative (.ofPower (.power hbase hcs))
  | argument function before part after =>
    have hall : ∀ a ∈ before ++ part :: after, a.Reads := by
      intro a ha
      obtain ⟨others, more, hargs⟩ := List.append_of_mem ha
      rw [hargs] at hreads
      exact hreads (.argument function others a more)
    obtain ⟨ps, hps, hpsDerives⟩ := exists_readings fun a ha => hall a (List.mem_append_left _ ha)
    obtain ⟨qs, hqs, hqsDerives⟩ :=
      exists_readings (show ∀ a ∈ after, a.Reads from fun a ha => hall a (by simp [ha]))
    refine ⟨fun t => .call function (ps.map (·.tree) ++ t :: qs.map (·.tree)),
      fun n => max (Piece.deepest ps) (max n (Piece.deepest qs)) + 1, ?_, ?_⟩
    · intro n m hn
      exact Nat.succ_le_succ (max_le_max_left _ (max_le_max_right _ hn))
    · intro t n cs hcs
      have hpieces : ∀ p ∈ ps ++ ⟨wordsOf cs, t, n⟩ :: qs,
          Derives .expression p.words p.tree p.nesting := by
        intro p hp
        rcases List.mem_append.mp hp with hp | hp
        · exact hpsDerives p hp
        · rcases List.mem_cons.mp hp with rfl | hp
          · exact hcs
          · exact hqsDerives p hp
      have hcall := Derives.call function hpieces
      rw [Piece.deepest_append, Piece.deepest, Piece.listed, List.map_append, List.map_append,
        List.map_cons, List.map_cons, hps, hqs] at hcall
      rw [argument_toList, wordsOf_call h.1, List.map_append, List.map_cons, List.map_map,
        List.map_map]
      exact hcall

/-- Without parentheses an operand binds tightly enough, but for the sign of a base. -/
theorem enough_le_textLevel (hp : OperandAt tree least enough part front back)
    (hpart : ∀ value, part ≠ number value) (hlevel : least ≤ part.level) :
    enough ≤ part.textLevel := by
  have hcases : enough ≤ signLevel ∨ enough = atomLevel ∧ atomLevel ≤ part.level := by
    cases hp with
    | operand | argument => exact Or.inl (by decide)
    | right => exact Or.inl (Nat.min_le_right _ _)
    | left op =>
      cases op with
      | plus | minus | times | divide => exact Or.inl (by decide)
      | power => exact Or.inr ⟨rfl, hlevel⟩
  rcases hcases with hsign | ⟨rfl, hatomic⟩
  · exact (le_min (hp.enough_le.trans hlevel) hsign).trans part.min_level_le_textLevel
  · exact (textLevel_of_atomic hpart hatomic).ge

end OperandAt

theorem Printable.reads {tree : Expr} (h : tree.Printable) : tree.Reads := by
  induction tree using induction_operands with
  | step tree ih =>
    have hwhole {least part front back}
        (hp : OperandAt tree least (min least signLevel) part front back) : tree.Reads := by
      obtain ⟨whole, depth, -, hderives⟩ := hp.reads h fun hp => ih hp (hp.every h)
      obtain ⟨t, n, hpart⟩ := Reads.guarded (ih hp (hp.every h)) least
      refine ⟨whole t, depth n, ?_⟩
      rw [hp.text_eq, ← guarded_toList]
      exact hderives hpart
    cases tree with
    | number value =>
      obtain ⟨digits, t, n, hderives, htext | htext⟩ := exists_digits h
      · exact ⟨t, n, htext ▸ hderives.loosen (Category.level_le_primary _)⟩
      · refine ⟨.negate t, n + 1, ?_⟩
        rw [htext]
        exact wordsOf_sign .minus digits ▸ .negative (hderives.loosen (by decide))
    | name id =>
      refine ⟨.name id, 1, ?_⟩
      rw [text, wordsOf_identifier h]
      exact .name id
    | negate operand => exact hwhole (.operand operand)
    | binary op left right => exact hwhole (.right op left right)
    | call function arguments =>
      cases arguments with
      | nil =>
        refine ⟨.call function [], 1, ?_⟩
        rw [text_call_toList, wordsOf_call h.1]
        exact @Derives.call function [] fun _ ha => absurd ha List.not_mem_nil
      | cons a as => exact hwhole (.argument function [] a as)

end Expr

end BlendPlot
