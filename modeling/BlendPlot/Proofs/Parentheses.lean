import BlendPlot.Proofs.Pairs
import BlendPlot.Proofs.SignedConstants

namespace BlendPlot

namespace Expr

/-- The parentheses around `inside` are those of a negation that is the right operand of a power. -/
inductive SignedExponent : Expr → (before inside after : List Char) → Prop where
  | exponent (base operand : Expr) :
      SignedExponent (.binary .power base (.negate operand))
        ((guarded Operator.power.leftLevel base.level base.text).toList ++ ['^'])
        (negate operand).text.toList []
  | within {tree part : Expr} {least enough : Nat} {front back before inside after : List Char}
      (hp : OperandAt tree least enough part front back)
      (h : SignedExponent part before inside after) :
      SignedExponent tree (front ++ (opened least part.level ++ before)) inside
        ((after ++ closed least part.level) ++ back)

theorem SignedExponent.getLast? {tree : Expr} {before inside after : List Char}
    (h : SignedExponent tree before inside after) : before.getLast? = some '^' := by
  induction h with
  | exponent => simp
  | within _ _ ih => simp [List.getLast?_append, ih]

theorem SignedExponent.ne_number {tree : Expr} {before inside after : List Char}
    (h : SignedExponent tree before inside after) (value : Float) : tree ≠ number value := by
  rintro rfl
  cases h with
  | within hp => cases hp

theorem SignedExponent.reads {tree : Expr} {before inside after : List Char}
    (h : SignedExponent tree before inside after) (htree : tree.Printable) :
    ∃ t n m, m ≤ n ∧ Derives (.ofLevel tree.textLevel) (wordsOf tree.text.toList) t n ∧
      Derives (.ofLevel tree.textLevel) (wordsOf (before ++ (inside ++ after))) t m := by
  induction h with
  | exponent base operand =>
    have hp := OperandAt.right .power base (.negate operand)
    obtain ⟨whole, depth, hmono, hderives⟩ := hp.reads htree fun hp => Printable.reads (hp.every htree)
    obtain ⟨t, n, hoperand⟩ := Printable.reads (hp.every htree)
    have hgroup := derives_enclosed hoperand (hp.enough_le_textLevel (by simp))
    refine ⟨whole t, _, _, hmono (Nat.le_succ n), ?_, hderives hoperand⟩
    rw [hp.text_eq]
    exact hderives hgroup
  | @within tree part least enough front back before inside after hp hpart ih =>
    obtain ⟨t, n, m, hle, hprinted, hbare⟩ := ih (hp.every htree)
    obtain ⟨whole, depth, hmono, hderives⟩ := hp.reads htree fun hp => Printable.reads (hp.every htree)
    have henough := hp.enough_le_textLevel hpart.ne_number
    have hgroup := derives_enclosed hprinted henough
    have hgroup' := derives_enclosed hbare henough
    have htext : front ++ (opened least part.level ++ before) ++
        (inside ++ (after ++ closed least part.level ++ back)) =
        front ++ ((opened least part.level ++ ((before ++ (inside ++ after)) ++
          closed least part.level)) ++ back) := by
      simp
    refine ⟨whole t, _, _, hmono ?_, hp.text_eq ▸ hderives hgroup, htext ▸ hderives hgroup'⟩
    split <;> omega

theorem opens_enclosed {cs : List Char} {counts : List Nat} (h : Opens (wordsOf cs) counts)
    (least level : Nat) :
    Opens (wordsOf (opened least level ++ (cs ++ closed least level)))
      (surround least level counts) := by
  unfold opened closed surround
  split
  next =>
    rw [List.singleton_append, wordsOf_group]
    exact h.group
  next => rwa [List.nil_append, List.append_nil]

theorem head?_surround {counts asked : List Nat} (h : counts.head? = asked.head?)
    (least level : Nat) :
    (surround least level counts).head? = (surround least level asked).head? := by
  unfold surround
  split
  next => cases counts <;> cases asked <;> simp_all [raise]
  next => exact h

theorem WellFormed.head?_counts {tree : Expr} (h : tree.WellFormed) {counts : List Nat}
    (hcounts : Opens (wordsOf tree.text.toList) counts) :
    counts.head? = tree.groups.head? := by
  induction tree using induction_parts generalizing counts with
  | number value =>
    obtain ⟨whole, fraction, hnum, htext, -⟩ := plain_text_eq_spelling h.1 h.2
    rw [text, htext, wordsOf_spelling hnum] at hcounts
    rw [← hcounts.eq_openings]
    rfl
  | name id =>
    rw [text, wordsOf_identifier h] at hcounts
    rw [← hcounts.eq_openings]
    rfl
  | negate operand ih =>
    rw [text_negate_toList] at hcounts
    rw [← hcounts.eq_openings]
    exact wordsOf_sign .minus _ ▸ rfl
  | binary op left right ihl ihr =>
    obtain ⟨n, hleft⟩ := WellFormed.derives h.1
    obtain ⟨m, hright⟩ := WellFormed.derives_guarded h.2 op.rightLevel
    obtain ⟨leftCounts, hl, -⟩ := hleft.opens
    obtain ⟨rightCounts, hr, -⟩ := hright.opens
    have hguarded := opens_enclosed hl op.leftLevel left.level
    have hbinary := hguarded.binary hr op
    rw [← guarded_toList, ← wordsOf_infix, ← text_binary_toList] at hbinary
    have hhead := head?_surround (ihl h.1 hl) op.leftLevel left.level
    obtain ⟨x, xs, hcons⟩ := List.exists_cons_of_ne_nil hguarded.ne_nil
    rw [← hcounts.eq_openings, hbinary.eq_openings, groups, List.head?_append, List.head?_append,
      ← hhead, hcons]
    rfl
  | call function arguments ih =>
    rw [text_call_toList, wordsOf_call h.1] at hcounts
    rw [← hcounts.eq_openings]
    rfl

/-- Without the pair around it, an operand that is too loose for its place falls short. -/
theorem WellFormed.short_of_bare {tree : Expr} (h : tree.WellFormed) {enough : Nat}
    (hlevel : tree.level < enough) {counts : List Nat}
    (hcounts : Opens (wordsOf tree.text.toList) counts) :
    Short counts (surround enough tree.level tree.groups) := by
  have hhead := h.head?_counts hcounts
  obtain ⟨x, xs, rfl⟩ := List.exists_cons_of_ne_nil hcounts.ne_nil
  obtain ⟨ys, hgroups⟩ := List.head?_eq_some_iff.mp hhead.symm
  rw [surround, if_pos hlevel, hgroups]
  exact ⟨0, x, x + 1, rfl, rfl, Nat.lt_succ_self x⟩

theorem OperandAt.short {tree part : Expr} {least enough : Nat} {front back : List Char}
    (hp : OperandAt tree least enough part front back) {counts : List Nat}
    (h : Short counts part.groups) :
    Short (surround least part.level counts) (surround enough part.level part.groups) := by
  have hle := hp.enough_le
  unfold surround
  by_cases hleast : part.level < least
  · rw [if_pos hleast]
    split
    next => exact h.raised 1
    next henough =>
      -- the printed group is one more than asked for, but before a sign, where nothing falls short
      obtain ⟨base, operand, -, rfl, -⟩ := hp.exponent (Nat.le_of_not_lt henough) hleast
      exact h.raised_of_zero rfl 1
  · rw [if_neg hleast, if_neg (by omega)]
    exact h

/-- A pair that groups is the exception, or some operand has too few groups without it. -/
theorem WellFormed.signedExponent_or_short {tree : Expr} (h : tree.WellFormed)
    {before inside after : List Char} (hp : GroupingPair tree.text.toList before inside after) :
    SignedExponent tree before inside after ∨
      ∃ counts, Opens (wordsOf (before ++ (inside ++ after))) counts ∧
        Short counts tree.groups := by
  induction tree using induction_operands generalizing before inside after with
  | step tree ih =>
    obtain ⟨least, enough, part, front, back, b, a, hplace, rfl, rfl, hpair⟩ :=
      exists_operandAt h hp
    have hpart : part.WellFormed := hplace.every h
    obtain ⟨earlier, later, earlier', later', hlength, hgroups, hopens⟩ := hplace.opens h
    have hshort {cs : List Char} {counts : List Nat} (hcs : Opens (wordsOf cs) counts)
        (hcounts : Short counts (surround enough part.level part.groups)) :
        ∃ counts, Opens (wordsOf (front ++ (cs ++ back))) counts ∧ Short counts tree.groups :=
      ⟨_, hopens hcs, hgroups ▸ hcounts.between hlength later later'⟩
    have htext := hpair.text_eq
    rw [guarded_toList] at htext
    rcases pair_in_enclosed hpart.balanced hpair.matching htext with
      ⟨hleast, rfl, rfl, rfl⟩ | ⟨b, a, rfl, rfl, hinner⟩
    · by_cases henough : part.level < enough
      · obtain ⟨n, hderives⟩ := hpart.derives
        obtain ⟨counts, hcounts, -⟩ := hderives.opens
        exact Or.inr (by simpa using hshort hcounts (hpart.short_of_bare henough hcounts))
      · obtain ⟨base, operand, rfl, rfl, rfl, rfl⟩ :=
          hplace.exponent (Nat.le_of_not_lt henough) hleast
        exact Or.inl (by simpa using SignedExponent.exponent base operand)
    · rcases ih hplace hpart (hpair.within hinner) with hexponent | ⟨counts, hcounts, hfalls⟩
      · exact Or.inl (.within hplace hexponent)
      · have hdeleted := hshort (opens_enclosed hcounts least part.level) (hplace.short hfalls)
        exact Or.inr (by simpa using hdeleted)

end Expr

/-- Without a pair that groups, a text does not read as its tree, but for a sign in an exponent. -/
theorem no_superfluous_parentheses (tree : Expr) (h : tree.Printable)
    (before inside after : List Char)
    (hp : Expr.GroupingPair tree.text.toList before inside after) :
    (Expr.SignedExponent tree before inside after →
      ∀ t, Expr.parse tree.text = .ok t →
        Expr.parse (String.ofList (before ++ (inside ++ after))) = .ok t) ∧
    (¬Expr.SignedExponent tree before inside after →
      Expr.parse (String.ofList (before ++ (inside ++ after))) ≠ .ok tree) := by
  have hwords : lexemes (String.ofList (before ++ (inside ++ after))) =
      wordsOf (before ++ (inside ++ after)) := by
    rw [lexemes_eq_wordsOf, String.toList_ofList]
  constructor
  · intro hexponent t ht
    obtain ⟨other, n, m, hle, hprinted, hbare⟩ := hexponent.reads h
    have hprinted : Derives .expression (lexemes tree.text) other n :=
      hprinted.loosen (Category.expression_level_le _)
    have hbare := hbare.loosen (Category.expression_level_le _)
    rw [← hwords] at hbare
    rw [hprinted.parse_eq] at ht
    split at ht
    next hfits =>
      cases ht
      rw [hbare.parse_eq, if_pos ⟨hle.trans hfits.1, hfits.2⟩]
    next => cases ht
  · intro hno hparse
    have hwf := wellFormed_of_parse hparse (h.weaken (fun _ hf => hf) fun _ _ => trivial)
    obtain ⟨counts, hcounts, hshort⟩ := (hwf.signedExponent_or_short hp).resolve_left hno
    obtain ⟨n, hderives, -⟩ := derives_of_parse hparse
    rw [hwords] at hderives
    obtain ⟨others, hothers, hle⟩ := hderives.opens
    rw [← hothers.eq_openings, hcounts.eq_openings] at hle
    exact not_short_of_le (surround_le_of_le (Nat.zero_le _) hle) hshort

theorem no_superfluous_parentheses_of_difference :
    let tree := Expr.binary .minus (.name "a")
      (.binary .minus (.name "b") (.binary .power (.name "y") (.negate (.name "x"))))
    tree.text = "a - (b - y^(-x))" ∧ Expr.parse "a - b - y^(-x)" ≠ .ok tree ∧
      Expr.parse "a - (b - y^-x)" = .ok tree := by
  intro tree
  have htext : tree.text = "a - (b - y^(-x))" := by decide +kernel
  have ha : IsIdentifier "a" := ⟨by decide, by simp; decide⟩
  have hb : IsIdentifier "b" := ⟨by decide, by simp; decide⟩
  have hy : IsIdentifier "y" := ⟨by decide, by simp; decide⟩
  have hx : IsIdentifier "x" := ⟨by decide, by simp; decide⟩
  have hwf : tree.WellFormed := ⟨ha, hb, hy, hx⟩
  have hprintable : tree.Printable := ⟨ha, hb, hy, hx⟩
  have hread : Expr.parse tree.text = .ok tree :=
    hwf.parse_text.resolve_right fun hdeep => absurd hdeep.2 (by decide)
  have hbalanced : Balanced (parentheses "b - y^(-x)".toList) := balanced_nil.enclosed
  have hpair : Expr.GroupingPair tree.text.toList "a - ".toList "b - y^(-x)".toList [] :=
    ⟨by rw [htext]; rfl, hbalanced, by simp; decide⟩
  have hinner : Expr.GroupingPair tree.text.toList "a - (b - y^".toList "-x".toList [')'] :=
    ⟨by rw [htext]; rfl, balanced_nil, by simp; decide⟩
  have hexponent : Expr.SignedExponent tree "a - (b - y^".toList "-x".toList [')'] :=
    .within (.right ..) (.within (.right ..) (.exponent ..))
  have hno : ¬Expr.SignedExponent tree "a - ".toList "b - y^(-x)".toList [] := fun h =>
    absurd h.getLast? (by simp)
  exact ⟨htext, (no_superfluous_parentheses tree hprintable _ _ _ hpair).2 hno,
    (no_superfluous_parentheses tree hprintable _ _ _ hinner).1 hexponent tree hread⟩

end BlendPlot
