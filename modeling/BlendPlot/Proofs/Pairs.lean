import BlendPlot.Proofs.Balance
import BlendPlot.Proofs.Injectivity
import BlendPlot.Proofs.Operands

namespace BlendPlot

def parentheses (cs : List Char) : List Lexeme :=
  cs.filterMap fun c =>
    if c = '(' then some .opening else if c = ')' then some .closing else none

theorem parentheses_append (lefts rights : List Char) :
    parentheses (lefts ++ rights) = parentheses lefts ++ parentheses rights :=
  List.filterMap_append

theorem parentheses_opening (cs : List Char) :
    parentheses ('(' :: cs) = .opening :: parentheses cs := rfl

theorem parentheses_closing (cs : List Char) :
    parentheses (')' :: cs) = .closing :: parentheses cs := rfl

theorem balanced_of_not_mem {cs : List Char} (ho : '(' ∉ cs) (hc : ')' ∉ cs) :
    Balanced (parentheses cs) := by
  have hnone : parentheses cs = [] := by
    refine List.filterMap_eq_nil_iff.mpr fun c hmem => ?_
    have hopening : c ≠ '(' := fun h => ho (h ▸ hmem)
    have hclosing : c ≠ ')' := fun h => hc (h ▸ hmem)
    rw [if_neg hopening, if_neg hclosing]
  rw [hnone]
  exact balanced_nil

section

variable {text lefts rights before inside after : List Char}

theorem opening_mem_of_pair (h : text = before ++ '(' :: (inside ++ ')' :: after)) :
    '(' ∈ text := by
  rw [h]
  simp

/-- Of two texts, one of which is balanced, one has the whole pair. -/
theorem pair_in_append (hlefts : Balanced (parentheses lefts))
    (hinside : Balanced (parentheses inside))
    (h : lefts ++ rights = before ++ '(' :: (inside ++ ')' :: after)) :
    (∃ rest, lefts = before ++ '(' :: (inside ++ ')' :: rest) ∧ after = rest ++ rights) ∨
      ∃ rest, before = lefts ++ rest ∧ rights = rest ++ '(' :: (inside ++ ')' :: after) := by
  have hopen {front : List Char} (hl : lefts = before ++ '(' :: front)
      (hfront : (parentheses front).count .closing ≤ (parentheses front).count .opening) :
      False := by
    rw [hl, parentheses_append, parentheses_opening] at hlefts
    exact hlefts.not_open hfront
  rcases List.append_eq_append_iff.mp h with ⟨rest, hbefore, hrights⟩ | ⟨mid, hl, hmid⟩
  · exact Or.inr ⟨rest, hbefore, hrights⟩
  · cases mid with
    | nil => exact Or.inr ⟨[], by simp [hl], hmid.symm⟩
    | cons c front =>
      obtain ⟨rfl, hfront⟩ := List.cons.inj hmid
      rcases List.append_eq_append_iff.mp hfront with ⟨tail, rfl, htail⟩ | ⟨tail, rfl, htail⟩
      · cases tail with
        | nil => exact (hopen (by simpa using hl) hinside.whole.le).elim
        | cons d rest =>
          obtain ⟨rfl, hafter⟩ := List.cons.inj htail
          exact Or.inl ⟨rest, hl, hafter⟩
      · refine (hopen hl ?_).elim
        have hle := hinside.front (parentheses front).length
        rwa [parentheses_append, List.take_left] at hle

theorem pair_in_group (htext : Balanced (parentheses text))
    (hinside : Balanced (parentheses inside))
    (h : '(' :: (text ++ [')']) = before ++ '(' :: (inside ++ ')' :: after)) :
    (before = [] ∧ inside = text ∧ after = []) ∨
      ∃ b a, before = '(' :: b ∧ after = a ++ [')'] ∧ text = b ++ '(' :: (inside ++ ')' :: a) := by
  cases before with
  | nil =>
    obtain ⟨-, h⟩ := List.cons.inj h
    rcases List.append_eq_append_iff.mp h with ⟨rest, rfl, hrest⟩ | ⟨rest, rfl, hrest⟩
    · cases rest with
      | nil =>
        obtain ⟨-, rfl⟩ := List.cons.inj hrest
        exact Or.inl ⟨rfl, by simp, rfl⟩
      | cons c rest => simp at hrest
    · cases rest with
      | nil =>
        obtain ⟨-, rfl⟩ := List.cons.inj hrest
        exact Or.inl ⟨rfl, by simp, rfl⟩
      | cons c rest =>
        -- the text would close its group before it ends
        obtain ⟨rfl, -⟩ := List.cons.inj hrest
        have hfront := htext.front ((parentheses inside).length + 1)
        rw [parentheses_append, parentheses_closing, List.take_length_add_append] at hfront
        simp [hinside.whole] at hfront
  | cons c b =>
    obtain ⟨rfl, hrest⟩ := List.cons.inj h
    rcases pair_in_append htext hinside hrest with ⟨rest, htext, hafter⟩ | ⟨rest, -, hrest⟩
    · exact Or.inr ⟨b, rest, rfl, hafter, htext⟩
    · exact absurd (opening_mem_of_pair hrest) (by decide)

theorem pair_in_intercalate {parts : List (List Char)}
    (hparts : ∀ part ∈ parts, Balanced (parentheses part)) (hinside : Balanced (parentheses inside))
    (h : [',', ' '].intercalate parts = before ++ '(' :: (inside ++ ')' :: after)) :
    ∃ earlier part later b a, parts = earlier ++ part :: later ∧
      before = earlier.flatMap (· ++ [',', ' ']) ++ b ∧
      after = a ++ later.flatMap ([',', ' '] ++ ·) ∧ part = b ++ '(' :: (inside ++ ')' :: a) := by
  induction parts generalizing before with
  | nil => simp at h
  | cons part parts ih =>
    obtain ⟨hpart, hmore⟩ := List.forall_mem_cons.mp hparts
    have hsplit := intercalate_append_cons [',', ' '] [] part parts
    rw [List.nil_append, List.flatMap_nil, List.nil_append] at hsplit
    rw [hsplit] at h
    rcases pair_in_append hpart hinside h with ⟨a, hl, hafter⟩ | ⟨rest, rfl, hrest⟩
    · exact ⟨[], part, parts, before, a, rfl, rfl, hafter, hl⟩
    · cases parts with
      | nil => simp at hrest
      | cons other parts =>
        have htail : (other :: parts).flatMap ([',', ' '] ++ ·) =
            [',', ' '] ++ [',', ' '].intercalate (other :: parts) := by
          have hothers := intercalate_append_cons [',', ' '] [] other parts
          rw [List.nil_append, List.flatMap_nil, List.nil_append] at hothers
          rw [List.flatMap_cons, hothers, List.append_assoc]
        rw [htail] at hrest
        have hcomma : Balanced (parentheses [',', ' ']) := balanced_nil
        rcases pair_in_append hcomma hinside hrest with ⟨a, hl, -⟩ | ⟨rest, rfl, hothers⟩
        · exact absurd (opening_mem_of_pair hl) (by decide)
        · obtain ⟨earlier, mid, later, b, a, hcons, rfl, hafter, hmid⟩ := ih hmore hothers
          refine ⟨part :: earlier, mid, later, b, a, by rw [hcons, List.cons_append], ?_, hafter,
            hmid⟩
          simp

end

namespace Expr

theorem not_mem_number {value : Float} :
    '(' ∉ (number value).text.toList ∧ ')' ∉ (number value).text.toList :=
  ⟨fun hc => absurd (isNumberChar_of_mem_text value _ hc) (by decide),
    fun hc => absurd (isNumberChar_of_mem_text value _ hc) (by decide)⟩

theorem not_mem_identifier {id : String} (h : IsIdentifier id) :
    '(' ∉ id.toList ∧ ')' ∉ id.toList :=
  ⟨fun hc => absurd (h.2 _ hc) (by decide), fun hc => absurd (h.2 _ hc) (by decide)⟩

theorem not_mem_operator (op : Operator) :
    '(' ∉ (infixText op).toList ∧ ')' ∉ (infixText op).toList := by
  cases op <;> decide

theorem balanced_guarded {least level : Nat} {text : String}
    (h : Balanced (parentheses text.toList)) :
    Balanced (parentheses (guarded least level text).toList) := by
  rw [guarded_toList]
  unfold opened closed
  split
  next =>
    rw [List.singleton_append, parentheses_opening, parentheses_append, parentheses_closing]
    exact h.enclosed
  next => rwa [List.nil_append, List.append_nil]

theorem balanced_intercalate {parts : List (List Char)}
    (h : ∀ part ∈ parts, Balanced (parentheses part)) :
    Balanced (parentheses ([',', ' '].intercalate parts)) := by
  induction parts with
  | nil => exact balanced_nil
  | cons part parts ih =>
    obtain ⟨hpart, hmore⟩ := List.forall_mem_cons.mp h
    cases parts with
    | nil => simpa using hpart
    | cons other parts =>
      rw [List.intercalate_cons_cons, parentheses_append, parentheses_append]
      exact (hpart.append balanced_nil).append (ih hmore)

theorem WellFormed.balanced {tree : Expr} (h : tree.WellFormed) :
    Balanced (parentheses tree.text.toList) := by
  induction tree using induction_parts with
  | number value => exact balanced_of_not_mem not_mem_number.1 not_mem_number.2
  | name id => exact balanced_of_not_mem (not_mem_identifier h).1 (not_mem_identifier h).2
  | negate operand ih =>
    rw [text_negate_toList]
    exact balanced_guarded (ih h)
  | binary op left right ihl ihr =>
    have hmiddle := balanced_of_not_mem (not_mem_operator op).1 (not_mem_operator op).2
    rw [text_binary_toList, parentheses_append, parentheses_append]
    exact (balanced_guarded (ihl h.1)).append (hmiddle.append (balanced_guarded (ihr h.2)))
  | call function arguments ih =>
    have hname := not_mem_identifier h.1
    have hargs : ∀ part ∈ arguments.map fun a => a.text.toList, Balanced (parentheses part) := by
      intro part hpart
      obtain ⟨a, ha, rfl⟩ := List.mem_map.mp hpart
      exact ih a ha (everyIn_iff.mp h.2 a ha)
    rw [text_call_toList, parentheses_append, parentheses_opening, parentheses_append]
    exact (balanced_of_not_mem hname.1 hname.2).append (balanced_intercalate hargs).enclosed

/-- Of an operand, a pair is the one around it or one of its own. -/
theorem pair_in_enclosed {least level : Nat} {text before inside after : List Char}
    (htext : Balanced (parentheses text)) (hinside : Balanced (parentheses inside))
    (h : opened least level ++ (text ++ closed least level) =
      before ++ '(' :: (inside ++ ')' :: after)) :
    (level < least ∧ before = [] ∧ inside = text ∧ after = []) ∨
      ∃ b a, before = opened least level ++ b ∧ after = a ++ closed least level ∧
        text = b ++ '(' :: (inside ++ ')' :: a) := by
  unfold opened closed at h ⊢
  split
  next hlevel =>
    rw [if_pos hlevel, if_pos hlevel] at h
    exact (pair_in_group htext hinside h).imp_left fun hall => ⟨hlevel, hall⟩
  next hlevel =>
    rw [if_neg hlevel, if_neg hlevel, List.nil_append, List.append_nil] at h
    exact Or.inr ⟨before, after, rfl, by rw [List.append_nil], h⟩

/-- The parentheses around `inside` are a pair in a text, and not that of a call. -/
structure GroupingPair (text before inside after : List Char) : Prop where
  text_eq : text = before ++ '(' :: (inside ++ ')' :: after)
  matching : Balanced (parentheses inside)
  grouping : ∀ c ∈ before.getLast?, isIdentifierChar c = false

theorem GroupingPair.within {text other front before inside after rest : List Char}
    (h : GroupingPair text (front ++ before) inside after)
    (hother : other = before ++ '(' :: (inside ++ ')' :: rest)) :
    GroupingPair other before inside rest := by
  refine ⟨hother, h.matching, fun c hc => h.grouping c ?_⟩
  rw [List.getLast?_append, Option.mem_def.mp hc]
  rfl

/-- A pair that groups lies in the place of an operand. -/
theorem exists_operandAt {tree : Expr} (h : tree.WellFormed) {before inside after : List Char}
    (hp : GroupingPair tree.text.toList before inside after) :
    ∃ least enough part front back b a, OperandAt tree least enough part front back ∧
      before = front ++ b ∧ after = a ++ back ∧
      GroupingPair (guarded least part.level part.text).toList b inside a := by
  have htext := hp.text_eq
  have hinside := hp.matching
  cases tree with
  | number value => exact absurd (opening_mem_of_pair htext) not_mem_number.1
  | name id => exact absurd (opening_mem_of_pair htext) (not_mem_identifier h).1
  | negate operand =>
    have hsign : Balanced (parentheses ['-']) := balanced_nil
    rw [text_negate_toList, ← List.singleton_append] at htext
    rcases pair_in_append hsign hinside htext with ⟨a, hl, -⟩ | ⟨b, rfl, hrest⟩
    · exact absurd (opening_mem_of_pair hl) (by decide)
    · exact ⟨_, _, operand, ['-'], [], b, after, .operand operand, rfl, by simp, hp.within hrest⟩
  | binary op left right =>
    have hleft : Balanced (parentheses (guarded op.leftLevel left.level left.text).toList) :=
      balanced_guarded (WellFormed.balanced h.1)
    rw [text_binary_toList] at htext
    rcases pair_in_append hleft hinside htext with ⟨a, hl, rfl⟩ | ⟨rest, rfl, hrest⟩
    · exact ⟨_, _, left, [], _, before, a, .left op left right, rfl, rfl, hl, hinside, hp.grouping⟩
    · have hmiddle := balanced_of_not_mem (not_mem_operator op).1 (not_mem_operator op).2
      rcases pair_in_append hmiddle hinside hrest with ⟨a, hl, -⟩ | ⟨b, rfl, hright⟩
      · exact absurd (opening_mem_of_pair hl) (not_mem_operator op).1
      · rw [← List.append_assoc] at hp ⊢
        exact ⟨_, _, right, _, [], b, after, .right op left right, rfl, by simp, hp.within hright⟩
  | call function arguments =>
    have hname := not_mem_identifier h.1
    have hargs : ∀ part ∈ arguments.map fun a => a.text.toList, Balanced (parentheses part) := by
      intro part hpart
      obtain ⟨a, ha, rfl⟩ := List.mem_map.mp hpart
      exact WellFormed.balanced (everyIn_iff.mp h.2 a ha)
    rw [text_call_toList] at htext
    rcases pair_in_append (balanced_of_not_mem hname.1 hname.2) hinside htext with
      ⟨a, hl, -⟩ | ⟨rest, rfl, hrest⟩
    · exact absurd (opening_mem_of_pair hl) hname.1
    · rcases pair_in_group (balanced_intercalate hargs) hinside hrest with
        ⟨rfl, -, -⟩ | ⟨b, a, rfl, rfl, htexts⟩
      · -- the pair of the call itself stands after a name
        obtain ⟨hne, hletters⟩ := h.1
        have hlast := List.getLast_mem hne
        have hno := hp.grouping (function.toList.getLast hne) (by
          rw [List.append_nil, List.getLast?_eq_some_getLast hne]
          rfl)
        rw [hletters _ hlast] at hno
        cases hno
      · obtain ⟨earlier, mid, later, b, a, hparts, rfl, rfl, hmid⟩ :=
          pair_in_intercalate hargs hinside htexts
        obtain ⟨before, others, rfl, rfl, hothers⟩ := List.map_eq_append_iff.mp hparts
        obtain ⟨part, after, rfl, rfl, rfl⟩ := List.map_eq_cons_iff.mp hothers
        rw [← List.cons_append, ← List.append_assoc] at hp
        refine ⟨0, 0, part, _, _, b, a, .argument function before part after, ?_, ?_, ?_⟩
        · simp [List.flatMap_map]
        · simp [List.flatMap_map]
        · exact hp.within (by simpa [guarded] using hmid)

end Expr

end BlendPlot
