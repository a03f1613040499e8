import BlendPlot.Proofs.Unmatched

namespace BlendPlot

open String (utf8Len)

def Token.move (place : Nat → Nat) (t : Token) : Token :=
  ⟨t.lexeme, place t.position⟩

def ParseError.move (place : Nat → Nat) : ParseError → ParseError
  | unknownInput c position => unknownInput c (place position)
  | endOfInput => endOfInput
  | missingOperand op position => missingOperand op (place position)
  | closingForOperand position => closingForOperand (place position)
  | unexpected found => unexpected (found.move place)
  | expectedClosing found opening => expectedClosing (found.move place) (place opening)
  | unclosed opening => unclosed (place opening)
  | unopened position => unopened (place position)
  | tooComplex => tooComplex

namespace Parser

/-- An outcome with its error at another place and its value changed by `f`. -/
def moved {α : Type} (place : Nat → Nat) (f : α → α) : Except ParseError α → Except ParseError α
  | .error e => .error (e.move place)
  | .ok a => .ok (f a)

def Taken.move {α : Type} (place : Nat → Nat) (taken : Taken α) : Taken α :=
  (taken.1, taken.2.map (Token.move place))

variable {place : Nat → Nat} {α β : Type}

theorem moved_bind {f : α → α} {g : β → β} {r : Except ParseError α}
    {k k' : α → Except ParseError β} (h : ∀ a, k' (f a) = moved place g (k a)) :
    (moved place f r >>= k') = moved place g (r >>= k) := by
  cases r with
  | error e => rfl
  | ok a => exact h a

theorem move_of_above {tree : Expr} {parts : List Measured} {e : ParseError}
    (h : Measured.above tree parts = .error e) : e.move place = e := by
  unfold Measured.above at h
  dsimp only at h
  split at h <;> cases h
  rfl

theorem closing_move (opening : Nat) (ts : List Token) :
    closing (place opening) (ts.map (Token.move place)) =
      moved place (List.map (Token.move place)) (closing opening ts) := by
  cases ts with
  | nil => rfl
  | cons t ts =>
    change (if t.lexeme = .closing then _ else _) =
      moved place _ (if t.lexeme = .closing then _ else _)
    split <;> rfl

theorem node_move (tree : Expr) (parts : List Measured) (rest : List Token) :
    (do
      let node ← Measured.above tree parts
      return (node, rest.map (Token.move place)) : Except ParseError (Taken Measured)) =
      moved place (Taken.move place) (do
        let node ← Measured.above tree parts
        return (node, rest)) := by
  cases h : Measured.above tree parts with
  | error e => exact congrArg Except.error (move_of_above h).symm
  | ok node => rfl

section

variable {sub : Reader}
  (hsub : ∀ ts, sub.run (ts.map (Token.move place)) = moved place (Taken.move place) (sub.run ts))

include hsub

theorem afterOperator_move (op : Operator) (position : Nat) (ts : List Token) :
    afterOperator sub op (place position) (ts.map (Token.move place)) =
      moved place (Taken.move place) (afterOperator sub op position ts) := by
  cases ts with
  | nil => rfl
  | cons t ts => exact hsub (t :: ts)

theorem arguments_move (ts : List Token) :
    arguments sub (ts.map (Token.move place)) =
      moved place (Taken.move place) (arguments sub ts) := by
  fun_induction arguments sub ts with
  | case1 ts e hs =>
    have hrun := hsub ts
    rw [hs] at hrun
    exact arguments_error hrun
  | case2 ts first position more hs e ha ih =>
    have hrun := hsub ts
    rw [hs] at hrun
    rw [arguments_more hrun rfl, ih, ha]
    rfl
  | case3 ts first position more hs others rest ha ih =>
    have hrun := hsub ts
    rw [hs] at hrun
    rw [arguments_more hrun rfl, ih, ha]
    rfl
  | case4 ts first rest hno hs =>
    have hrun := hsub ts
    rw [hs] at hrun
    refine arguments_last hrun fun t ht hcomma => ?_
    cases rest with
    | nil => cases ht
    | cons u rest =>
      cases ht
      obtain ⟨word, position⟩ := u
      obtain rfl : word = .comma := hcomma
      exact hno position rest rfl

theorem call_move (function : String) (opening : Nat) (ts : List Token) :
    call sub function (place opening) (ts.map (Token.move place)) =
      moved place (Taken.move place) (call sub function opening ts) := by
  by_cases hhead : (ts.map (·.lexeme)).head? = some .closing
  · obtain ⟨position, more, rfl⟩ := eq_closing_of_head? hhead
    exact node_move (.call function []) [] more
  · have hhead' : ((ts.map (Token.move place)).map (·.lexeme)).head? ≠ some .closing := by
      rwa [List.map_map]
    rw [call_of_head?_ne hhead, call_of_head?_ne hhead', arguments_move hsub]
    refine moved_bind fun ⟨args, rest⟩ => ?_
    change (closing (place opening) (rest.map (Token.move place)) >>= _) =
      moved place _ (closing opening rest >>= _)
    rw [closing_move]
    exact moved_bind fun rest => node_move (.call function (args.map (·.expr))) args rest

theorem primary_move (ts : List Token) :
    primary sub (ts.map (Token.move place)) = moved place (Taken.move place) (primary sub ts) := by
  match ts with
  | [] => rfl
  | ⟨.name id, _⟩ :: [] => rfl
  | ⟨.name id, _⟩ :: ⟨word, opening⟩ :: ts =>
    cases word with
    | opening => exact call_move hsub id opening ts
    | number | name | sign | closing | comma | unknown => rfl
  | ⟨.opening, opening⟩ :: ts =>
    change (sub.run (ts.map (Token.move place)) >>= _) = moved place _ (sub.run ts >>= _)
    rw [hsub]
    refine moved_bind fun ⟨inner, rest⟩ => ?_
    change (closing (place opening) (rest.map (Token.move place)) >>= _) =
      moved place _ (closing opening rest >>= _)
    rw [closing_move]
    exact moved_bind fun _ => rfl
  | ⟨.number _ _, _⟩ :: _ | ⟨.closing, _⟩ :: _ | ⟨.unknown _, _⟩ :: _ | ⟨.sign _, _⟩ :: _
  | ⟨.comma, _⟩ :: _ => rfl

end

section

variable {sub : Nat → Reader}
  (hsub : ∀ level ts, (sub level).run (ts.map (Token.move place)) =
    moved place (Taken.move place) ((sub level).run ts))

include hsub

theorem operand_move (ts : List Token) :
    operand sub (ts.map (Token.move place)) = moved place (Taken.move place) (operand sub ts) := by
  rcases ts with _ | ⟨⟨word, position⟩, ts⟩
  · rfl
  have hprimary := primary_move (hsub 0) (⟨word, position⟩ :: ts)
  cases word with
  | sign op =>
    cases op with
    | plus => exact afterOperator_move (hsub signLevel) .plus position ts
    | minus =>
      change (afterOperator _ _ (place position) (ts.map (Token.move place)) >>= _) =
        moved place _ (afterOperator _ _ position ts >>= _)
      rw [afterOperator_move (hsub signLevel)]
      exact moved_bind fun ⟨inner, rest⟩ => node_move (.negate inner.expr) [inner] rest
    | times | divide | power => rfl
  | number | name | opening | closing | comma | unknown => exact hprimary

theorem operators_move (level : Nat) (left : Measured) (ts : List Token) :
    operators sub level left (ts.map (Token.move place)) =
      moved place (Taken.move place) (operators sub level left ts) := by
  fun_induction operators sub level left ts with
  | case1 left op position more hop e hr =>
    have hafter := afterOperator_move (hsub op.rightLevel) op position more
    rw [hr] at hafter
    rw [List.map_cons, Token.move, operators_sign hop, hafter]
    rfl
  | case2 left op position more hop right rest hr e hnode =>
    have hafter := afterOperator_move (hsub op.rightLevel) op position more
    rw [hr] at hafter
    rw [List.map_cons, Token.move, operators_sign hop, hafter]
    change (Measured.above _ _ >>= _) = _
    rw [hnode]
    exact congrArg Except.error (move_of_above hnode).symm
  | case3 left op position more hop right rest hr node hnode ih =>
    have hafter := afterOperator_move (hsub op.rightLevel) op position more
    rw [hr] at hafter
    rw [List.map_cons, Token.move, operators_sign hop, hafter]
    change (Measured.above _ _ >>= _) = _
    rw [hnode]
    exact ih
  | case4 left op position more hop =>
    rw [List.map_cons, Token.move, operators, if_neg hop]
    rfl
  | case5 left ts hno =>
    unfold operators
    split
    next op position more heq =>
      cases ts with
      | nil => cases heq
      | cons t ts =>
        obtain ⟨word, place⟩ := t
        cases heq
        exact absurd rfl (hno _ _ _)
    next => rfl

end

/-- Tokens at other places are read as the same tree, or are wrong in the same way. -/
theorem expression_move (room level : Nat) (ts : List Token) :
    (expression room level).run (ts.map (Token.move place)) =
      moved place (Taken.move place) ((expression room level).run ts) := by
  induction room generalizing level ts with
  | zero => rfl
  | succ room ih =>
    change (operand _ (ts.map (Token.move place)) >>= _) = moved place _ (operand _ ts >>= _)
    rw [operand_move ih]
    refine moved_bind fun first => ?_
    exact operators_move ih level first.1 first.2

theorem readAll_move (place : Nat → Nat) (ts : List Token) :
    readAll (ts.map (Token.move place)) = (readAll ts).mapError (ParseError.move place) := by
  unfold readAll
  rw [expression_move]
  cases (expression maxDepth 0).run ts with
  | error e => rfl
  | ok taken =>
    obtain ⟨whole, rest⟩ := taken
    cases rest with
    | nil => rfl
    | cons t rest =>
      obtain ⟨word, position⟩ := t
      cases word <;> rfl

end Parser

theorem parse_of_tokens_eq {text other : String} {place : Nat → Nat}
    (h : tokens other = (tokens text).map (Token.move place)) :
    Expr.parse other = (Expr.parse text).mapError (ParseError.move place) := by
  rw [Parser.parse_eq_readAll, h, Parser.readAll_move, Parser.parse_eq_readAll]

theorem tokensFrom_add (k position : Nat) (cs : List Char) :
    tokensFrom (position + k) cs = (tokensFrom position cs).map (Token.move (· + k)) := by
  induction cs using words_induction generalizing position with
  | nil => simp [tokensFrom]
  | blank c cs hb ih =>
    rw [tokensFrom, if_pos hb, tokensFrom, if_pos hb, ← ih, Nat.add_right_comm]
  | word c cs hb ih =>
    rw [tokensFrom, if_neg hb, tokensFrom, if_neg hb, List.map_cons, ← ih, Nat.add_right_comm]
    rfl

theorem tokensFrom_blank {blanks : List Char} (hb : blanks.all isBlankChar) (position : Nat)
    (cs : List Char) :
    tokensFrom position (blanks ++ cs) = tokensFrom (position + utf8Len blanks) cs := by
  induction blanks generalizing position with
  | nil => rfl
  | cons c blanks ih =>
    rw [List.all_cons, Bool.and_eq_true] at hb
    rw [List.cons_append, tokensFrom, if_pos hb.1, ih hb.2, String.utf8Len_cons,
      Nat.add_comm (utf8Len blanks), Nat.add_assoc]

theorem endsWord_blank_append {blanks : List Char} (hne : blanks ≠ [])
    (hb : blanks.all isBlankChar) (cs : List Char) : EndsWord (blanks ++ cs) := by
  intro c hc
  rw [List.head?_append_of_ne_nil _ hne] at hc
  exact endsWord_of_blank hb c hc

theorem position_lt_of_mem {cs : List Char} {t : Token} {position : Nat}
    (h : t ∈ tokensFrom position cs) : t.position < position + utf8Len cs := by
  induction cs using words_induction generalizing position with
  | nil => simp [tokensFrom] at h
  | blank c cs hb ih =>
    rw [tokensFrom, if_pos hb] at h
    have hlt := ih h
    rw [String.utf8Len_cons]
    omega
  | word c cs hb ih =>
    have hlen := congrArg utf8Len (Lexeme.spelling_read c cs)
    have hpos := spelling_pos (Lexeme.reads_read c cs)
    rw [String.utf8Len_append, String.utf8Len_toList] at hlen
    rw [tokensFrom, if_neg hb] at h
    rcases List.mem_cons.mp h with rfl | h
    · dsimp only
      omega
    · have hlt := ih h
      omega

theorem tokens_append_blank_append (a b : String) {blanks : String} (hne : blanks ≠ "")
    (hb : isBlank blanks) :
    tokens (a ++ blanks ++ b) =
      tokens a ++ (tokens b).map (Token.move (· + (a ++ blanks).utf8ByteSize)) := by
  have hchars : blanks.toList ≠ [] := by simpa using hne
  have hends := endsWord_blank_append hchars hb b.toList
  rw [tokens, String.toList_append, String.toList_append, List.append_assoc,
    tokensFrom_append 0 _ hends, tokensFrom_blank hb, Nat.add_assoc, ← String.utf8Len_append,
    tokensFrom_add, ← String.toList_append, String.utf8Len_toList]
  rfl

theorem tokens_between_blanks (text : String) {before after : String} (hbefore : isBlank before)
    (hafter : isBlank after) :
    tokens (before ++ text ++ after) =
      (tokens text).map (Token.move (· + before.utf8ByteSize)) := by
  have hnil := (tokensFrom_eq_nil_iff 0 after.toList).mpr hafter
  rw [tokens_append_blank _ hnil, tokens, String.toList_append, tokensFrom_blank hbefore,
    tokensFrom_add, String.utf8Len_toList]
  rfl

/-- Places behind `old` bytes, where there are `new` bytes instead. -/
def placeBehind (old new position : Nat) : Nat :=
  if position < old then position else position - old + new

theorem placeBehind_of_lt {old new position : Nat} (h : position < old) :
    placeBehind old new position = position :=
  if_pos h

theorem placeBehind_add (old new position : Nat) :
    placeBehind old new (position + old) = position + new := by
  rw [placeBehind, if_neg (by omega), Nat.add_sub_cancel]

theorem tokens_other_blanks (a b : String) {blanks others : String} (hne : blanks ≠ "")
    (hne' : others ≠ "") (hb : isBlank blanks) (hb' : isBlank others) :
    tokens (a ++ others ++ b) = (tokens (a ++ blanks ++ b)).map
      (Token.move (placeBehind (a ++ blanks).utf8ByteSize (a ++ others).utf8ByteSize)) := by
  rw [tokens_append_blank_append a b hne' hb', tokens_append_blank_append a b hne hb,
    List.map_append, List.map_map]
  congr 1
  · refine (List.map_id _).symm.trans (List.map_congr_left fun t ht => ?_)
    have hlt := position_lt_of_mem ht
    rw [String.utf8Len_toList] at hlt
    have hsize : (a ++ blanks).utf8ByteSize = a.utf8ByteSize + blanks.utf8ByteSize := by simp
    rw [Token.move, placeBehind_of_lt (by omega)]
    rfl
  · refine List.map_congr_left fun t _ => ?_
    exact congrArg (Token.mk t.lexeme) (placeBehind_add _ _ _).symm

/-- Blanks around a text or in the place of blanks change nothing but the places in errors. -/
theorem blanks_only_separate :
    (∀ a blanks b : String, blanks ≠ "" → isBlank blanks →
      tokens (a ++ blanks ++ b) =
        tokens a ++ (tokens b).map (Token.move (· + (a ++ blanks).utf8ByteSize))) ∧
    (∀ before text after : String, isBlank before → isBlank after →
      Expr.parse (before ++ text ++ after) =
        (Expr.parse text).mapError (ParseError.move (· + before.utf8ByteSize))) ∧
    ∀ a blanks others b : String, blanks ≠ "" → isBlank blanks → others ≠ "" → isBlank others →
      Expr.parse (a ++ others ++ b) = (Expr.parse (a ++ blanks ++ b)).mapError (ParseError.move
        (placeBehind (a ++ blanks).utf8ByteSize (a ++ others).utf8ByteSize)) := by
  refine ⟨fun a blanks b hne hb => tokens_append_blank_append a b hne hb, ?_, ?_⟩
  · intro before text after hbefore hafter
    exact parse_of_tokens_eq (tokens_between_blanks text hbefore hafter)
  · intro a blanks others b hne hb hne' hb'
    exact parse_of_tokens_eq (tokens_other_blanks a b hne hne' hb hb')

theorem blanks_only_separate_of_wide_blank :
    ("\u3000" ≠ "" ∧ isBlank "\u3000" ∧ " \n" ≠ "" ∧ isBlank " \n") ∧
      tokens ("(k" ++ "\u3000" ++ "$") = tokens "(k" ++ [⟨.unknown '$', 5⟩] ∧
      Expr.parse ("\u3000" ++ "2 +" ++ " \n") = .error (.missingOperand .plus 5) ∧
      Expr.parse ("(k" ++ "\u3000" ++ "$") = .error (.expectedClosing ⟨.unknown '$', 5⟩ 0) ∧
      Expr.parse ("(k" ++ " \n" ++ "$") = .error (.expectedClosing ⟨.unknown '$', 4⟩ 0) := by
  have hblanks : "\u3000" ≠ "" ∧ isBlank "\u3000" ∧ " \n" ≠ "" ∧ isBlank " \n" := by decide +kernel
  obtain ⟨hne, hb, hne', hb'⟩ := hblanks
  have hshort : Expr.parse "2 +" = .error (.missingOperand .plus 2) :=
    errorOf_eq_some_iff.mp (by decide +kernel)
  have hwide : Expr.parse ("(k" ++ "\u3000" ++ "$") =
      .error (.expectedClosing ⟨.unknown '$', 5⟩ 0) :=
    errorOf_eq_some_iff.mp (by decide +kernel)
  refine ⟨⟨hne, hb, hne', hb'⟩, ?_, ?_, hwide, ?_⟩
  · rw [blanks_only_separate.1 "(k" "\u3000" "$" hne hb]
    decide +kernel
  · rw [blanks_only_separate.2.1 "\u3000" "2 +" " \n" hb hb', hshort]
    rfl
  · rw [blanks_only_separate.2.2 "(k" "\u3000" " \n" "$" hne hb hne' hb', hwide]
    rfl

end BlendPlot
