import BlendPlot.Proofs.Refusal
import BlendPlot.Proofs.Scan

namespace BlendPlot

namespace Parser

/-- A parenthesis is open, which is the error of `f` unless it is the last token. -/
def Reopened {α : Type} (f : List Token → Except ParseError α) (ts : List Token) : Prop :=
  ∃ opening, InnermostOpen ts opening ∧
    (ts.getLast? ≠ some ⟨.opening, opening⟩ → f ts = .error (.unclosed opening))

theorem Reopened.under {α β : Type} {f : List Token → Except ParseError α}
    {g : List Token → Except ParseError β} {ts : List Token} (h : Reopened f ts)
    (front : List Token)
    (hg : ∀ {e}, ts ≠ [] → f ts = .error e → g (front ++ ts) = .error e) :
    Reopened g (front ++ ts) := by
  obtain ⟨opening, hopen, hf⟩ := h
  have hne : ts ≠ [] := by
    obtain ⟨before, inside, rfl, -⟩ := hopen
    simp
  refine ⟨opening, hopen.under front, fun hlast => hg hne (hf fun heq => hlast ?_)⟩
  rw [List.getLast?_append_of_ne_nil _ hne, heq]

/-- The parenthesis that a group or a call opens is open without the one that closes it. -/
theorem reopened_group {α : Type} {f : List Token → Except ParseError α} (before : List Token)
    {opening : Nat} {inside : List Token} (hinside : Balanced (inside.map (·.lexeme)))
    (hf : inside ≠ [] → f (before ++ ⟨.opening, opening⟩ :: inside) = .error (.unclosed opening)) :
    Reopened f (before ++ ⟨.opening, opening⟩ :: inside) := by
  refine ⟨opening, ⟨before, inside, rfl, hinside⟩, fun hlast => hf ?_⟩
  rintro rfl
  exact hlast (by simp)

theorem eq_nil_or_last {ts read rest : List Token} {t : Token} (h : ts ++ [t] = read ++ rest) :
    rest = [] ∧ ts ++ [t] = read ∨ ∃ front, rest = front ++ [t] ∧ ts = read ++ front := by
  rcases List.eq_nil_or_concat rest with rfl | ⟨front, u, rfl⟩
  · rw [List.append_nil] at h
    exact Or.inl ⟨rfl, h⟩
  · rw [List.concat_eq_append, ← List.append_assoc] at h
    obtain ⟨rfl, hlast⟩ := List.append_inj' h rfl
    cases hlast
    exact Or.inr ⟨front, List.concat_eq_append, rfl⟩

theorem alike_front (front tail : List Token) : Alike (front ++ tail) front := by
  intro t ht
  obtain ⟨more, rfl⟩ := List.head?_eq_some_iff.mp ht
  rfl

theorem call_reopened {room : Nat} {function : String} {position opening : Nat} {ts : List Token}
    {t : Token} {m : Measured}
    (h : call (expression room 0) function opening (ts ++ [t]) = .ok (m, [])) :
    Reopened (primary (expression room 0))
      (⟨.name function, position⟩ :: ⟨.opening, opening⟩ :: ts) := by
  by_cases hhead : ((ts ++ [t]).map (·.lexeme)).head? = some .closing
  · -- nothing is between the two parentheses
    obtain ⟨place, more, heq⟩ := eq_closing_of_head? hhead
    rw [heq] at h
    obtain ⟨node, -, h⟩ := bind_eq_ok.mp h
    cases h
    obtain rfl : ts = [] := by simpa using congrArg List.length heq
    exact reopened_group [⟨.name function, position⟩] balanced_nil fun hne => absurd rfl hne
  · rw [call_of_head?_ne hhead] at h
    obtain ⟨⟨args, rest⟩, hargs, h⟩ := bind_eq_ok.mp h
    obtain ⟨rest₂, hclose, h⟩ := bind_eq_ok.mp h
    obtain ⟨node, -, h⟩ := bind_eq_ok.mp h
    cases h
    obtain ⟨u, rfl, -⟩ := closing_eq_ok hclose
    obtain ⟨read, pieces, heq, hwords, -, -, hpieces⟩ :=
      arguments_eq_ok (fun hs => (@expression_eq_ok room 0 _ _ _ hs).1) hargs
    obtain ⟨rfl, hlast⟩ := List.append_inj' heq rfl
    cases hlast
    refine reopened_group [⟨.name function, position⟩] ?_ fun hne => ?_
    · rw [hwords]
      exact balanced_listed fun p hp => (hpieces p hp).1.balanced
    · have hhead' : (ts.map (·.lexeme)).head? ≠ some .closing := by
        cases ts with
        | nil => exact absurd rfl hne
        | cons v vs => exact hhead
      change call (expression room 0) function opening ts = _
      rw [call_of_head?_ne hhead', Local.at_end (arguments_local (expression_local room 0)) hargs]
      rfl

theorem primary_reopened {room place : Nat} {ts : List Token} {m : Measured}
    (h : primary (expression room 0) (ts ++ [⟨.closing, place⟩]) = .ok (m, [])) :
    Reopened (primary (expression room 0)) ts := by
  cases ts with
  | nil => cases h
  | cons u us =>
    obtain ⟨word, position⟩ := u
    cases word with
    | number =>
      obtain ⟨-, hnil⟩ := Prod.mk.inj (Except.ok.inj h)
      simp at hnil
    | name id =>
      cases us with
      | nil => cases h
      | cons v vs =>
        obtain ⟨word, opening⟩ := v
        cases word with
        | opening => exact call_reopened h
        | _ => cases h
    | opening =>
      change ((expression room 0).run (us ++ [_]) >>= _) = _ at h
      obtain ⟨⟨inner, rest⟩, hinner, h⟩ := bind_eq_ok.mp h
      obtain ⟨rest₂, hclose, h⟩ := bind_eq_ok.mp h
      cases h
      obtain ⟨v, rfl, -⟩ := closing_eq_ok hclose
      obtain ⟨read, n, heq, hderives, -⟩ := (expression_eq_ok hinner).1.derived
      obtain ⟨rfl, hlast⟩ := List.append_inj' heq rfl
      cases hlast
      refine reopened_group [] hderives.balanced fun _ => ?_
      change ((expression room 0).run us >>= _) = _
      rw [Local.at_end (expression_local room 0) hinner]
      rfl
    | _ => cases h

section

variable {room place : Nat}
  (hsub : ∀ {level ts m}, (expression room level).run (ts ++ [⟨.closing, place⟩]) = .ok (m, []) →
    Reopened (expression room level).run ts)

include hsub

theorem afterOperator_reopened {op : Operator} {position level : Nat} {ts : List Token}
    {m : Measured}
    (h : afterOperator (expression room level) op position (ts ++ [⟨.closing, place⟩]) =
      .ok (m, [])) :
    Reopened (afterOperator (expression room level) op position) ts :=
  (hsub (afterOperator_eq_ok h)).under [] fun hne herror => by
    rw [List.nil_append, afterOperator_of_ne_nil hne, herror]

theorem operand_reopened {ts : List Token} {m : Measured}
    (h : operand (expression room) (ts ++ [⟨.closing, place⟩]) = .ok (m, [])) :
    Reopened (operand (expression room)) ts := by
  cases ts with
  | nil => cases h
  | cons u us =>
    obtain ⟨word, position⟩ := u
    cases word with
    | sign op =>
      cases op with
      | plus =>
        exact (afterOperator_reopened hsub h).under [⟨.sign .plus, position⟩] fun _ herror => herror
      | minus =>
        obtain ⟨⟨inner, rest⟩, hinner, h⟩ := bind_eq_ok.mp h
        obtain ⟨node, -, h⟩ := bind_eq_ok.mp h
        cases h
        refine (afterOperator_reopened hsub hinner).under [⟨.sign .minus, position⟩] ?_
        intro e _ herror
        change (afterOperator _ _ _ us >>= _) = _
        rw [herror]
        rfl
      | _ => cases h
    | _ => exact @primary_reopened room place _ _ h

theorem operators_reopened {level : Nat} {left m : Measured} {ts : List Token}
    (h : operators (expression room) level left (ts ++ [⟨.closing, place⟩]) = .ok (m, [])) :
    Reopened (operators (expression room) level left) ts := by
  generalize hall : ts ++ [⟨.closing, place⟩] = all at h
  fun_induction operators (expression room) level left all generalizing ts with
  | case1 => cases h
  | case2 => cases h
  | case3 left op position more hop right rest hr node hnode ih =>
    cases ts with
    | nil => cases hall
    | cons u us =>
      obtain ⟨rfl, hmore⟩ := List.cons.inj hall
      obtain ⟨read, rfl, hread⟩ := afterOperator_local (expression_local room op.rightLevel) _ _ hr
      -- the last token is read with this right operand or with a later one
      rcases eq_nil_or_last hmore with ⟨rfl, hlast⟩ | ⟨front, rfl, rfl⟩
      · rw [List.append_nil, ← hlast] at hr
        refine (afterOperator_reopened hsub hr).under [⟨.sign op, position⟩] ?_
        intro e _ herror
        rw [List.singleton_append, operators_sign hop, herror]
        rfl
      · have hfront := hread front (alike_front front _)
        refine (ih rfl h).under (⟨.sign op, position⟩ :: read) fun _ herror => ?_
        rw [List.cons_append, operators_sign hop, hfront]
        change (Measured.above _ _ >>= _) = _
        rw [hnode]
        exact herror
  | case4 => cases h
  | case5 left all hno =>
    cases h
    simp at hall

end

theorem expression_reopened (room : Nat) {level place : Nat} {ts : List Token} {m : Measured}
    (h : (expression room level).run (ts ++ [⟨.closing, place⟩]) = .ok (m, [])) :
    Reopened (expression room level).run ts := by
  induction room generalizing level ts m with
  | zero => cases h
  | succ room ih =>
    obtain ⟨⟨first, rest⟩, ho, hops⟩ := bind_eq_ok.mp h
    obtain ⟨read, hts, hread⟩ := operand_local (expression_local room) ho
    rcases eq_nil_or_last hts with ⟨rfl, -⟩ | ⟨front, rfl, rfl⟩
    · refine (operand_reopened ih ho).under [] fun _ herror => ?_
      change (operand (expression room) ts >>= _) = _
      rw [herror]
      rfl
    · refine (operators_reopened ih hops).under read fun _ herror => ?_
      change (operand (expression room) (read ++ front) >>= _) = _
      rw [hread front (alike_front front _)]
      exact herror

theorem readAll_reopened {ts : List Token} {place : Nat} {tree : Expr}
    (h : readAll (ts ++ [⟨.closing, place⟩]) = .ok tree) : Reopened readAll ts := by
  obtain ⟨whole, hrun, -⟩ := readAll_eq_ok h
  refine (expression_reopened maxDepth hrun).under [] fun _ herror => ?_
  rw [List.nil_append, readAll, herror]

end Parser

open BlendPlot.Parser

theorem endsWord_of_blank {cs : List Char} (h : cs.all isBlankChar) : EndsWord cs := by
  intro c hc
  have hb := List.all_eq_true.mp h c (List.mem_of_head? hc)
  have hdigit : c.isDigit = false := by
    by_contra hd
    exact not_isBlankChar_of_isDigit (by simpa using hd) hb
  have hletter : isIdentifierChar c = false := by
    simpa using not_isIdentifierChar_of_isBlankChar hb
  have hpoint : c ≠ '.' := by
    rintro rfl
    exact absurd hb (by decide)
  simp [continuesWord, hdigit, hletter, hpoint]

theorem tokens_nodup (text : String) : (tokens text).Nodup := by
  refine (tokensFrom_ordered 0 text.toList).imp fun h heq => ?_
  rw [heq] at h
  exact Nat.lt_irrefl _ h.1

theorem tokens_closing (text : String) :
    tokens (text ++ ")") = tokens text ++ [⟨.closing, text.utf8ByteSize⟩] := by
  have hends : EndsWord ")".toList := endsWord_cons (by decide) []
  have hlast (position : Nat) : tokensFrom position ")".toList = [⟨.closing, position⟩] := by
    change tokensFrom position [')'] = _
    rw [tokensFrom, if_neg (by decide)]
    change _ :: tokensFrom _ [] = _
    rw [tokensFrom]
    rfl
  rw [tokens, String.toList_append, tokensFrom_append 0 _ hends, hlast, Nat.zero_add,
    String.utf8Len_toList]
  rfl

theorem tokens_append_blank (text : String) {other : String} {position : Nat}
    (h : tokensFrom position other.toList = []) : tokens (text ++ other) = tokens text := by
  have hblank := (tokensFrom_eq_nil_iff position other.toList).mp h
  have hnil := (tokensFrom_eq_nil_iff (0 + String.utf8Len text.toList) other.toList).mpr hblank
  rw [tokens, String.toList_append, tokensFrom_append 0 _ (endsWord_of_blank hblank), hnil,
    List.append_nil]
  rfl

/-- The text before a parenthesis has the tokens before it. -/
theorem text_of_tokens {text : String} {before after : List Token} {word : Lexeme} {position : Nat}
    (hword : word = .opening ∨ word = .closing)
    (h : tokens text = before ++ ⟨word, position⟩ :: after) :
    ∃ front back : String, text = front ++ word.spelling ++ back ∧ front.utf8ByteSize = position ∧
      tokens front = before ∧ tokensFrom (position + 1) back.toList = after := by
  have hmem : ⟨word, position⟩ ∈ tokensFrom 0 text.toList := by
    change _ ∈ tokens text
    simp [h]
  obtain ⟨cs, c, ds, rest, htext, hposition, hb, hreads, -⟩ :=
    exists_reads_of_mem [] (by simp [Apart]) hmem
  rw [List.nil_append] at htext
  have hends : EndsWord (c :: ds) := by
    refine endsWord_cons ?_ ds
    rcases hword with rfl | rfl
    · cases hreads with
      | opening hc => exact hc ▸ by decide
    · cases hreads with
      | closing hc => exact hc ▸ by decide
  have hsize : word.spelling.utf8ByteSize = 1 := by
    rcases hword with rfl | rfl <;> rfl
  have htokens : tokens text =
      tokensFrom 0 cs ++ ⟨word, position⟩ :: tokensFrom (position + 1) rest := by
    rw [tokens, htext, tokensFrom_append 0 cs hends, Nat.zero_add, hposition, tokensFrom,
      if_neg hb, hreads.read_eq]
    dsimp only
    rw [hsize]
  have hnodup := tokens_nodup text
  rw [h, List.nodup_middle, List.nodup_cons, List.mem_append, not_or] at hnodup
  obtain ⟨hbefore, -, hafter⟩ :=
    (List.append_cons_inj_of_notMem hnodup.1.1 hnodup.1.2).mp (h.symm.trans htokens)
  refine ⟨String.ofList cs, String.ofList rest, ?_, ?_, ?_, ?_⟩
  · rw [← String.toList_inj]
    simpa [hreads.spelling_append] using htext
  · rw [String.utf8ByteSize_ofList, hposition]
  · rw [tokens, String.toList_ofList, hbefore]
  · rw [String.toList_ofList, hafter]

theorem innermostOpen_of_unclosed {ts : List Token} {p : Nat}
    (h : readAll ts = .error (.unclosed p)) : InnermostOpen ts p := by
  obtain ⟨read, rest, rfl, -, ⟨rfl, hopen⟩ | ⟨t, more, -, hoffender, -⟩⟩ :=
    refused_of_readAll h (by simp)
  · rw [List.append_nil]
    exact hopen
  · cases hoffender

theorem ofTrailing_eq_unopened {t : Token} {p : Nat} (h : .unopened p = ParseError.ofTrailing t) :
    t = ⟨.closing, p⟩ := by
  obtain ⟨word, position⟩ := t
  cases word with
  | closing =>
    cases h
    rfl
  | _ => cases h

/-- A parenthesis that closes nothing follows a complete expression. -/
theorem readAll_of_unopened {ts : List Token} {p : Nat} (h : readAll ts = .error (.unopened p)) :
    ∃ before after tree, ts = before ++ ⟨.closing, p⟩ :: after ∧ readAll before = .ok tree := by
  rcases readAll_eq_error h with hrun | ⟨whole, t, after, hrun, ht⟩
  · obtain ⟨read, rest, -, -, ⟨-, hend⟩ | ⟨t, more, -, hinner, -⟩⟩ :=
      expression_refused (by simp) maxDepth hrun
    · exact hend.elim
    · cases hinner
  · obtain rfl := ofTrailing_eq_unopened ht
    obtain ⟨read, rfl, -⟩ := expression_local maxDepth 0 hrun
    refine ⟨read, after, whole.expr, rfl, ?_⟩
    rw [readAll, Local.at_end (expression_local maxDepth 0) hrun]

theorem readAll_closing {ts : List Token} {tree : Expr} (h : readAll ts = .ok tree) (p : Nat) :
    readAll (ts ++ [⟨.closing, p⟩]) = .error (.unopened p) := by
  obtain ⟨n, hderives, hfits⟩ := derives_of_readAll h
  have hrun := hderives.readAs.whole hderives.nesting_pos maxDepth rfl (Nat.zero_le _)
    (stops_closing (t := ⟨.closing, p⟩) rfl _ []) (stops_closing rfl 0 [])
  rw [readAll, hrun, if_pos hfits]
  rfl

/-- What is said of a parenthesis without a partner is so, and each that lacks one is reported. -/
theorem unmatched_parenthesis (text : String) :
    (∀ p, Expr.parse text = .error (.unclosed p) →
      ∃ (front back : String) (after : List Token), text = front ++ "(" ++ back ∧
        front.utf8ByteSize = p ∧ tokens text = tokens front ++ ⟨.opening, p⟩ :: after ∧
        Balanced (after.map (·.lexeme))) ∧
    (∀ p, Expr.parse text = .error (.unopened p) →
      ∃ (front back : String) (after : List Token), text = front ++ ")" ++ back ∧
        front.utf8ByteSize = p ∧ tokens text = tokens front ++ ⟨.closing, p⟩ :: after ∧
        ∃ tree, Expr.parse front = .ok tree) ∧
    ∀ tree, Expr.parse text = .ok tree →
      Expr.parse (text ++ ")") = .error (.unopened text.utf8ByteSize) ∧
      ∀ ts q, tokens text = ts ++ [⟨.closing, q⟩] →
        (∃ p, InnermostOpen ts p) ∧
        ∀ p, InnermostOpen ts p → ts.getLast? ≠ some ⟨.opening, p⟩ →
          ∃ front back : String, text = front ++ ")" ++ back ∧ front.utf8ByteSize = q ∧
            Expr.parse (front ++ back) = .error (.unclosed p) := by
  refine ⟨fun p h => ?_, fun p h => ?_, fun tree h => ⟨?_, fun ts q hts => ?_⟩⟩
  · obtain ⟨before, after, hts, hafter⟩ := innermostOpen_of_unclosed h
    obtain ⟨front, back, htext, hp, rfl, -⟩ := text_of_tokens (Or.inl rfl) hts
    exact ⟨front, back, after, htext, hp, hts, hafter⟩
  · obtain ⟨before, after, tree, hts, hbefore⟩ := readAll_of_unopened h
    obtain ⟨front, back, htext, hp, rfl, -⟩ := text_of_tokens (Or.inr rfl) hts
    exact ⟨front, back, after, htext, hp, hts, tree, hbefore⟩
  · rw [parse_eq_readAll, tokens_closing]
    exact readAll_closing h _
  · have hread : readAll (ts ++ [⟨.closing, q⟩]) = .ok tree := hts ▸ h
    obtain ⟨p, hopen, herror⟩ := readAll_reopened hread
    refine ⟨⟨p, hopen⟩, fun p' hopen' hlast => ?_⟩
    obtain rfl := hopen'.unique hopen
    obtain ⟨front, back, htext, hq, rfl, hback⟩ := text_of_tokens (Or.inr rfl) hts
    refine ⟨front, back, htext, hq, ?_⟩
    rw [parse_eq_readAll, tokens_append_blank front hback]
    exact herror hlast

theorem unmatched_parenthesis_of_inner_call :
    (errorOf (Expr.parse "m*(k+sin(x)") = some (.unclosed 2) ∧
      ∃ (front back : String) (after : List Token), "m*(k+sin(x)" = front ++ "(" ++ back ∧
        front.utf8ByteSize = 2 ∧
        tokens "m*(k+sin(x)" = tokens front ++ ⟨.opening, 2⟩ :: after ∧
        Balanced (after.map (·.lexeme))) ∧
    (errorOf (Expr.parse "k+1)*x") = some (.unopened 3) ∧
      ∃ (front back : String) (after : List Token), "k+1)*x" = front ++ ")" ++ back ∧
        front.utf8ByteSize = 3 ∧ tokens "k+1)*x" = tokens front ++ ⟨.closing, 3⟩ :: after ∧
        ∃ tree, Expr.parse front = .ok tree) ∧
    (∃ tree, Expr.parse "m*(k+sin(x))" = .ok tree) ∧
      Expr.parse ("m*(k+sin(x))" ++ ")") = .error (.unopened 12) ∧
      ∃ front back : String, "m*(k+sin(x))" = front ++ ")" ++ back ∧ front.utf8ByteSize = 11 ∧
        Expr.parse (front ++ back) = .error (.unclosed 2) := by
  have hopen : errorOf (Expr.parse "m*(k+sin(x)") = some (.unclosed 2) := by decide +kernel
  have hclose : errorOf (Expr.parse "k+1)*x") = some (.unopened 3) := by decide +kernel
  have hunclosed := errorOf_eq_some_iff.mp hopen
  have hnone : errorOf (Expr.parse "m*(k+sin(x))") = none := by decide +kernel
  obtain ⟨tree, hparse⟩ : ∃ tree, Expr.parse "m*(k+sin(x))" = .ok tree := by
    cases h : Expr.parse "m*(k+sin(x))" with
    | ok tree => exact ⟨tree, rfl⟩
    | error e => rw [h] at hnone; cases hnone
  have hts : tokens "m*(k+sin(x))" = tokens "m*(k+sin(x)" ++ [⟨.closing, 11⟩] := by decide +kernel
  have hlast : (tokens "m*(k+sin(x)").getLast? ≠ some ⟨.opening, 2⟩ := by decide +kernel
  obtain ⟨hafter, hwithout⟩ := (unmatched_parenthesis "m*(k+sin(x))").2.2 tree hparse
  obtain ⟨-, hreopened⟩ := hwithout _ 11 hts
  exact ⟨⟨hopen, (unmatched_parenthesis "m*(k+sin(x)").1 2 hunclosed⟩,
    ⟨hclose, (unmatched_parenthesis "k+1)*x").2.1 3 (errorOf_eq_some_iff.mp hclose)⟩,
    ⟨tree, hparse⟩, hafter, hreopened 2 (innermostOpen_of_unclosed hunclosed) hlast⟩

end BlendPlot
