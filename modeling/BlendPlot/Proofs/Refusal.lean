import BlendPlot.Proofs.Balance
import BlendPlot.Proofs.Lookahead

namespace BlendPlot

/-- Words that more words can complete to a part of a layer. -/
def Viable (c : Category) (words : List Lexeme) : Prop :=
  ∃ more tree n, Derives c (words ++ more) tree n

namespace ParseError

def inner? : ParseError → Option Token
  | unknownInput c position => some ⟨.unknown c, position⟩
  | closingForOperand position => some ⟨.closing, position⟩
  | unexpected found => some found
  | expectedClosing found _ => some found
  | _ => none

/-- The token that an error is about. -/
def offender? : ParseError → Option Token
  | unopened position => some ⟨.closing, position⟩
  | e => e.inner?

/-- What the error of a text that ends too early says about its tokens. -/
def AtEnd (read : List Token) : ParseError → Prop
  | endOfInput => True
  | missingOperand op position => read.getLast? = some ⟨.sign op, position⟩
  | unclosed opening => InnermostOpen read opening
  | _ => False

theorem AtEnd.under {read : List Token} {e : ParseError} (h : e.AtEnd read) (front : List Token) :
    e.AtEnd (front ++ read) := by
  cases e with
  | endOfInput => trivial
  | missingOperand op position =>
    have hlast : read.getLast? = some ⟨.sign op, position⟩ := h
    show (front ++ read).getLast? = _
    rw [List.getLast?_append, hlast, Option.some_or]
  | unclosed opening =>
    have hopen : InnermostOpen read opening := h
    exact hopen.under front
  | unknownInput | closingForOperand | unexpected | expectedClosing | unopened | tooComplex =>
    exact h.elim

end ParseError

theorem Viable.loosen {c d : Category} {words : List Lexeme} (h : Viable c words)
    (hd : d.level ≤ c.level) : Viable d words := by
  obtain ⟨more, tree, n, hwords⟩ := h
  exact ⟨more, tree, n, hwords.loosen hd⟩

theorem Derives.viable {c : Category} {words : List Lexeme} {tree : Expr} {n : Nat}
    (h : Derives c words tree n) : Viable c words :=
  ⟨[], tree, n, by rwa [List.append_nil]⟩

theorem viable_nil : Viable .primary [] :=
  ⟨[.name "x"], _, _, .name "x"⟩

theorem Viable.group {words : List Lexeme} (h : Viable .expression words) :
    Viable .primary (.opening :: words) := by
  obtain ⟨more, tree, n, hwords⟩ := h
  refine ⟨more ++ [.closing], tree, n + 1, ?_⟩
  rw [List.cons_append, ← List.append_assoc]
  exact .group hwords

theorem Viable.signed {words : List Lexeme} (h : Viable .unary words) {op : Operator}
    (hop : op = .plus ∨ op = .minus) : Viable .unary (.sign op :: words) := by
  obtain ⟨more, tree, n, hwords⟩ := h
  rcases hop with rfl | rfl
  · exact ⟨more, tree, n + 1, .positive hwords⟩
  · exact ⟨more, .negate tree, n + 1, .negative hwords⟩

theorem Viable.binary {op : Operator} {lefts rights : List Lexeme} {left : Expr} {n : Nat}
    (hr : Viable (.ofLevel (min op.rightLevel signLevel)) rights)
    (hl : Derives (.ofLevel op.leftLevel) lefts left n) :
    Viable (.ofLevel op.level) (lefts ++ .sign op :: rights) := by
  obtain ⟨more, right, m, hrights⟩ := hr
  refine ⟨more, .binary op left right, max n (m + 1), ?_⟩
  rw [List.append_assoc, List.cons_append]
  exact hl.binary hrights

def ViableArguments (words : List Lexeme) : Prop :=
  ∃ more args, args ≠ [] ∧ (∀ a ∈ args, Derives .expression a.words a.tree a.nesting) ∧
    words ++ more = Piece.listed args

theorem Viable.argument {words : List Lexeme} (h : Viable .expression words) :
    ViableArguments words := by
  obtain ⟨more, tree, n, hwords⟩ := h
  refine ⟨more, [⟨words ++ more, tree, n⟩], by simp, by simpa using hwords, ?_⟩
  rw [Piece.listed_singleton]

theorem ViableArguments.cons {first words : List Lexeme} {tree : Expr} {n : Nat}
    (h : ViableArguments words) (hfirst : Derives .expression first tree n) :
    ViableArguments (first ++ .comma :: words) := by
  obtain ⟨more, args, hne, hargs, hwords⟩ := h
  obtain ⟨b, bs, rfl⟩ := List.exists_cons_of_ne_nil hne
  refine ⟨more, ⟨first, tree, n⟩ :: b :: bs, by simp, List.forall_mem_cons.mpr ⟨hfirst, hargs⟩, ?_⟩
  rw [Piece.listed_cons_cons, ← hwords, List.append_assoc, List.cons_append]

theorem ViableArguments.call {words : List Lexeme} (h : ViableArguments words)
    (function : String) : Viable .primary (.name function :: .opening :: words) := by
  obtain ⟨more, args, -, hargs, hwords⟩ := h
  refine ⟨more ++ [.closing], .call function (args.map (·.tree)), Piece.deepest args + 1, ?_⟩
  rw [List.cons_append, List.cons_append, ← List.append_assoc, hwords]
  exact .call function hargs

namespace Parser

/-- The tokens before the error can be completed, and the next one, if any, is what it is about. -/
def Refused {α : Type} (V : List Lexeme → Prop) (f : List Token → Except ParseError α)
    (ts : List Token) (e : ParseError) : Prop :=
  ∃ read rest, ts = read ++ rest ∧ V (read.map (·.lexeme)) ∧
    (rest = [] ∧ e.AtEnd read ∨
      ∃ t more, rest = t :: more ∧ e.inner? = some t ∧ ∀ other, f (read ++ t :: other) = .error e)

/-- An error is still right for a reader that has read something else before. -/
theorem Refused.under {α β : Type} {V W : List Lexeme → Prop}
    {f : List Token → Except ParseError α} {g : List Token → Except ParseError β}
    {ts : List Token} {e : ParseError} (h : Refused V f ts e) (front : List Token)
    (hV : ∀ words, V words → W (front.map (·.lexeme) ++ words))
    (hg : ∀ us, us.head? = ts.head? → f us = .error e → g (front ++ us) = .error e) :
    Refused W g (front ++ ts) e := by
  obtain ⟨read, rest, rfl, hread, hend⟩ := h
  refine ⟨front ++ read, rest, by simp, ?_, ?_⟩
  · rw [List.map_append]
    exact hV _ hread
  · rcases hend with ⟨hnil, he⟩ | ⟨t, more, rfl, he, hf⟩
    · exact Or.inl ⟨hnil, he.under front⟩
    · refine Or.inr ⟨t, more, rfl, he, fun other => ?_⟩
      rw [List.append_assoc]
      refine hg _ ?_ (hf other)
      cases read <;> rfl

theorem refused_first {α : Type} {V : List Lexeme → Prop} {f : List Token → Except ParseError α}
    {t : Token} {ts : List Token} {e : ParseError} (hV : V []) (he : e.inner? = some t)
    (hf : ∀ other, f (t :: other) = .error e) : Refused V f (t :: ts) e :=
  ⟨[], t :: ts, rfl, hV, Or.inr ⟨t, ts, rfl, he, hf⟩⟩

theorem above_eq_error {tree : Expr} {parts : List Measured} {e : ParseError}
    (h : Measured.above tree parts = .error e) : e = .tooComplex := by
  unfold Measured.above at h
  dsimp only at h
  split at h <;> cases h
  rfl

theorem refused_closing {α : Type} {V : List Lexeme → Prop} {g : List Token → Except ParseError α}
    (before : List Token) {inside rest : List Token} {opening : Nat} {e : ParseError}
    (hV : V ((before ++ ⟨.opening, opening⟩ :: inside).map (·.lexeme)))
    (hinside : Balanced (inside.map (·.lexeme)))
    (h : closing opening rest = .error e)
    (hg : ∀ other, other.head? = rest.head? → closing opening other = .error e →
      g (before ++ ⟨.opening, opening⟩ :: (inside ++ other)) = .error e) :
    Refused V g (before ++ ⟨.opening, opening⟩ :: (inside ++ rest)) e := by
  refine ⟨before ++ ⟨.opening, opening⟩ :: inside, rest, by simp, hV, ?_⟩
  cases rest with
  | nil =>
    cases h
    exact Or.inl ⟨rfl, before, inside, rfl, hinside⟩
  | cons t more =>
    have hno : t.lexeme ≠ .closing := by
      intro ht
      rw [closing_cons ht] at h
      cases h
    have hclosing (other : List Token) :
        closing opening (t :: other) = .error (.expectedClosing t opening) := if_neg hno
    rw [hclosing] at h
    cases h
    refine Or.inr ⟨t, more, rfl, rfl, fun other => ?_⟩
    rw [List.append_assoc, List.cons_append]
    exact hg (t :: other) rfl (hclosing other)

section

variable {room : Nat} {e : ParseError}
  (hsub : ∀ {level ts}, (expression room level).run ts = .error e →
    Refused (Viable (.ofLevel (min level signLevel))) (expression room level).run ts e)

include hsub

theorem arguments_refused {ts : List Token} (h : arguments (expression room 0) ts = .error e) :
    Refused ViableArguments (arguments (expression room 0)) ts e := by
  fun_induction arguments (expression room 0) ts with
  | case1 ts e' hs =>
    cases h
    exact (hsub hs).under [] (fun _ hwords => hwords.argument) fun _ _ => arguments_error
  | case2 ts first position more hs e' ha ih =>
    cases h
    obtain ⟨read, rfl, hread⟩ := expression_local room 0 hs
    obtain ⟨n, hfirst, -⟩ := (expression_eq_ok hs).1.derives
    have hunder := (ih ha).under (read ++ [⟨.comma, position⟩])
      (W := ViableArguments) (g := arguments (expression room 0)) ?_ ?_
    · rwa [List.append_assoc, List.singleton_append] at hunder
    · intro words hwords
      rw [List.map_append, List.append_assoc]
      exact hwords.cons hfirst
    · intro us _ hus
      rw [List.append_assoc, List.singleton_append,
        arguments_more (hread (⟨.comma, position⟩ :: us) alike_cons) rfl, hus]
      rfl
  | case3 => cases h
  | case4 => cases h

theorem call_refused (he : e ≠ .tooComplex) {function : String} {position opening : Nat}
    {ts : List Token} (h : call (expression room 0) function opening ts = .error e) :
    Refused (Viable .primary) (primary (expression room 0))
      (⟨.name function, position⟩ :: ⟨.opening, opening⟩ :: ts) e := by
  by_cases hhead : (ts.map (·.lexeme)).head? = some .closing
  · -- a call without arguments has no error but that of the limits
    obtain ⟨place, more, rfl⟩ := eq_closing_of_head? hhead
    rcases bind_eq_error.mp h with hnode | ⟨node, -, h⟩
    · exact absurd (above_eq_error hnode) he
    · cases h
  · have hopen {us : List Token} (hus : us.head? = ts.head?) :
        (us.map (·.lexeme)).head? ≠ some .closing := by
      rw [List.head?_map, hus, ← List.head?_map]
      exact hhead
    rw [call_of_head?_ne (hopen rfl)] at h
    rcases bind_eq_error.mp h with hargs | ⟨⟨args, rest⟩, hargs, h⟩
    · refine (arguments_refused hsub hargs).under
        [⟨.name function, position⟩, ⟨.opening, opening⟩] (fun _ hwords => hwords.call function) ?_
      intro us hus herror
      change call (expression room 0) function opening us = .error e
      rw [call_of_head?_ne (hopen hus), herror]
      rfl
    rcases bind_eq_error.mp h with hclose | ⟨rest₂, -, h⟩
    · obtain ⟨read, pieces, rfl, hwords, -, hne, hpieces⟩ :=
        arguments_eq_ok (fun hs => (@expression_eq_ok room 0 _ _ _ hs).1) hargs
      refine refused_closing [⟨.name function, position⟩] ?_ ?_ hclose ?_
      · have hviable : ViableArguments (read.map (·.lexeme)) :=
          ⟨[], pieces, hne, fun p hp => (hpieces p hp).1, by rw [List.append_nil, hwords]⟩
        exact hviable.call function
      · rw [hwords]
        exact balanced_listed fun p hp => (hpieces p hp).1.balanced
      · intro other hother herror
        have hhead' : (read ++ other).head? = (read ++ rest).head? := by
          rw [List.head?_append, List.head?_append, hother]
        change call (expression room 0) function opening (read ++ other) = .error e
        rw [call_of_head?_ne (hopen hhead'),
          Local.before (arguments_local (expression_local room 0)) hargs (alike_of_head?_eq hother)]
        change (closing opening other >>= _) = _
        rw [herror]
        rfl
    rcases bind_eq_error.mp h with hnode | ⟨node, -, h⟩
    · exact absurd (above_eq_error hnode) he
    · cases h

theorem primary_refused (he : e ≠ .tooComplex) {ts : List Token}
    (h : primary (expression room 0) ts = .error e) :
    Refused (Viable .primary) (primary (expression room 0)) ts e := by
  unfold primary at h
  split at h
  next =>
    cases h
    exact ⟨[], [], rfl, viable_nil, Or.inl ⟨rfl, trivial⟩⟩
  next => cases h
  next id position opening ts => exact call_refused hsub he h
  next => cases h
  next opening ts =>
    rcases bind_eq_error.mp h with hinner | ⟨⟨inner, rest⟩, hinner, h⟩
    · refine (hsub hinner).under [⟨.opening, opening⟩] (fun _ hwords => hwords.group) ?_
      intro us _ herror
      change ((expression room 0).run us >>= _) = _
      rw [herror]
      rfl
    rcases bind_eq_error.mp h with hclose | ⟨rest₂, -, h⟩
    · obtain ⟨read, rfl, hread⟩ := expression_local room 0 hinner
      obtain ⟨n, hderives, -⟩ := (expression_eq_ok hinner).1.derives
      refine refused_closing [] ?_ hderives.balanced hclose ?_
      · exact (hderives.viable).group
      · intro other hother herror
        change ((expression room 0).run (read ++ other) >>= _) = _
        rw [hread other (alike_of_head?_eq hother)]
        change (closing opening other >>= _) = _
        rw [herror]
        rfl
    · cases h
  next position ts =>
    cases h
    exact refused_first viable_nil rfl fun _ => rfl
  next c position ts =>
    cases h
    exact refused_first viable_nil rfl fun _ => rfl
  next t ts hnumber hcall hname hopening hclosing hunknown =>
    cases h
    refine refused_first viable_nil rfl fun other => ?_
    obtain ⟨word, position⟩ := t
    cases word with
    | number whole fraction => exact absurd rfl (hnumber whole fraction position)
    | name id => exact absurd rfl (hname id position)
    | opening => exact absurd rfl (hopening position)
    | closing => exact absurd rfl (hclosing position)
    | unknown c => exact absurd rfl (hunknown c position)
    | sign | comma => rfl

theorem afterOperator_refused {α : Type} {W : List Lexeme → Prop}
    {g : List Token → Except ParseError α} {op : Operator} {position level : Nat}
    {ts : List Token} (h : afterOperator (expression room level) op position ts = .error e)
    (hW : ∀ words, Viable (.ofLevel (min level signLevel)) words → W (.sign op :: words))
    (hg : ∀ us, afterOperator (expression room level) op position us = .error e →
      g (⟨.sign op, position⟩ :: us) = .error e) :
    Refused W g (⟨.sign op, position⟩ :: ts) e := by
  cases ts with
  | nil =>
    cases h
    have hnil := viable_nil.loosen (Nat.le_trans (ofLevel_min_level_le level) (by decide))
    exact ⟨[⟨.sign op, position⟩], [], rfl, hW [] hnil, Or.inl ⟨rfl, rfl⟩⟩
  | cons t ts =>
    refine (hsub h).under [⟨.sign op, position⟩] hW ?_
    intro us hus herror
    obtain ⟨more, rfl⟩ := List.head?_eq_some_iff.mp hus
    exact hg _ herror

theorem operand_refused (he : e ≠ .tooComplex) {ts : List Token}
    (h : operand (expression room) ts = .error e) :
    Refused (Viable .unary) (operand (expression room)) ts e := by
  unfold operand at h
  split at h
  next position ts =>
    exact afterOperator_refused hsub h (fun _ hwords => hwords.signed (Or.inl rfl)) fun _ hus => hus
  next position ts =>
    rcases bind_eq_error.mp h with hinner | ⟨⟨inner, rest⟩, -, h⟩
    · refine afterOperator_refused hsub hinner (fun _ hwords => hwords.signed (Or.inr rfl)) ?_
      intro us herror
      change (afterOperator _ _ _ us >>= _) = _
      rw [herror]
      rfl
    rcases bind_eq_error.mp h with hnode | ⟨node, -, h⟩
    · exact absurd (above_eq_error hnode) he
    · cases h
  next hplus hminus =>
    refine (primary_refused hsub he h).under [] (fun _ hwords => hwords.loosen (by decide)) ?_
    intro us hus herror
    rw [List.nil_append]
    -- the first token is the same, so it is no sign either
    unfold operand
    split
    next position _ =>
      obtain ⟨more, rfl⟩ := List.head?_eq_some_iff.mp hus.symm
      exact absurd rfl (hplus position more)
    next position _ =>
      obtain ⟨more, rfl⟩ := List.head?_eq_some_iff.mp hus.symm
      exact absurd rfl (hminus position more)
    next => exact herror

theorem operators_refused (he : e ≠ .tooComplex) {level n : Nat} {left : Measured}
    {words : List Lexeme} {ts : List Token} (hleft : LeftOperand level words left.expr n ts)
    (h : operators (expression room) level left ts = .error e) :
    Refused (fun others => Viable (.ofLevel (min level signLevel)) (words ++ others))
      (operators (expression room) level left) ts e := by
  fun_induction operators (expression room) level left ts generalizing words n with
  | case1 left op position more hop e' hr =>
    cases h
    refine afterOperator_refused hsub hr (fun others hothers => ?_) fun us herror => ?_
    · exact (hothers.binary (hleft.next _ _ op rfl rfl hop)).loosen (ofLevel_level_le hop)
    · rw [operators_sign hop, herror]
      rfl
  | case2 left op position more hop right rest hr e' hnode =>
    cases h
    exact absurd (above_eq_error hnode) he
  | case3 left op position more hop right rest hr node hnode ih =>
    obtain ⟨read, rfl, hread⟩ := afterOperator_local (expression_local room op.rightLevel) _ _ hr
    obtain ⟨hright, hbelow⟩ := expression_eq_ok (afterOperator_eq_ok hr)
    obtain ⟨k, hright, -⟩ := hright.derives
    -- what is read so far is the left operand of what comes next
    have hnext := hleft.binary rfl hop hright hbelow
    rw [← (above_eq_ok hnode).1] at hnext
    refine (ih hnext h).under (⟨.sign op, position⟩ :: read) (fun others hothers => ?_) ?_
    · rwa [List.append_assoc, List.cons_append] at hothers
    · intro us hus herror
      rw [List.cons_append, operators_sign hop, hread us (alike_of_head?_eq hus)]
      change (Measured.above _ _ >>= _) = _
      rw [hnode]
      exact herror
  | case4 => cases h
  | case5 => cases h

end

/-- An error inside an expression is right, if it is not about the limits. -/
theorem expression_refused {e : ParseError} (he : e ≠ .tooComplex) (room : Nat) {level : Nat}
    {ts : List Token} (h : (expression room level).run ts = .error e) :
    Refused (Viable (.ofLevel (min level signLevel))) (expression room level).run ts e := by
  induction room generalizing level ts with
  | zero =>
    cases h
    exact absurd rfl he
  | succ room ih =>
    rcases bind_eq_error.mp h with ho | ⟨⟨first, rest⟩, ho, hops⟩
    · refine (operand_refused ih he ho).under []
        (fun _ hwords => hwords.loosen (ofLevel_min_level_le level)) ?_
      intro us _ herror
      change (operand (expression room) us >>= _) = _
      rw [herror]
      rfl
    · obtain ⟨read, n, rfl, hleft, -⟩ := leftOperand_of_operand expression_eq_ok level ho
      have hread {us : List Token} (hus : us.head? = rest.head?) :=
        Local.before (operand_local (expression_local room)) ho (alike_of_head?_eq hus)
      refine (operators_refused ih he hleft hops).under read (fun _ hwords => hwords) ?_
      intro us hus herror
      change (operand (expression room) (read ++ us) >>= _) = _
      rw [hread hus]
      exact herror

end Parser

open BlendPlot.Parser

theorem ParseError.offender?_of_inner? {e : ParseError} {t : Token} (h : e.inner? = some t) :
    e.offender? = some t := by
  cases e with
  | unopened => cases h
  | _ => exact h

theorem ParseError.offender?_ofTrailing (t : Token) : (ofTrailing t).offender? = some t := by
  obtain ⟨word, position⟩ := t
  cases word <;> rfl

theorem ParseError.message_of_offender? {e : ParseError} {t : Token} (h : e.offender? = some t) :
    ∃ front back, e.message = front ++ atPosition t.position ++ back := by
  cases e with
  | endOfInput | missingOperand | unclosed | tooComplex => cases h
  | unknownInput c position =>
    cases h
    exact ⟨"Tokenizer error: Unexpected input " ++ quoted c.toString ++ " ", "",
      String.append_empty.symm⟩
  | closingForOperand position =>
    cases h
    exact ⟨"Syntax error: Unexpected closing parenthesis ", ": check for balanced parentheses", rfl⟩
  | unexpected found =>
    cases h
    exact ⟨"Syntax error: Unexpected token ", ": " ++ quoted t.lexeme.spelling,
      String.append_assoc⟩
  | expectedClosing found opening =>
    cases h
    refine ⟨"Syntax error: Expected closing parenthesis ')' but found " ++
      quoted t.lexeme.spelling ++ " ", " (opening " ++ atPosition opening ++ ")", ?_⟩
    unfold message
    simp only [String.append_assoc]
  | unopened position =>
    cases h
    exact ⟨"Unmatched parenthesis ", ": found ')'", rfl⟩

theorem refused_of_readAll {ts : List Token} {e : ParseError} (h : readAll ts = .error e)
    (he : e ≠ .tooComplex) :
    ∃ read rest, ts = read ++ rest ∧ Viable .expression (read.map (·.lexeme)) ∧
      (rest = [] ∧ e.AtEnd read ∨
        ∃ t more, rest = t :: more ∧ e.offender? = some t ∧
          ∀ other, readAll (read ++ t :: other) = .error e) := by
  rcases readAll_eq_error h with hrun | ⟨whole, t, more, hrun, rfl⟩
  · obtain ⟨read, rest, rfl, hread, hend⟩ := expression_refused he maxDepth hrun
    refine ⟨read, rest, rfl, hread, hend.imp_right ?_⟩
    rintro ⟨t, more, rfl, ht, hf⟩
    refine ⟨t, more, rfl, ParseError.offender?_of_inner? ht, fun other => ?_⟩
    rw [readAll, hf other]
  · obtain ⟨read, rfl, hread⟩ := expression_local maxDepth 0 hrun
    obtain ⟨n, hderives, -⟩ := (expression_eq_ok hrun).1.derives
    refine ⟨read, t :: more, rfl, hderives.viable,
      Or.inr ⟨t, more, rfl, ParseError.offender?_ofTrailing t, fun other => ?_⟩⟩
    rw [readAll, hread (t :: other) alike_cons]

/-- Words of an expression are read, or found too complex. -/
theorem not_viable_of_readAll {read : List Token} {e : ParseError}
    (h : ∀ other, readAll (read ++ other) = .error e) (he : e ≠ .tooComplex) :
    ¬Viable .expression (read.map (·.lexeme)) := by
  rintro ⟨more, tree, n, hderives⟩
  -- positions do not matter to what is derived
  let others : List Token := more.map (⟨·, 0⟩)
  have hwords : (read ++ others).map (·.lexeme) = read.map (·.lexeme) ++ more := by
    simp [others, Function.comp_def]
  rw [← hwords] at hderives
  have hread := h others
  rw [hderives.readAll_eq] at hread
  split at hread
  · cases hread
  · cases hread
    exact he rfl

/-- Every error but that of the limits names the first token that no expression can have there. -/
theorem refused_at_first_wrong_token (text : String) (e : ParseError)
    (h : Expr.parse text = .error e) (he : e ≠ .tooComplex) :
    ∃ k, Viable .expression ((lexemes text).take k) ∧
      (k = (tokens text).length ∧
          (e = .endOfInput ∨
            (∃ op position, e = .missingOperand op position ∧
              (tokens text).getLast? = some ⟨.sign op, position⟩) ∨
            ∃ opening, e = .unclosed opening) ∨
        ∃ t, (tokens text)[k]? = some t ∧ ¬Viable .expression ((lexemes text).take (k + 1)) ∧
          e.offender? = some t ∧
          ∃ front back, e.message = front ++ atPosition t.position ++ back) := by
  obtain ⟨read, rest, hts, hread, hend⟩ := refused_of_readAll h he
  have htake (k : Nat) : (lexemes text).take k = ((read ++ rest).take k).map (·.lexeme) := by
    rw [lexemes, hts, List.map_take]
  refine ⟨read.length, by rwa [htake, List.take_left], ?_⟩
  rcases hend with ⟨rfl, hatEnd⟩ | ⟨t, more, rfl, hoffender, hf⟩
  · rw [List.append_nil] at hts
    refine Or.inl ⟨by rw [hts], ?_⟩
    rw [hts]
    cases e with
    | endOfInput => exact Or.inl rfl
    | missingOperand op position => exact Or.inr (Or.inl ⟨op, position, rfl, hatEnd⟩)
    | unclosed opening => exact Or.inr (Or.inr ⟨opening, rfl⟩)
    | _ => exact hatEnd.elim
  · refine Or.inr ⟨t, by simp [hts], ?_, hoffender, ParseError.message_of_offender? hoffender⟩
    have hfirst : (read ++ t :: more).take (read.length + 1) = read ++ [t] := by
      rw [List.take_length_add_append]
      rfl
    rw [htake, hfirst]
    refine not_viable_of_readAll (fun other => ?_) he
    rw [List.append_assoc, List.singleton_append]
    exact hf other

theorem refused_at_first_wrong_token_of_no_factor :
    errorOf (Expr.parse "sin(x, (m*)") = some (.closingForOperand 10) ∧
      ∃ k, (tokens "sin(x, (m*)")[k]? = some ⟨.closing, 10⟩ ∧
        Viable .expression ((lexemes "sin(x, (m*)").take k) ∧
        ¬Viable .expression ((lexemes "sin(x, (m*)").take (k + 1)) := by
  have h : errorOf (Expr.parse "sin(x, (m*)") = some (.closingForOperand 10) := by decide +kernel
  refine ⟨h, ?_⟩
  obtain ⟨k, hviable, ⟨-, hend⟩ | ⟨t, ht, hno, hoffender, -⟩⟩ :=
    refused_at_first_wrong_token "sin(x, (m*)" (.closingForOperand 10)
      (errorOf_eq_some_iff.mp h) (by decide)
  · simp at hend
  · cases hoffender
    exact ⟨k, ht, hviable, hno⟩

end BlendPlot
