import BlendPlot.Proofs.Unmatched

namespace BlendPlot

def Lexeme.endsOperand : Lexeme → Bool
  | number .. | name _ | closing => true
  | sign _ | opening | comma | unknown _ => false

/-- The last of some words ends an operand, so that no operand is due after them. -/
def EndsOperand (words : List Lexeme) : Prop :=
  words.getLast?.any Lexeme.endsOperand

instance (words : List Lexeme) : Decidable (EndsOperand words) :=
  inferInstanceAs (Decidable (_ = true))

theorem endsOperand_append {lefts rights : List Lexeme} (h : rights ≠ []) :
    EndsOperand (lefts ++ rights) ↔ EndsOperand rights := by
  rw [EndsOperand, List.getLast?_append_of_ne_nil lefts h, EndsOperand]

theorem EndsOperand.under {rights : List Lexeme} (h : EndsOperand rights) (lefts : List Lexeme) :
    EndsOperand (lefts ++ rights) := by
  refine (endsOperand_append ?_).mpr h
  rintro rfl
  cases h

theorem not_endsOperand_append (front : List Token) {t : Token}
    (h : t.lexeme.endsOperand = false) : ¬EndsOperand ((front ++ [t]).map (·.lexeme)) := by
  rw [List.map_append, endsOperand_append (by simp)]
  simpa [EndsOperand] using h

theorem endsOperand_listed {pieces : List Piece} (hne : pieces ≠ [])
    (h : ∀ p ∈ pieces, EndsOperand p.words) : EndsOperand (Piece.listed pieces) := by
  induction pieces with
  | nil => exact absurd rfl hne
  | cons p ps ih =>
    cases ps with
    | nil =>
      rw [Piece.listed_singleton]
      exact h p List.mem_cons_self
    | cons q qs =>
      have hrest := ih (List.cons_ne_nil q qs) fun r hr => h r (List.mem_cons_of_mem p hr)
      rw [Piece.listed_cons_cons, List.append_cons]
      exact hrest.under _

theorem Derives.endsOperand {c : Category} {words : List Lexeme} {tree : Expr} {n : Nat}
    (h : Derives c words tree n) : EndsOperand words := by
  induction h with
  | ofTerm _ ih | ofUnary _ ih | ofPower _ ih | ofPrimary _ ih => exact ih
  | sum _ _ _ _ ih | product _ _ _ _ ih | power _ _ _ ih =>
    rw [List.append_cons]
    exact ih.under _
  | positive _ ih => exact ih.under [.sign .plus]
  | negative _ ih => exact ih.under [.sign .minus]
  | number h =>
    obtain ⟨whole, fraction, rfl, -⟩ := Lexeme.value?_eq_some h
    rfl
  | name => rfl
  | @call function args =>
    have hlast : EndsOperand [.closing] := rfl
    exact hlast.under (.name function :: .opening :: Piece.listed args)
  | @group words =>
    have hlast : EndsOperand [.closing] := rfl
    exact hlast.under (.opening :: words)

/-- What the error about a token says of the tokens before it. -/
def ParseError.Follows (read : List Token) : ParseError → Prop
  | unknownInput .. => ¬EndsOperand (read.map (·.lexeme))
  | unexpected found => ∀ c, found.lexeme ≠ .unknown c
  | expectedClosing _ opening =>
    EndsOperand (read.map (·.lexeme)) ∧ InnermostOpen read opening
  | _ => True

theorem ParseError.Follows.under {read : List Token} {e : ParseError} (h : e.Follows read)
    {front : List Token} (hfront : ¬EndsOperand (front.map (·.lexeme))) :
    e.Follows (front ++ read) := by
  cases e with
  | unknownInput =>
    have hread : ¬EndsOperand (read.map (·.lexeme)) := h
    change ¬EndsOperand ((front ++ read).map (·.lexeme))
    by_cases hnil : read = []
    · rwa [hnil, List.append_nil]
    · rwa [List.map_append, endsOperand_append (by simpa using hnil)]
  | expectedClosing found opening =>
    obtain ⟨hends, hopen⟩ := h
    refine ⟨?_, hopen.under front⟩
    rw [List.map_append]
    exact hends.under _
  | unexpected => exact h
  | _ => trivial

namespace Parser

/-- The token that an error is about stands where the error says. -/
def Told (ts : List Token) (e : ParseError) : Prop :=
  ∀ t, e.inner? = some t → ∃ read more, ts = read ++ t :: more ∧ e.Follows read

theorem Told.under {ts : List Token} {e : ParseError} (h : Told ts e) {front : List Token}
    (hfront : ¬EndsOperand (front.map (·.lexeme))) : Told (front ++ ts) e := by
  intro t ht
  obtain ⟨read, more, rfl, hread⟩ := h t ht
  exact ⟨front ++ read, more, by simp, hread.under hfront⟩

theorem told_tooComplex (ts : List Token) : Told ts .tooComplex := nofun

theorem told_above {ts : List Token} {tree : Expr} {parts : List Measured} {e : ParseError}
    (h : Measured.above tree parts = .error e) : Told ts e := by
  rw [above_eq_error h]
  exact told_tooComplex ts

theorem told_first {t : Token} {ts : List Token} {e : ParseError} (he : e.inner? = some t)
    (hfollows : e.Follows []) : Told (t :: ts) e := by
  intro u hu
  obtain rfl := Option.some.inj (he.symm.trans hu)
  exact ⟨[], ts, rfl, hfollows⟩

/-- Only where an operand has ended a parenthesis is due. -/
theorem closing_told (before : List Token) {opening : Nat} {inside rest : List Token}
    {e : ParseError} (hends : EndsOperand (inside.map (·.lexeme)))
    (hinside : Balanced (inside.map (·.lexeme))) (h : closing opening rest = .error e) :
    Told (before ++ ⟨.opening, opening⟩ :: (inside ++ rest)) e := by
  cases rest with
  | nil =>
    cases h
    nofun
  | cons t more =>
    rw [closing] at h
    split at h
    · cases h
    · cases h
      rintro u ⟨⟩
      refine ⟨before ++ ⟨.opening, opening⟩ :: inside, more, by simp, ?_, before, inside, rfl,
        hinside⟩
      rw [List.map_append, List.map_cons, List.append_cons]
      exact hends.under _

section

variable {room : Nat}
  (hsub : ∀ {level ts e}, (expression room level).run ts = .error e → Told ts e)

include hsub

theorem arguments_told {ts : List Token} {e : ParseError}
    (h : arguments (expression room 0) ts = .error e) : Told ts e := by
  fun_induction arguments (expression room 0) ts with
  | case1 ts e' hs =>
    cases h
    exact hsub hs
  | case2 ts first position more hs e' ha ih =>
    cases h
    obtain ⟨read, rfl, -⟩ := expression_local room 0 hs
    rw [List.append_cons]
    exact (ih ha).under (not_endsOperand_append read rfl)
  | case3 => cases h
  | case4 => cases h

theorem call_told {function : String} {opening : Nat} {ts : List Token} {e : ParseError}
    (before : List Token) (h : call (expression room 0) function opening ts = .error e) :
    Told (before ++ ⟨.opening, opening⟩ :: ts) e := by
  by_cases hhead : (ts.map (·.lexeme)).head? = some .closing
  · obtain ⟨place, more, rfl⟩ := eq_closing_of_head? hhead
    rcases bind_eq_error.mp h with hnode | ⟨node, -, h⟩
    · exact told_above hnode
    · cases h
  · rw [call_of_head?_ne hhead] at h
    rcases bind_eq_error.mp h with hargs | ⟨⟨args, rest⟩, hargs, h⟩
    · rw [List.append_cons]
      exact (arguments_told hsub hargs).under (not_endsOperand_append before rfl)
    rcases bind_eq_error.mp h with hclose | ⟨rest₂, -, h⟩
    · obtain ⟨read, pieces, rfl, hwords, -, hne, hpieces⟩ :=
        arguments_eq_ok (fun hs => (@expression_eq_ok room 0 _ _ _ hs).1) hargs
      refine closing_told before ?_ ?_ hclose
      · rw [hwords]
        exact endsOperand_listed hne fun p hp => (hpieces p hp).1.endsOperand
      · rw [hwords]
        exact balanced_listed fun p hp => (hpieces p hp).1.balanced
    rcases bind_eq_error.mp h with hnode | ⟨node, -, h⟩
    · exact told_above hnode
    · cases h

theorem primary_told {ts : List Token} {e : ParseError}
    (h : primary (expression room 0) ts = .error e) : Told ts e := by
  unfold primary at h
  split at h
  next =>
    cases h
    intro t ht
    cases ht
  next => cases h
  next id position opening ts => exact call_told hsub [⟨.name id, position⟩] h
  next => cases h
  next opening ts =>
    rcases bind_eq_error.mp h with hinner | ⟨⟨inner, rest⟩, hinner, h⟩
    · have hfront : ¬EndsOperand ([⟨.opening, opening⟩].map Token.lexeme) :=
        not_endsOperand_append [] rfl
      exact (hsub hinner).under hfront
    rcases bind_eq_error.mp h with hclose | ⟨rest₂, -, h⟩
    · obtain ⟨read, rfl, -⟩ := expression_local room 0 hinner
      obtain ⟨n, hderives, -⟩ := (expression_eq_ok hinner).1.derives
      exact closing_told [] hderives.endsOperand hderives.balanced hclose
    · cases h
  next position ts =>
    cases h
    exact told_first rfl trivial
  next c position ts =>
    cases h
    exact told_first rfl Bool.noConfusion
  next t ts _ _ _ _ _ hunknown =>
    cases h
    refine told_first rfl fun c hc => ?_
    obtain ⟨word, position⟩ := t
    obtain rfl : word = .unknown c := hc
    exact hunknown c position rfl

theorem afterOperator_told {op : Operator} {position level : Nat} {ts : List Token}
    {e : ParseError} (h : afterOperator (expression room level) op position ts = .error e)
    (front : List Token) : Told (front ++ ⟨.sign op, position⟩ :: ts) e := by
  cases ts with
  | nil =>
    cases h
    nofun
  | cons t ts =>
    rw [List.append_cons]
    exact (hsub h).under (not_endsOperand_append front rfl)

theorem operand_told {ts : List Token} {e : ParseError}
    (h : operand (expression room) ts = .error e) : Told ts e := by
  unfold operand at h
  split at h
  next position ts => exact afterOperator_told hsub h []
  next position ts =>
    rcases bind_eq_error.mp h with hinner | ⟨⟨inner, rest⟩, -, h⟩
    · exact afterOperator_told hsub hinner []
    rcases bind_eq_error.mp h with hnode | ⟨node, -, h⟩
    · exact told_above hnode
    · cases h
  next => exact primary_told hsub h

theorem operators_told {level : Nat} {left : Measured} {ts : List Token} {e : ParseError}
    (h : operators (expression room) level left ts = .error e) (front : List Token) :
    Told (front ++ ts) e := by
  fun_induction operators (expression room) level left ts generalizing front with
  | case1 left op position more hop e' hr =>
    cases h
    exact afterOperator_told hsub hr front
  | case2 left op position more hop right rest hr e' hnode =>
    cases h
    exact told_above hnode
  | case3 left op position more hop right rest hr node hnode ih =>
    obtain ⟨read, rfl, -⟩ := afterOperator_local (expression_local room op.rightLevel) _ _ hr
    have hrest := ih h (front ++ ⟨.sign op, position⟩ :: read)
    rwa [List.append_assoc, List.cons_append] at hrest
  | case4 => cases h
  | case5 => cases h

end

theorem expression_told (room : Nat) {level : Nat} {ts : List Token} {e : ParseError}
    (h : (expression room level).run ts = .error e) : Told ts e := by
  induction room generalizing level ts e with
  | zero =>
    cases h
    exact told_tooComplex ts
  | succ room ih =>
    rcases bind_eq_error.mp h with ho | ⟨⟨first, rest⟩, ho, hops⟩
    · exact operand_told ih ho
    · obtain ⟨read, rfl, -⟩ := operand_local (expression_local room) ho
      exact operators_told ih hops read

end Parser

theorem Viable.front {c : Category} {words more : List Lexeme} (h : Viable c (words ++ more)) :
    Viable c words := by
  obtain ⟨rest, tree, n, hwords⟩ := h
  exact ⟨more ++ rest, tree, n, by rwa [← List.append_assoc]⟩

theorem Viable.not_mem_unknown {c : Category} {words : List Lexeme} (h : Viable c words)
    (char : Char) : .unknown char ∉ words := by
  obtain ⟨more, tree, n, hwords⟩ := h
  exact fun hmem => hwords.not_mem_unknown char (List.mem_append_left more hmem)

open BlendPlot.Parser

/-- However tokens are split, the first one that cannot follow those before it is the same. -/
theorem eq_of_first_wrong {front after read more : List Token} {t u : Token}
    (heq : front ++ t :: after = read ++ u :: more)
    (hfront : Viable .expression (front.map (·.lexeme)))
    (ht : ¬Viable .expression ((front ++ [t]).map (·.lexeme)))
    (hread : Viable .expression (read.map (·.lexeme)))
    (hu : ¬Viable .expression ((read ++ [u]).map (·.lexeme))) : t = u := by
  rcases List.append_eq_append_iff.mp heq with ⟨mid, rfl, hmid⟩ | ⟨mid, rfl, hmid⟩
  · cases mid with
    | nil => exact (List.cons.inj hmid).1
    | cons v mid =>
      obtain ⟨rfl, -⟩ := List.cons.inj hmid
      rw [List.append_cons, List.map_append] at hread
      exact absurd hread.front ht
  · cases mid with
    | nil => exact (List.cons.inj hmid).1.symm
    | cons v mid =>
      obtain ⟨rfl, -⟩ := List.cons.inj hmid
      rw [List.append_cons, List.map_append] at hfront
      exact absurd hfront.front hu

theorem offender?_of_unknown {front after : List Token} {c : Char} {p : Nat}
    (hfront : Viable .expression (front.map (·.lexeme)))
    (hlimit : readAll (front ++ ⟨.unknown c, p⟩ :: after) ≠ .error .tooComplex) :
    ∃ e, readAll (front ++ ⟨.unknown c, p⟩ :: after) = .error e ∧
      e.offender? = some ⟨.unknown c, p⟩ := by
  cases hread : readAll (front ++ ⟨.unknown c, p⟩ :: after) with
  | ok tree =>
    obtain ⟨n, hderives, -⟩ := derives_of_readAll hread
    exact absurd (by simp) (hderives.not_mem_unknown c)
  | error e =>
    have he : e ≠ .tooComplex := by
      rintro rfl
      exact hlimit hread
    refine ⟨e, rfl, ?_⟩
    obtain ⟨read, rest, heq, hviable, ⟨rfl, -⟩ | ⟨t, more, rfl, hoffender, hf⟩⟩ :=
      refused_of_readAll hread he
    · -- all tokens cannot be completed, since the character is one of them
      rw [List.append_nil] at heq
      rw [← heq] at hviable
      exact absurd (by simp) (hviable.not_mem_unknown c)
    · have hnext : ¬Viable .expression ((read ++ [t]).map (·.lexeme)) :=
        not_viable_of_readAll (fun other => by
          rw [List.append_assoc]
          exact hf other) he
      have hunknown : ¬Viable .expression ((front ++ [Token.mk (.unknown c) p]).map (·.lexeme)) :=
        fun hall => absurd (by simp) (hall.not_mem_unknown c)
      rw [eq_of_first_wrong heq hfront hunknown hviable hnext]
      exact hoffender

theorem inner?_of_unknown {e : ParseError} {c : Char} {p : Nat}
    (h : e.offender? = some ⟨.unknown c, p⟩) : e.inner? = some ⟨.unknown c, p⟩ := by
  cases e with
  | unopened => cases h
  | _ => exact h

theorem readAll_of_unknown {front after : List Token} {c : Char} {p : Nat}
    (hnodup : (front ++ ⟨.unknown c, p⟩ :: after).Nodup)
    (hfront : Viable .expression (front.map (·.lexeme)))
    (hlimit : readAll (front ++ ⟨.unknown c, p⟩ :: after) ≠ .error .tooComplex) :
    readAll (front ++ ⟨.unknown c, p⟩ :: after) = .error (.unknownInput c p) ∧
        (EndsOperand (front.map (·.lexeme)) → ∀ opening, ¬InnermostOpen front opening) ∨
      ∃ opening, readAll (front ++ ⟨.unknown c, p⟩ :: after) =
          .error (.expectedClosing ⟨.unknown c, p⟩ opening) ∧
        EndsOperand (front.map (·.lexeme)) ∧ InnermostOpen front opening := by
  obtain ⟨e, hread, hoffender⟩ := offender?_of_unknown hfront hlimit
  rw [List.nodup_middle, List.nodup_cons, List.mem_append, not_or] at hnodup
  have hunique {read more : List Token}
      (heq : front ++ ⟨.unknown c, p⟩ :: after = read ++ ⟨.unknown c, p⟩ :: more) : front = read :=
    ((List.append_cons_inj_of_notMem hnodup.1.1 hnodup.1.2).mp heq).1
  rcases readAll_eq_error hread with hrun | ⟨whole, t, more, hrun, rfl⟩
  · have hinner := inner?_of_unknown hoffender
    obtain ⟨read, more, heq, hfollows⟩ := expression_told maxDepth hrun _ hinner
    obtain rfl := hunique heq
    cases e with
    | unknownInput =>
      cases hinner
      exact Or.inl ⟨hread, fun hends => absurd hends hfollows⟩
    | expectedClosing found opening =>
      cases hinner
      exact Or.inr ⟨opening, hread, hfollows⟩
    | unexpected found =>
      cases hinner
      exact absurd rfl (hfollows c)
    | _ => cases hinner
  · -- a complete expression comes before the character, so nothing is open there
    obtain rfl := Option.some.inj ((ParseError.offender?_ofTrailing t).symm.trans hoffender)
    obtain ⟨read, heq, -⟩ := expression_local maxDepth 0 hrun
    obtain rfl := hunique heq
    rw [heq] at hrun
    obtain ⟨n, hderives, -⟩ := (expression_eq_ok hrun).1.derives
    refine Or.inl ⟨hread, fun _ opening ⟨before, inside, hbefore, hinside⟩ => ?_⟩
    rw [hbefore, List.map_append, List.map_cons] at hderives
    exact hderives.balanced.not_open (Nat.le_of_eq hinside.whole)

/-- After an operand inside parentheses the first unknown character is not named as unknown. -/
theorem parse_of_unknown {text : String} {front after : List Token} {c : Char} {p : Nat}
    (h : tokens text = front ++ ⟨.unknown c, p⟩ :: after)
    (hfront : Viable .expression (front.map (·.lexeme)))
    (hlimit : Expr.parse text ≠ .error .tooComplex) :
    (¬EndsOperand (front.map (·.lexeme)) ∨ (∀ opening, ¬InnermostOpen front opening) →
      Expr.parse text = .error (.unknownInput c p)) ∧
    ∀ opening, EndsOperand (front.map (·.lexeme)) → InnermostOpen front opening →
      Expr.parse text = .error (.expectedClosing ⟨.unknown c, p⟩ opening) := by
  have hnodup := tokens_nodup text
  rw [parse_eq_readAll, h] at hlimit ⊢
  rw [h] at hnodup
  obtain ⟨hread, hclosed⟩ | ⟨opening, hread, hends, hopen⟩ :=
    readAll_of_unknown hnodup hfront hlimit
  · exact ⟨fun _ => hread, fun opening hends hopen => absurd hopen (hclosed hends opening)⟩
  · refine ⟨fun hnot => ?_, fun other _ hother => ?_⟩
    · rcases hnot with hnot | hnot
      · exact absurd hends hnot
      · exact absurd hopen (hnot opening)
    · rw [hother.unique hopen]
      exact hread

theorem parse_of_unknown_in_argument :
    let front : List Token :=
      [⟨.name "f", 0⟩, ⟨.opening, 1⟩, ⟨.number ['1'] none, 2⟩, ⟨.sign .plus, 4⟩]
    tokens "f(1 + #" = front ++ [⟨.unknown '#', 6⟩] ∧
      Viable .expression (front.map (·.lexeme)) ∧
      Expr.parse "f(1 + #" ≠ .error .tooComplex ∧
      Expr.parse "f(1 + #" = .error (.unknownInput '#' 6) := by
  intro front
  have htokens : tokens "f(1 + #" = front ++ [⟨.unknown '#', 6⟩] := by decide +kernel
  have hviable : Viable .expression (front.map (·.lexeme)) := by
    have hsum : Viable .expression [.number ['1'] none, .sign .plus] :=
      @Viable.binary .plus _ _ _ _ (viable_nil.loosen (by decide))
        ((Derives.number rfl).loosen (by decide))
    exact (hsum.argument.call "f").loosen (by decide)
  have hlimit : Expr.parse "f(1 + #" ≠ .error .tooComplex :=
    mt errorOf_eq_some_iff.mpr (by decide +kernel)
  exact ⟨htokens, hviable, hlimit, (parse_of_unknown htokens hviable hlimit).1 (Or.inl (by decide))⟩

/-- After an operand in a group the character is not named as unknown. -/
theorem parse_of_unknown_in_group :
    let front : List Token := [⟨.opening, 0⟩, ⟨.number ['1'] none, 1⟩]
    tokens "(1 $" = front ++ [⟨.unknown '$', 3⟩] ∧
      Viable .expression (front.map (·.lexeme)) ∧
      Expr.parse "(1 $" ≠ .error .tooComplex ∧
      Expr.parse "(1 $" ≠ .error (.unknownInput '$' 3) := by
  intro front
  have hone : Derives .expression [.number ['1'] none] _ _ := (Derives.number rfl).loosen (by decide)
  have hread : Expr.parse "(1 $" = .error (.expectedClosing ⟨.unknown '$', 3⟩ 0) :=
    errorOf_eq_some_iff.mp (by decide +kernel)
  rw [hread]
  exact ⟨by decide +kernel, hone.viable.group.loosen (by decide), nofun, nofun⟩

end BlendPlot
