import BlendPlot.Expr.Parser
import BlendPlot.Proofs.Grammar

namespace BlendPlot

def Expr.measured (tree : Expr) : Parser.Measured :=
  ⟨tree, tree.height⟩

/-- Whether a tree can be read with a derivation of nesting `n` in `room` levels. -/
def Expr.Fits (tree : Expr) (room n : Nat) : Prop :=
  n ≤ room ∧ tree.height ≤ maxDepth

instance (tree : Expr) (room n : Nat) : Decidable (tree.Fits room n) :=
  inferInstanceAs (Decidable (_ ∧ _))

/-- No operator that binds as tightly as the level comes next, and no group. -/
def Stops (level : Nat) (rest : List Token) : Prop :=
  ∀ t more, rest = t :: more → t.lexeme ≠ .opening ∧ ∀ op, t.lexeme = .sign op → op.level < level

namespace Category

/-- The tightest level at which a layer is read. -/
def readLevel : Category → Nat
  | expression => 1
  | term => 2
  | _ => 4

/-- Only operators below this level may follow a part of a layer. -/
def endLevel : Category → Nat
  | expression => 2
  | term => 3
  | unary | power => 4
  | primary => atomLevel

end Category

theorem Stops.mono {level higher : Nat} {rest : List Token} (h : Stops level rest)
    (hle : level ≤ higher) : Stops higher rest := by
  intro t more he
  obtain ⟨ho, hs⟩ := h t more he
  exact ⟨ho, fun op hop => Nat.lt_of_lt_of_le (hs op hop) hle⟩

theorem stops_nil (level : Nat) : Stops level [] := by
  intro t more h
  cases h

theorem stops_closing {t : Token} (h : t.lexeme = .closing) (level : Nat) (more : List Token) :
    Stops level (t :: more) := by
  intro u rest he
  cases he
  simp [h]

theorem stops_comma {t : Token} (h : t.lexeme = .comma) (level : Nat) (more : List Token) :
    Stops level (t :: more) := by
  intro u rest he
  cases he
  simp [h]

theorem stops_sign {t : Token} {op : Operator} (h : t.lexeme = .sign op) {level : Nat}
    (hl : op.level < level) (more : List Token) : Stops level (t :: more) := by
  intro u rest he
  cases he
  refine ⟨by simp [h], fun op' hop => ?_⟩
  rw [h] at hop
  cases hop
  exact hl

theorem Stops.below_sign {rest : List Token} (h : Stops 4 rest) : Stops signLevel rest := by
  intro t more he
  refine (h t more he).imp_right fun hs op hop => ?_
  have hlt := hs op hop
  revert hlt
  cases op <;> decide

namespace Parser

theorem foldr_measured (trees : List Expr) :
    (trees.map Expr.measured).foldr (fun part h => max part.height h) 0 =
      Expr.maxHeight trees := by
  induction trees with
  | nil => rfl
  | cons t ts ih => rw [List.map_cons, List.foldr_cons, ih]; rfl

theorem above_measured (tree : Expr) (parts : List Expr)
    (h : tree.height = Expr.maxHeight parts + 1) :
    Measured.above tree (parts.map Expr.measured) =
      if tree.height ≤ maxDepth then .ok tree.measured else .error .tooComplex := by
  rw [Measured.above, foldr_measured, ← h]
  by_cases hm : tree.height ≤ maxDepth
  · simp [hm, Nat.not_lt.mpr hm, Expr.measured]
  · simp [hm, Nat.lt_of_not_le hm]

theorem operators_of_stops {sub : Nat → Reader} {level : Nat} {left : Measured}
    {rest : List Token} (h : Stops level rest) :
    operators sub level left rest = .ok (left, rest) := by
  unfold operators
  split
  next op position more =>
    have hlt := (h _ _ rfl).2 op rfl
    rw [if_neg (Nat.not_le.mpr hlt)]
  next => rfl

theorem operators_sign {sub : Nat → Reader} {level : Nat} {left : Measured} {op : Operator}
    {position : Nat} {more : List Token} (h : level ≤ op.level) :
    operators sub level left (⟨.sign op, position⟩ :: more) =
      (do
        let (right, rest) ← afterOperator (sub op.rightLevel) op position more
        let node ← Measured.above (.binary op left.expr right.expr) [left, right]
        operators sub level node rest) := by
  rw [operators, if_pos h]
  split
  next e hr => rw [hr]; rfl
  next right rest hr =>
    rw [hr]
    change _ = (Measured.above _ _ >>= _)
    split
    next e hn => rw [hn]; rfl
    next node hn => rw [hn]; rfl

theorem afterOperator_of_ne_nil {sub : Reader} {op : Operator} {position : Nat}
    {ts : List Token} (h : ts ≠ []) : afterOperator sub op position ts = sub.run ts := by
  cases ts with
  | nil => exact absurd rfl h
  | cons t ts => rfl

theorem arguments_eq (sub : Reader) (ts : List Token) :
    arguments sub ts = (do
      let (first, rest) ← sub.run ts
      match rest with
      | ⟨.comma, _⟩ :: more =>
        let (others, rest) ← arguments sub more
        return (first :: others, rest)
      | rest => return ([first], rest)) := by
  rw [arguments]
  split
  next e h => rw [h]; rfl
  next first position more h =>
    rw [h]
    change _ = (arguments sub more >>= _)
    split
    next e h => rw [h]; rfl
    next others rest h => rw [h]; rfl
  next first rest hno h =>
    rw [h]
    change _ = (match rest with | ⟨.comma, _⟩ :: more => _ | rest => _)
    split
    next => exact absurd rfl (hno _ _)
    next => rfl

theorem arguments_last {sub : Reader} {ts rest : List Token} {m : Measured}
    (h : sub.run ts = .ok (m, rest)) (hrest : ∀ t ∈ rest.head?, t.lexeme ≠ .comma) :
    arguments sub ts = .ok ([m], rest) := by
  rw [arguments_eq, h]
  change (match rest with | ⟨.comma, _⟩ :: more => _ | rest => _) = _
  split
  next => exact absurd rfl (hrest _ rfl)
  next => rfl

theorem arguments_more {sub : Reader} {ts rest : List Token} {m : Measured} {t : Token}
    (h : sub.run ts = .ok (m, t :: rest)) (ht : t.lexeme = .comma) :
    arguments sub ts = (do
      let (others, rest) ← arguments sub rest
      return (m :: others, rest)) := by
  obtain ⟨word, position⟩ := t
  change word = .comma at ht
  subst ht
  rw [arguments_eq, h]
  rfl

theorem arguments_error {sub : Reader} {ts : List Token} {e : ParseError}
    (h : sub.run ts = .error e) : arguments sub ts = .error e := by
  rw [arguments_eq, h]
  rfl

theorem closing_ne_tooComplex (opening : Nat) (ts : List Token) :
    closing opening ts ≠ .error .tooComplex := by
  cases ts with
  | nil =>
    intro h
    cases h
  | cons t ts =>
    rw [closing]
    split
    · intro h
      cases h
    · intro h
      cases h

end Parser

open BlendPlot.Parser

/-- Tokens with these words are read as this tree, and then the operators after them. -/
def ReadAs (c : Category) (words : List Lexeme) (tree : Expr) (n : Nat) : Prop :=
  ∀ (ts rest : List Token) (level room : Nat), ts.map (·.lexeme) = words → level ≤ c.readLevel →
    Stops c.endLevel rest →
    (expression (room + 1) level).run (ts ++ rest) =
      if tree.Fits (room + 1) n then operators (expression room) level tree.measured rest
      else .error .tooComplex

theorem ReadAs.whole {c : Category} {words : List Lexeme} {tree : Expr} {n : Nat}
    (h : ReadAs c words tree n) (hn : 0 < n) {ts rest : List Token} {level : Nat} (room : Nat)
    (hts : ts.map (·.lexeme) = words) (hlevel : level ≤ c.readLevel) (hend : Stops c.endLevel rest)
    (hstop : Stops level rest) :
    (expression room level).run (ts ++ rest) =
      if tree.Fits room n then .ok (tree.measured, rest) else .error .tooComplex := by
  cases room with
  | zero =>
    have hf : ¬tree.Fits 0 n := fun hf => Nat.not_lt.mpr hf.1 hn
    rw [if_neg hf]
    rfl
  | succ room => rw [h ts rest level room hts hlevel hend, operators_of_stops hstop]

theorem readAs_of_eq {c d : Category} {words : List Lexeme} {tree : Expr} {n : Nat}
    (h : ReadAs d words tree n) (hr : c.readLevel ≤ d.readLevel) (he : c.endLevel ≤ d.endLevel) :
    ReadAs c words tree n := by
  intro ts rest level room hts hlevel hend
  exact h ts rest level room hts (Nat.le_trans hlevel hr) (hend.mono he)

theorem readAs_binary {op : Operator} {c cl cr : Category} {lefts rights : List Lexeme}
    {left right : Expr} {n m : Nat} (hl : ReadAs cl lefts left n) (hr : ReadAs cr rights right m)
    (hm : 0 < m) (hne : rights ≠ []) (hcl : c.readLevel ≤ cl.readLevel)
    (hop : c.readLevel ≤ op.level) (hlo : op.level < cl.endLevel)
    (hro : op.rightLevel ≤ cr.readLevel) (hcr : c.endLevel ≤ cr.endLevel)
    (hco : c.endLevel ≤ op.rightLevel) :
    ReadAs c (lefts ++ .sign op :: rights) (.binary op left right) (max n (m + 1)) := by
  intro ts rest level room hts hlevel hend
  obtain ⟨tl, ts', rfl, htl, hts'⟩ := List.map_eq_append_iff.mp hts
  obtain ⟨⟨word, position⟩, tr, rfl, ht, htr⟩ := List.map_eq_cons_iff.mp hts'
  change word = .sign op at ht
  subst ht
  have hnil : tr ++ rest ≠ [] := by
    intro h
    obtain ⟨rfl, _⟩ := List.append_eq_nil_iff.mp h
    exact hne htr.symm
  have hstop : Stops cl.endLevel (⟨.sign op, position⟩ :: (tr ++ rest)) :=
    stops_sign rfl hlo _
  have hright := hr.whole hm room htr hro (hend.mono hcr) (hend.mono hco)
  have habove := above_measured (.binary op left right) [left, right] (by
    simp [Expr.height, Expr.maxHeight])
  rw [List.append_assoc, List.cons_append,
    hl tl _ level room htl (Nat.le_trans hlevel hcl) hstop]
  by_cases hfl : left.Fits (room + 1) n
  · rw [if_pos hfl, operators_sign (Nat.le_trans hlevel hop), afterOperator_of_ne_nil hnil, hright]
    by_cases hfr : right.Fits room m
    · rw [if_pos hfr]
      change (Measured.above (.binary op left right) ([left, right].map Expr.measured) >>= _) = _
      have hh : (Expr.binary op left right).Fits (room + 1) (max n (m + 1)) ↔
          (Expr.binary op left right).height ≤ maxDepth := by
        have h1 := hfl.1
        have h2 := hfr.1
        simp only [Expr.Fits]
        omega
      simp only [habove, hh]
      split <;> rfl
    · have hno : ¬(Expr.binary op left right).Fits (room + 1) (max n (m + 1)) := by
        intro hf
        have h1 := hf.1
        have h2 := hf.2
        simp only [Expr.height] at h2
        exact hfr ⟨by omega, by omega⟩
      rw [if_neg hfr, if_neg hno]
      rfl
  · have hno : ¬(Expr.binary op left right).Fits (room + 1) (max n (m + 1)) := by
      intro hf
      have h1 := hf.1
      have h2 := hf.2
      simp only [Expr.height] at h2
      exact hfl ⟨by omega, by omega⟩
    rw [if_neg hfl, if_neg hno]

theorem readAs_positive {words : List Lexeme} {tree : Expr} {n : Nat}
    (h : ReadAs .unary words tree n) (hn : 0 < n) (hne : words ≠ []) :
    ReadAs .unary (.sign .plus :: words) tree (n + 1) := by
  intro ts rest level room hts hlevel hend
  obtain ⟨⟨word, position⟩, us, rfl, ht, hus⟩ := List.map_eq_cons_iff.mp hts
  change word = .sign .plus at ht
  subst ht
  have hnil : us ++ rest ≠ [] := by
    intro he
    obtain ⟨rfl, _⟩ := List.append_eq_nil_iff.mp he
    exact hne hus.symm
  have hread := h.whole hn room hus (by decide : signLevel ≤ Category.unary.readLevel) hend
    hend.below_sign
  change (afterOperator _ _ _ (us ++ rest) >>= _) = _
  have hf : tree.Fits (room + 1) (n + 1) ↔ tree.Fits room n := by
    simp only [Expr.Fits]
    omega
  simp only [afterOperator_of_ne_nil hnil, hread, hf]
  split <;> rfl

theorem readAs_negative {words : List Lexeme} {tree : Expr} {n : Nat}
    (h : ReadAs .unary words tree n) (hn : 0 < n) (hne : words ≠ []) :
    ReadAs .unary (.sign .minus :: words) (.negate tree) (n + 1) := by
  intro ts rest level room hts hlevel hend
  obtain ⟨⟨word, position⟩, us, rfl, ht, hus⟩ := List.map_eq_cons_iff.mp hts
  change word = .sign .minus at ht
  subst ht
  have hnil : us ++ rest ≠ [] := by
    intro he
    obtain ⟨rfl, _⟩ := List.append_eq_nil_iff.mp he
    exact hne hus.symm
  have hread := h.whole hn room hus (by decide : signLevel ≤ Category.unary.readLevel) hend
    hend.below_sign
  have habove := above_measured (.negate tree) [tree] (by
    simp [Expr.height, Expr.maxHeight])
  change ((afterOperator _ _ _ (us ++ rest) >>= _) >>= _) = _
  rw [afterOperator_of_ne_nil hnil, hread]
  by_cases hf : tree.Fits room n
  · have hh : (Expr.negate tree).Fits (room + 1) (n + 1) ↔
        (Expr.negate tree).height ≤ maxDepth := by
      have h1 := hf.1
      simp only [Expr.Fits]
      omega
    rw [if_pos hf]
    change ((Measured.above (.negate tree) ([tree].map Expr.measured) >>= _) >>= _) = _
    simp only [habove, hh]
    split <;> rfl
  · have hno : ¬(Expr.negate tree).Fits (room + 1) (n + 1) := by
      intro hg
      have h1 := hg.1
      have h2 := hg.2
      simp only [Expr.height] at h2
      exact hf ⟨by omega, by omega⟩
    rw [if_neg hf, if_neg hno]
    rfl

theorem fits_leaf {tree : Expr} (h : tree.height = 1) (room : Nat) : tree.Fits (room + 1) 1 :=
  ⟨by omega, by rw [h]; decide⟩

theorem readAs_number {word : Lexeme} {value : Float} (h : word.value? = some value) :
    ReadAs .primary [word] (.number value) 1 := by
  obtain ⟨whole, fraction, rfl, rfl⟩ := Lexeme.value?_eq_some h
  intro ts rest level room hts hlevel hend
  obtain ⟨⟨word, position⟩, us, rfl, ht, hus⟩ := List.map_eq_cons_iff.mp hts
  change word = .number whole fraction at ht
  subst ht
  obtain rfl := List.map_eq_nil_iff.mp hus
  rw [if_pos (fits_leaf rfl room)]
  rfl

theorem readAs_name (id : String) : ReadAs .primary [.name id] (.name id) 1 := by
  intro ts rest level room hts hlevel hend
  obtain ⟨⟨word, position⟩, us, rfl, ht, hus⟩ := List.map_eq_cons_iff.mp hts
  change word = .name id at ht
  subst ht
  obtain rfl := List.map_eq_nil_iff.mp hus
  rw [if_pos (fits_leaf rfl room)]
  have hprimary : primary (expression room 0) (⟨.name id, position⟩ :: rest) =
      .ok (.leaf (.name id), rest) := by
    cases rest with
    | nil => rfl
    | cons t more =>
      obtain ⟨word, place⟩ := t
      have hno := (hend _ _ rfl).1
      cases word with
      | opening => exact absurd rfl hno
      | _ => rfl
  change (primary _ (⟨.name id, position⟩ :: rest) >>= _) = _
  rw [hprimary]
  rfl

theorem readAs_group {words : List Lexeme} {tree : Expr} {n : Nat}
    (h : ReadAs .expression words tree n) (hn : 0 < n) :
    ReadAs .primary (.opening :: (words ++ [.closing])) tree (n + 1) := by
  intro ts rest level room hts hlevel hend
  obtain ⟨⟨word, position⟩, us, rfl, ht, hus⟩ := List.map_eq_cons_iff.mp hts
  change word = .opening at ht
  subst ht
  obtain ⟨vs, last, rfl, hvs, hlast⟩ := List.map_eq_append_iff.mp hus
  obtain ⟨t, rfl, ht⟩ := List.map_eq_singleton_iff.mp hlast
  have hread := h.whole hn room hvs (Nat.zero_le _) (stops_closing ht _ rest)
    (stops_closing ht 0 rest)
  have hclose : closing position (t :: rest) = .ok rest := by rw [closing, if_pos ht]
  have hf : tree.Fits (room + 1) (n + 1) ↔ tree.Fits room n := by
    simp only [Expr.Fits]
    omega
  rw [List.cons_append, List.append_assoc, List.singleton_append]
  change (((expression room 0).run (vs ++ t :: rest) >>= _) >>= _) = _
  simp only [hread, hf]
  split
  · change ((closing position (t :: rest) >>= _) >>= _) = _
    rw [hclose]
    rfl
  · rfl

theorem height_le_maxHeight {tree : Expr} {trees : List Expr} (h : tree ∈ trees) :
    tree.height ≤ Expr.maxHeight trees := by
  induction trees with
  | nil => cases h
  | cons t ts ih =>
    rcases List.mem_cons.mp h with rfl | ht
    · exact Nat.le_max_left _ _
    · exact Nat.le_trans (ih ht) (Nat.le_max_right _ _)

theorem arguments_listed {args : List Piece} (hne : args ≠ [])
    (h : ∀ a ∈ args, ReadAs .expression a.words a.tree a.nesting)
    (hpos : ∀ a ∈ args, 0 < a.nesting) {ts : List Token} (rest : List Token) {t : Token}
    (room : Nat) (hts : ts.map (·.lexeme) = Piece.listed args) (ht : t.lexeme = .closing) :
    arguments (expression room 0) (ts ++ t :: rest) =
      if ∀ a ∈ args, a.tree.Fits room a.nesting then
        .ok ((args.map (·.tree)).map Expr.measured, t :: rest)
      else .error .tooComplex := by
  induction args generalizing ts with
  | nil => exact absurd rfl hne
  | cons a args ih =>
    have hread (us : List Token) (u : Token) (more : List Token)
        (hus : us.map (·.lexeme) = a.words) (he : Stops Category.expression.endLevel (u :: more))
        (hs : Stops 0 (u :: more)) := (h a (by simp)).whole (hpos a (by simp)) room hus
          (Nat.zero_le _) he hs
    cases args with
    | nil =>
      rw [Piece.listed_singleton] at hts
      have ha := hread ts t rest hts (stops_closing ht _ rest) (stops_closing ht 0 rest)
      by_cases hf : a.tree.Fits room a.nesting
      · rw [if_pos hf] at ha
        rw [arguments_last ha (by simp [ht]), if_pos (by simpa using hf)]
        rfl
      · rw [if_neg hf] at ha
        rw [arguments_error ha, if_neg (by simpa using hf)]
    | cons b args =>
      rw [Piece.listed_cons_cons] at hts
      obtain ⟨us, vs', rfl, hus, hvs'⟩ := List.map_eq_append_iff.mp hts
      obtain ⟨u, vs, rfl, hu, hvs⟩ := List.map_eq_cons_iff.mp hvs'
      have ha := hread us u (vs ++ t :: rest) hus (stops_comma hu _ _) (stops_comma hu 0 _)
      rw [List.append_assoc, List.cons_append]
      by_cases hf : a.tree.Fits room a.nesting
      · rw [if_pos hf] at ha
        have hmore := ih (by simp) (fun p hp => h p (List.mem_cons_of_mem a hp))
          (fun p hp => hpos p (List.mem_cons_of_mem a hp)) hvs
        have hall : (∀ p ∈ a :: b :: args, p.tree.Fits room p.nesting) ↔
            ∀ p ∈ b :: args, p.tree.Fits room p.nesting := by
          rw [List.forall_mem_cons]
          exact and_iff_right hf
        simp only [arguments_more ha hu, hmore, hall]
        split <;> rfl
      · rw [if_neg hf] at ha
        rw [arguments_error ha, if_neg]
        intro hall
        exact hf (hall a (by simp))

theorem fits_call_iff (function : String) {args : List Piece} {room : Nat} :
    (Expr.call function (args.map (·.tree))).Fits (room + 1) (Piece.deepest args + 1) ↔
      (∀ a ∈ args, a.tree.Fits room a.nesting) ∧
        (Expr.call function (args.map (·.tree))).height ≤ maxDepth := by
  constructor
  · rintro ⟨hn, hh⟩
    refine ⟨fun a ha => ⟨Piece.deepest_le_iff.mp (Nat.le_of_succ_le_succ hn) a ha, ?_⟩, hh⟩
    have hle := height_le_maxHeight (List.mem_map_of_mem (f := (·.tree)) ha)
    simp only [Expr.height] at hh
    omega
  · rintro ⟨ha, hh⟩
    exact ⟨Nat.succ_le_succ (Piece.deepest_le_iff.mpr fun a h => (ha a h).1), hh⟩

theorem eq_closing_of_head? {ts : List Token}
    (h : (ts.map (·.lexeme)).head? = some .closing) :
    ∃ position more, ts = ⟨.closing, position⟩ :: more := by
  cases ts with
  | nil => cases h
  | cons t more =>
    obtain ⟨word, position⟩ := t
    obtain rfl : word = .closing := Option.some.inj h
    exact ⟨position, more, rfl⟩

theorem call_of_head?_ne {sub : Reader} {function : String} {opening : Nat} {ts : List Token}
    (h : (ts.map (·.lexeme)).head? ≠ some .closing) :
    call sub function opening ts = (do
      let (args, rest) ← arguments sub ts
      let rest ← closing opening rest
      let node ← Measured.above (.call function (args.map (·.expr))) args
      return (node, rest)) := by
  unfold call
  split
  · exact absurd rfl h
  · rfl

theorem readAs_call (function : String) {args : List Piece}
    (h : ∀ a ∈ args, ReadAs .expression a.words a.tree a.nesting)
    (hd : ∀ a ∈ args, Derives .expression a.words a.tree a.nesting) :
    ReadAs .primary (.name function :: .opening :: (Piece.listed args ++ [.closing]))
      (.call function (args.map (·.tree))) (Piece.deepest args + 1) := by
  intro ts rest level room hts hlevel hend
  obtain ⟨⟨word, position⟩, us, rfl, ht, hus⟩ := List.map_eq_cons_iff.mp hts
  change word = .name function at ht
  subst ht
  obtain ⟨⟨word, opening⟩, vs, rfl, ht, hvs⟩ := List.map_eq_cons_iff.mp hus
  change word = .opening at ht
  subst ht
  obtain ⟨ws, last, rfl, hws, hlast⟩ := List.map_eq_append_iff.mp hvs
  obtain ⟨t, rfl, ht⟩ := List.map_eq_singleton_iff.mp hlast
  rw [List.cons_append, List.cons_append, List.append_assoc, List.singleton_append]
  change (call (expression room 0) function opening (ws ++ t :: rest) >>= _) = _
  by_cases hne : args = []
  · subst hne
    obtain rfl := List.map_eq_nil_iff.mp hws
    obtain ⟨word, place⟩ := t
    change word = .closing at ht
    subst ht
    have hf : (Expr.call function (([] : List Piece).map (·.tree))).Fits (room + 1)
        (Piece.deepest [] + 1) := fits_leaf rfl room
    rw [if_pos hf]
    rfl
  · have hhead : ((ws ++ t :: rest).map (·.lexeme)).head? ≠ some .closing := by
      obtain ⟨word, words, hl, a, ha, hw⟩ :=
        Piece.exists_listed_eq_cons hne fun a ha => (hd a ha).words_ne_nil
      have hclosing := (hd a ha).head?_ne_closing
      rw [List.map_append, hws, hl, List.cons_append, List.head?_cons, ← hw]
      exact hclosing
    have hclose : closing opening (t :: rest) = .ok rest := by rw [closing, if_pos ht]
    have hargs := arguments_listed hne h (fun a ha => (hd a ha).nesting_pos) rest room hws ht
    rw [call_of_head?_ne hhead, hargs]
    by_cases hall : ∀ a ∈ args, a.tree.Fits room a.nesting
    · have hf : (Expr.call function (args.map (·.tree))).Fits (room + 1) (Piece.deepest args + 1) ↔
          (Expr.call function (args.map (·.tree))).height ≤ maxDepth := by
        rw [fits_call_iff]
        exact and_iff_right hall
      have hmap : ((args.map (·.tree)).map Expr.measured).map (·.expr) = args.map (·.tree) := by
        rw [List.map_map]
        exact List.map_id _
      have habove := above_measured (.call function (args.map (·.tree))) (args.map (·.tree)) rfl
      rw [if_pos hall]
      change ((closing opening (t :: rest) >>= _) >>= _) = _
      rw [hclose]
      change ((Measured.above (.call function (((args.map (·.tree)).map Expr.measured).map
        (·.expr))) _ >>= _) >>= _) = _
      simp only [hmap, habove, hf]
      split <;> rfl
    · have hno := mt (fun hg => ((fits_call_iff function).mp hg).1) hall
      rw [if_neg hall, if_neg hno]
      rfl

/-- What the grammar derives is read, if it fits. -/
theorem Derives.readAs {c : Category} {words : List Lexeme} {tree : Expr} {n : Nat}
    (h : Derives c words tree n) : ReadAs c words tree n := by
  induction h with
  | ofTerm _ ih | ofUnary _ ih | ofPower _ ih | ofPrimary _ ih =>
    exact readAs_of_eq ih (by decide) (by decide)
  | sum hop _ hr ihl ihr =>
    rcases hop with rfl | rfl <;>
      exact readAs_binary ihl ihr hr.nesting_pos hr.words_ne_nil (by decide) (by decide)
        (by decide) (by decide) (by decide) (by decide)
  | product hop _ hr ihl ihr =>
    rcases hop with rfl | rfl <;>
      exact readAs_binary ihl ihr hr.nesting_pos hr.words_ne_nil (by decide) (by decide)
        (by decide) (by decide) (by decide) (by decide)
  | positive h ih => exact readAs_positive ih h.nesting_pos h.words_ne_nil
  | negative h ih => exact readAs_negative ih h.nesting_pos h.words_ne_nil
  | power _ hr ihl ihr =>
    exact readAs_binary ihl ihr hr.nesting_pos hr.words_ne_nil (by decide) (by decide)
      (by decide) (by decide) (by decide) (by decide)
  | number h => exact readAs_number h
  | name id => exact readAs_name id
  | call function h ih => exact readAs_call function ih h
  | group h ih => exact readAs_group ih h.nesting_pos

namespace Parser

def readAll (ts : List Token) : Except ParseError Expr :=
  match (expression maxDepth 0).run ts with
  | .error e => .error e
  | .ok (whole, []) => .ok whole.expr
  | .ok (_, t :: _) => .error (.ofTrailing t)

theorem readAll_eq_ok {ts : List Token} {tree : Expr} (h : readAll ts = .ok tree) :
    ∃ whole, (expression maxDepth 0).run ts = .ok (whole, []) ∧ whole.expr = tree := by
  unfold readAll at h
  split at h
  next => cases h
  next whole hrun =>
    cases h
    exact ⟨whole, hrun, rfl⟩
  next => cases h

/-- What is wrong with all of some tokens: something inside an expression, or the token after it. -/
theorem readAll_eq_error {ts : List Token} {e : ParseError} (h : readAll ts = .error e) :
    (expression maxDepth 0).run ts = .error e ∨
      ∃ whole t more, (expression maxDepth 0).run ts = .ok (whole, t :: more) ∧
        e = .ofTrailing t := by
  unfold readAll at h
  split at h
  next e' hrun =>
    cases h
    exact Or.inl hrun
  next => cases h
  next whole t more hrun =>
    cases h
    exact Or.inr ⟨whole, t, more, hrun, rfl⟩

theorem parse_eq_readAll (text : String) : Expr.parse text = readAll (tokens text) := rfl

end Parser

theorem Derives.readAll_eq {ts : List Token} {tree : Expr} {n : Nat}
    (h : Derives .expression (ts.map (·.lexeme)) tree n) :
    readAll ts = if tree.Fits maxDepth n then .ok tree else .error .tooComplex := by
  have hread : (expression maxDepth 0).run (ts ++ []) = _ :=
    h.readAs.whole h.nesting_pos maxDepth rfl (Nat.zero_le _) (stops_nil _) (stops_nil 0)
  rw [List.append_nil] at hread
  rw [readAll, hread]
  by_cases hf : tree.Fits maxDepth n
  · rw [if_pos hf, if_pos hf]
    rfl
  · rw [if_neg hf, if_neg hf]

theorem Derives.parse_eq {text : String} {tree : Expr} {n : Nat}
    (h : Derives .expression (lexemes text) tree n) :
    Expr.parse text = if tree.Fits maxDepth n then .ok tree else .error .tooComplex :=
  h.readAll_eq

end BlendPlot
