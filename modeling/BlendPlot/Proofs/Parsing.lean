import BlendPlot.Proofs.Reading

namespace BlendPlot

namespace Parser

/-- No operator at the front binds as tightly as the level. -/
def Below (level : Nat) (rest : List Token) : Prop :=
  ∀ t more op, rest = t :: more → t.lexeme = .sign op → op.level < level

/-- The tokens before `rest` write the tree of `m` in the layer `c`, within the limits. -/
structure ReadOff (c : Category) (room : Nat) (ts : List Token) (m : Measured)
    (rest : List Token) : Prop where
  derived : ∃ read n, ts = read ++ rest ∧ Derives c (read.map (·.lexeme)) m.expr n ∧ n ≤ room
  height_eq : m.height = m.expr.height
  height_le : m.height ≤ maxDepth

theorem Below.mono {level higher : Nat} {rest : List Token} (h : Below level rest)
    (hle : level ≤ higher) : Below higher rest := by
  intro t more op he ht
  exact Nat.lt_of_lt_of_le (h t more op he ht) hle

theorem ReadOff.loosen {c d : Category} {room : Nat} {ts rest : List Token} {m : Measured}
    (h : ReadOff c room ts m rest) (hd : d.level ≤ c.level) : ReadOff d room ts m rest := by
  obtain ⟨read, n, hts, hread, hn⟩ := h.derived
  exact ⟨⟨read, n, hts, hread.loosen hd, hn⟩, h.height_eq, h.height_le⟩

theorem ReadOff.derives {c : Category} {room : Nat} {read rest : List Token} {m : Measured}
    (h : ReadOff c room (read ++ rest) m rest) :
    ∃ n, Derives c (read.map (·.lexeme)) m.expr n ∧ n ≤ room := by
  obtain ⟨other, n, heq, hread, hn⟩ := h.derived
  rw [List.append_cancel_right heq]
  exact ⟨n, hread, hn⟩

theorem ReadOff.height_add_length_le {c : Category} {room : Nat} {ts rest : List Token} {m : Measured}
    (h : ReadOff c room ts m rest) : m.height + rest.length ≤ ts.length := by
  obtain ⟨read, n, rfl, hread, -⟩ := h.derived
  have hle := hread.height_le_length
  rw [List.length_map] at hle
  rw [h.height_eq, List.length_append]
  omega

/-- Words that can be the left operand of any operator of the level that comes next. -/
structure LeftOperand (level : Nat) (words : List Lexeme) (tree : Expr) (n : Nat)
    (rest : List Token) : Prop where
  whole : Derives (.ofLevel (min level signLevel)) words tree n
  next : ∀ t more op, rest = t :: more → t.lexeme = .sign op → level ≤ op.level →
    Derives (.ofLevel op.leftLevel) words tree n

theorem ofLevel_min_level_le (level : Nat) :
    (Category.ofLevel (min level signLevel)).level ≤ signLevel :=
  Category.ofLevel_level_mono (Nat.min_le_right level signLevel)

theorem ofLevel_level_le {level : Nat} {op : Operator} (h : level ≤ op.level) :
    (Category.ofLevel (min level signLevel)).level ≤ (Category.ofLevel op.level).level :=
  Category.ofLevel_level_mono (Nat.le_trans (Nat.min_le_left level signLevel) h)

/-- The operators after a right operand bind more loosely than its own. -/
theorem LeftOperand.binary {level n k : Nat} {lefts rights : List Lexeme} {left right : Expr}
    {op : Operator} {t : Token} {more rest : List Token}
    (h : LeftOperand level lefts left n (t :: more)) (ht : t.lexeme = .sign op)
    (hop : level ≤ op.level) (hright : Derives (.ofLevel (min op.rightLevel signLevel)) rights right k)
    (hbelow : Below op.rightLevel rest) :
    LeftOperand level (lefts ++ .sign op :: rights) (.binary op left right) (max n (k + 1))
      rest := by
  have hwhole := (h.next t more op rfl ht hop).binary hright
  refine ⟨hwhole.loosen (ofLevel_level_le hop), fun u others op' hrest hu _ => hwhole.loosen ?_⟩
  have hlt := hbelow u others op' hrest hu
  revert hlt
  cases op <;> cases op' <;> decide

theorem above_eq_ok {tree : Expr} {parts : List Measured} {m : Measured}
    (h : Measured.above tree parts = .ok m) :
    m.expr = tree ∧ m.height = parts.foldr (fun part h => max part.height h) 0 + 1 ∧
      m.height ≤ maxDepth := by
  unfold Measured.above at h
  dsimp only at h
  split at h
  · cases h
  next hle =>
    cases h
    exact ⟨rfl, rfl, Nat.le_of_not_lt hle⟩

theorem closing_eq_ok {opening : Nat} {ts rest : List Token} (h : closing opening ts = .ok rest) :
    ∃ t, ts = t :: rest ∧ t.lexeme = .closing := by
  cases ts with
  | nil => cases h
  | cons t ts =>
    simp only [closing] at h
    split at h
    next ht =>
      cases h
      exact ⟨t, rfl, ht⟩
    next => cases h

theorem afterOperator_eq_ok {sub : Reader} {op : Operator} {position : Nat} {ts : List Token}
    {r : Taken Measured} (h : afterOperator sub op position ts = .ok r) : sub.run ts = .ok r := by
  cases ts with
  | nil => cases h
  | cons t ts => exact h

theorem arguments_forall {sub : Reader} {P : Measured → Prop}
    (hsub : ∀ {ts m rest}, sub.run ts = .ok (m, rest) → P m) {ts rest : List Token}
    {args : List Measured} (h : arguments sub ts = .ok (args, rest)) : ∀ m ∈ args, P m := by
  fun_induction arguments sub ts generalizing args rest with
  | case1 => cases h
  | case2 => cases h
  | case3 ts first position more hs others rest' ha ih =>
    cases h
    exact List.forall_mem_cons.mpr ⟨hsub hs, ih ha⟩
  | case4 ts first rest' hn hs =>
    cases h
    exact List.forall_mem_singleton.mpr (hsub hs)

section

variable {sub : Reader} {room : Nat}
  (hsub : ∀ {ts m rest}, sub.run ts = .ok (m, rest) → ReadOff .expression room ts m rest)

include hsub

theorem arguments_eq_ok {ts rest : List Token} {args : List Measured}
    (h : arguments sub ts = .ok (args, rest)) :
    ∃ read pieces, ts = read ++ rest ∧ read.map (·.lexeme) = Piece.listed pieces ∧
      args = (pieces.map (·.tree)).map Expr.measured ∧ pieces ≠ [] ∧
      ∀ p ∈ pieces, Derives .expression p.words p.tree p.nesting ∧ p.nesting ≤ room := by
  have first {ts rest : List Token} {m : Measured} (hs : sub.run ts = .ok (m, rest)) :
      ∃ (read : List Token) (p : Piece), ts = read ++ rest ∧ read.map (·.lexeme) = p.words ∧
        m = p.tree.measured ∧ Derives .expression p.words p.tree p.nesting ∧ p.nesting ≤ room := by
    obtain ⟨⟨read, n, hts, hread, hn⟩, hh, _⟩ := hsub hs
    refine ⟨read, ⟨read.map (·.lexeme), m.expr, n⟩, hts, rfl, ?_, hread, hn⟩
    rw [Expr.measured, ← hh]
  fun_induction arguments sub ts generalizing args rest with
  | case1 => cases h
  | case2 => cases h
  | case3 ts m position more hs others rest' ha ih =>
    cases h
    obtain ⟨read, p, rfl, hread, rfl, hp⟩ := first hs
    obtain ⟨reads, ps, rfl, hreads, rfl, hne, hps⟩ := ih ha
    obtain ⟨q, qs, rfl⟩ := List.exists_cons_of_ne_nil hne
    refine ⟨read ++ ⟨.comma, position⟩ :: reads, p :: q :: qs, by simp, ?_, rfl, by simp, ?_⟩
    · rw [Piece.listed_cons_cons, List.map_append, List.map_cons, hread, hreads]
    · exact List.forall_mem_cons.mpr ⟨hp, hps⟩
  | case4 ts m rest' hn hs =>
    cases h
    obtain ⟨read, p, rfl, hread, rfl, hp⟩ := first hs
    exact ⟨read, [p], rfl, by simp [hread], rfl, by simp, by simpa using hp⟩

theorem call_eq_ok {function : String} {position opening : Nat} {ts rest : List Token}
    {m : Measured} (h : call sub function opening ts = .ok (m, rest)) :
    ReadOff .primary (room + 1) (⟨.name function, position⟩ :: ⟨.opening, opening⟩ :: ts) m
      rest := by
  unfold call at h
  split at h
  next place ts =>
    obtain ⟨node, hm, h⟩ := bind_eq_ok.mp h
    cases h
    obtain ⟨he, hh, hle⟩ := above_eq_ok hm
    have hd : Derives .primary [.name function, .opening, .closing] (.call function []) 1 :=
      .call function (List.forall_mem_nil _)
    refine ⟨⟨[⟨.name function, position⟩, ⟨.opening, opening⟩, ⟨.closing, place⟩], 1, rfl, ?_,
      by omega⟩, ?_, hle⟩
    · rw [he]
      exact hd
    · rw [hh, he]
      rfl
  next =>
    obtain ⟨⟨args, rest₁⟩, ha, h⟩ := bind_eq_ok.mp h
    obtain ⟨rest₂, hc, h⟩ := bind_eq_ok.mp h
    obtain ⟨node, hm, h⟩ := bind_eq_ok.mp h
    cases h
    obtain ⟨read, ps, rfl, hread, rfl, -, hps⟩ := arguments_eq_ok hsub ha
    obtain ⟨t, rfl, ht⟩ := closing_eq_ok hc
    obtain ⟨he, hh, hle⟩ := above_eq_ok hm
    have hmap : ((ps.map (·.tree)).map Expr.measured).map (·.expr) = ps.map (·.tree) := by
      rw [List.map_map]
      exact List.map_id _
    have hd := Derives.call function fun p hp => (hps p hp).1
    rw [hmap] at he
    refine ⟨⟨⟨.name function, position⟩ :: ⟨.opening, opening⟩ :: (read ++ [t]),
      Piece.deepest ps + 1, by simp, ?_, ?_⟩, ?_, hle⟩
    · rw [List.map_cons, List.map_cons, List.map_append, hread, List.map_singleton, ht, he]
      exact hd
    · exact Nat.succ_le_succ (Piece.deepest_le_iff.mpr fun p hp => (hps p hp).2)
    · rw [hh, he, foldr_measured]
      rfl

theorem primary_eq_ok {ts rest : List Token} {m : Measured}
    (h : primary sub ts = .ok (m, rest)) : ReadOff .primary (room + 1) ts m rest := by
  unfold primary at h
  split at h
  · cases h
  next whole fraction position ts =>
    cases h
    exact ⟨⟨[⟨.number whole fraction, position⟩], 1, rfl, .number rfl, by omega⟩, rfl,
      (by decide : 1 ≤ maxDepth)⟩
  next id position opening ts => exact call_eq_ok hsub h
  next id position ts _ =>
    cases h
    exact ⟨⟨[⟨.name id, position⟩], 1, rfl, .name id, by omega⟩, rfl,
      (by decide : 1 ≤ maxDepth)⟩
  next opening ts =>
    obtain ⟨⟨inner, rest₁⟩, hi, h⟩ := bind_eq_ok.mp h
    obtain ⟨rest₂, hc, h⟩ := bind_eq_ok.mp h
    cases h
    obtain ⟨⟨read, n, rfl, hread, hn⟩, hh, hle⟩ := hsub hi
    obtain ⟨t, rfl, ht⟩ := closing_eq_ok hc
    refine ⟨⟨⟨.opening, opening⟩ :: (read ++ [t]), n + 1, by simp, ?_, by omega⟩, hh, hle⟩
    rw [List.map_cons, List.map_append, List.map_singleton, ht]
    exact .group hread
  all_goals cases h

end

section

variable {sub : Nat → Reader} {room : Nat}
  (hsub : ∀ {level ts m rest}, (sub level).run ts = .ok (m, rest) →
    ReadOff (.ofLevel (min level signLevel)) room ts m rest ∧ Below level rest)

include hsub

/-- After a sign and its operand no power can follow, after a primary anything. -/
theorem operand_eq_ok {ts rest : List Token} {m : Measured}
    (h : operand sub ts = .ok (m, rest)) :
    ReadOff .primary (room + 1) ts m rest ∨
      ReadOff .unary (room + 1) ts m rest ∧ Below signLevel rest := by
  unfold operand at h
  split at h
  next position ts =>
    obtain ⟨⟨⟨read, n, rfl, hread, hn⟩, hh, hle⟩, hbelow⟩ := hsub (afterOperator_eq_ok h)
    exact Or.inr ⟨⟨⟨⟨.sign .plus, position⟩ :: read, n + 1, rfl, .positive hread, by omega⟩, hh,
      hle⟩, hbelow⟩
  next position ts =>
    obtain ⟨⟨inner, rest₁⟩, hi, h⟩ := bind_eq_ok.mp h
    obtain ⟨node, hm, h⟩ := bind_eq_ok.mp h
    cases h
    obtain ⟨⟨⟨read, n, rfl, hread, hn⟩, hh, -⟩, hbelow⟩ := hsub (afterOperator_eq_ok hi)
    obtain ⟨he, hmh, hle⟩ := above_eq_ok hm
    refine Or.inr ⟨⟨⟨⟨.sign .minus, position⟩ :: read, n + 1, rfl, ?_, by omega⟩, ?_, hle⟩, hbelow⟩
    · rw [he]
      exact .negative hread
    · rw [hmh, he, Expr.height, ← hh]
      simp
  next => exact Or.inl (primary_eq_ok (fun hs => (@hsub 0 _ _ _ hs).1) h)

/-- A signed operand has already taken the operators of its level. -/
theorem leftOperand_of_operand (level : Nat) {ts rest : List Token} {m : Measured}
    (h : operand sub ts = .ok (m, rest)) :
    ∃ read n, ts = read ++ rest ∧ LeftOperand level (read.map (·.lexeme)) m.expr n rest ∧
      n ≤ room + 1 ∧ m.height = m.expr.height ∧ m.height ≤ maxDepth := by
  have hlow := ofLevel_min_level_le level
  rcases operand_eq_ok hsub h with hp | ⟨hu, hbelow⟩
  · obtain ⟨⟨read, n, rfl, hread, hn⟩, hh, hle⟩ := hp
    exact ⟨read, n, rfl, ⟨hread.loosen (Nat.le_trans hlow (by decide)),
      fun _ _ _ _ _ _ => hread.loosen (Category.level_le_primary _)⟩, hn, hh, hle⟩
  · obtain ⟨⟨read, n, rfl, hread, hn⟩, hh, hle⟩ := hu
    refine ⟨read, n, rfl, ⟨hread.loosen hlow, fun t more op hrest ht _ => ?_⟩, hn, hh, hle⟩
    have hlt := hbelow t more op hrest ht
    refine hread.loosen ?_
    revert hlt
    cases op <;> decide

theorem operators_eq_ok {level : Nat} {left m : Measured} {ts rest : List Token}
    (h : operators sub level left ts = .ok (m, rest)) {read : List Token} {n : Nat}
    (hleft : LeftOperand level (read.map (·.lexeme)) left.expr n ts) (hn : n ≤ room + 1)
    (hheight : left.height = left.expr.height) (hbound : left.height ≤ maxDepth) :
    ReadOff (.ofLevel (min level signLevel)) (room + 1) (read ++ ts) m rest ∧ Below level rest := by
  fun_induction operators sub level left ts generalizing read n with
  | case1 => cases h
  | case2 => cases h
  | case3 left op position more hop right rest₁ hr node hnode ih =>
    obtain ⟨⟨⟨reads, k, rfl, hright, hk⟩, hrh, -⟩, hbelow⟩ := hsub (afterOperator_eq_ok hr)
    obtain ⟨he, hh, hle⟩ := above_eq_ok hnode
    have hnext : LeftOperand level ((read ++ ⟨.sign op, position⟩ :: reads).map (·.lexeme))
        node.expr (max n (k + 1)) rest₁ := by
      rw [he, List.map_append, List.map_cons]
      exact hleft.binary rfl hop hright hbelow
    have hstep := ih h hnext (by omega) ?_ hle
    · rwa [List.append_assoc, List.cons_append] at hstep
    · rw [hh, he, Expr.height, ← hheight, ← hrh]
      simp
  | case4 left op position more hop =>
    cases h
    refine ⟨⟨⟨read, n, rfl, hleft.whole, hn⟩, hheight, hbound⟩, ?_⟩
    intro t more' op' he ht
    cases he
    cases ht
    exact Nat.lt_of_not_le hop
  | case5 left ts hno =>
    cases h
    refine ⟨⟨⟨read, n, rfl, hleft.whole, hn⟩, hheight, hbound⟩, ?_⟩
    rintro ⟨word, position⟩ more op rfl ht
    cases ht
    exact absurd rfl (hno _ _ _)

end

/-- What is read off the front of some tokens is derived, and nothing that follows belongs to it. -/
theorem expression_eq_ok {room level : Nat} {ts rest : List Token} {m : Measured}
    (h : (expression room level).run ts = .ok (m, rest)) :
    ReadOff (.ofLevel (min level signLevel)) room ts m rest ∧ Below level rest := by
  induction room generalizing level ts m rest with
  | zero => cases h
  | succ room ih =>
    obtain ⟨⟨first, rest₁⟩, ho, hops⟩ := bind_eq_ok.mp h
    obtain ⟨read, n, rfl, hleft, hn, hh, hle⟩ := leftOperand_of_operand ih level ho
    exact operators_eq_ok ih hops hleft hn hh hle

end Parser

theorem derives_of_readAll {ts : List Token} {tree : Expr} (h : Parser.readAll ts = .ok tree) :
    ∃ n, Derives .expression (ts.map (·.lexeme)) tree n ∧ tree.Fits maxDepth n := by
  obtain ⟨whole, hrun, rfl⟩ := Parser.readAll_eq_ok h
  obtain ⟨⟨⟨read, n, hts, hread, hn⟩, hh, hle⟩, -⟩ := Parser.expression_eq_ok hrun
  rw [List.append_nil] at hts
  rw [hts]
  exact ⟨n, hread, hn, hh ▸ hle⟩

theorem derives_of_parse {text : String} {tree : Expr} (h : Expr.parse text = .ok tree) :
    ∃ n, Derives .expression (lexemes text) tree n ∧ tree.Fits maxDepth n :=
  derives_of_readAll h

/-- A text is read exactly if its words derive a tree with height and nesting of at most 256. -/
theorem parse_eq_ok_iff_derives (text : String) :
    (∀ tree, Expr.parse text = .ok tree ↔
      ∃ n, Derives .expression (lexemes text) tree n ∧ tree.height ≤ 256 ∧ n ≤ 256) ∧
    ∀ tree n, Derives .expression (lexemes text) tree n →
      (∀ c, Lexeme.unknown c ∉ lexemes text) ∧
      (256 < tree.height ∨ 256 < n → Expr.parse text = .error .tooComplex) := by
  refine ⟨fun tree => ⟨fun h => ?_, ?_⟩, fun tree n h => ⟨h.not_mem_unknown, fun hbig => ?_⟩⟩
  · obtain ⟨n, hd, hf⟩ := derives_of_parse h
    exact ⟨n, hd, hf.2, hf.1⟩
  · rintro ⟨n, hd, hh, hn⟩
    have hf : tree.Fits maxDepth n := ⟨hn, hh⟩
    rw [hd.parse_eq, if_pos hf]
  · have hf : ¬tree.Fits maxDepth n := by
      rintro ⟨hn, hh⟩
      change n ≤ 256 at hn
      change tree.height ≤ 256 at hh
      omega
    rw [h.parse_eq, if_neg hf]

end BlendPlot
