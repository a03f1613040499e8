import BlendPlot.Expr.Counting
import BlendPlot.Proofs.Parsing

namespace BlendPlot

namespace Counting

open BlendPlot.Parser

section

variable {α β γ : Type} {P Q : Place → Prop}

/-- A reading with `depth` on the counter, beside one with room for `room` expressions. -/
inductive Agrees (room depth : Nat) (all : List Token) :
    Except Halt (α × {q // P q}) → Except ParseError (Taken α) → Prop
  | read (a : α) (rest : List Token) (h : P ⟨rest, depth⟩) :
      Agrees room depth all (.ok (a, ⟨⟨rest, depth⟩, h⟩)) (.ok (a, rest))
  | refused {e : ParseError} (he : e ≠ .tooComplex) :
      Agrees room depth all (.error (.refused e)) (.error e)
  | nested {before rest : List Token} (hall : all = before ++ rest) (hlong : room ≤ before.length) :
      Agrees room depth all (.error (.nested ⟨rest, maxDepth⟩)) (.error .tooComplex)
  | tall {tree : Expr} (htall : tree.height = maxDepth + 1) (hlong : tree.height ≤ all.length) :
      Agrees room depth all (.error (.tall tree)) (.error .tooComplex)

variable {room depth : Nat} {all : List Token}

/-- Readings in a row; only the last of them may leave another number on the counter. -/
theorem Agrees.bind {counted : Except Halt (α × {q // P q})} {plain : Except ParseError (Taken α)}
    {after : Nat} {k : α × {q // P q} → Except Halt (β × {q // Q q})}
    {f : Taken α → Except ParseError (Taken β)} (h : Agrees room depth all counted plain)
    (hk : ∀ a rest (hrest : P ⟨rest, depth⟩), plain = .ok (a, rest) →
      Agrees room after all (k (a, ⟨⟨rest, depth⟩, hrest⟩)) (f (a, rest))) :
    Agrees room after all (counted >>= k) (plain >>= f) := by
  cases h with
  | read a rest h => exact hk a rest h rfl
  | refused he => exact .refused he
  | nested hall hlong => exact .nested hall hlong
  | tall htall hlong => exact .tall htall hlong

theorem Agrees.onward {counted : Except Halt (α × {q // P q})}
    {plain : Except ParseError (Taken α)} {after : Nat}
    {k : α × {q // P q} → Except Halt (α × {q // Q q})} (h : Agrees room depth all counted plain)
    (hk : ∀ a rest (hrest : P ⟨rest, depth⟩),
      Agrees room after all (k (a, ⟨⟨rest, depth⟩, hrest⟩)) (.ok (a, rest))) :
    Agrees room after all (counted >>= k) plain := by
  rw [← bind_pure plain]
  exact h.bind fun a rest hrest _ => hk a rest hrest

theorem agrees_orRefuse {x : Except ParseError γ} (hx : x ≠ .error .tooComplex)
    {k : {c : γ // x = .ok c} → Except Halt (β × {q // Q q})}
    {f : γ → Except ParseError (Taken β)}
    (hk : ∀ c (hc : x = .ok c), Agrees room depth all (k ⟨c, hc⟩) (f c)) :
    Agrees room depth all (orRefuse x >>= k) (x >>= f) := by
  cases x with
  | ok c => exact hk c rfl
  | error e => exact .refused fun he => hx (he ▸ rfl)

/-- A tree over parts that are not too high is too high by at most one level. -/
theorem agrees_node {tree : Expr} {parts : List Measured}
    (hheight : tree.height = parts.foldr (fun part h => max part.height h) 0 + 1)
    (hparts : ∀ part ∈ parts, part.height ≤ maxDepth) (hlong : tree.height ≤ all.length)
    {k : Measured → Except Halt (β × {q // Q q})} {f : Measured → Except ParseError (Taken β)}
    (hk : ∀ m, Measured.above tree parts = .ok m → Agrees room depth all (k m) (f m)) :
    Agrees room depth all (node tree parts >>= k) (Measured.above tree parts >>= f) := by
  have hfold : parts.foldr (fun part h => max part.height h) 0 ≤ maxDepth := by
    clear hheight hk
    induction parts with
    | nil => exact Nat.zero_le _
    | cons part parts ih =>
      obtain ⟨hpart, hmore⟩ := List.forall_mem_cons.mp hparts
      exact Nat.max_le.mpr ⟨hpart, ih hmore⟩
  by_cases hm : maxDepth < tree.height
  · have habove : Measured.above tree parts = .error .tooComplex := by
      rw [Measured.above, ← hheight, if_pos hm]
    have htall : tree.height = maxDepth + 1 := by omega
    rw [node, habove]
    exact .tall htall hlong
  · have habove : Measured.above tree parts = .ok ⟨tree, tree.height⟩ := by
      rw [Measured.above, ← hheight, if_neg hm]
    rw [node, habove]
    exact hk _ habove

theorem Agrees.earlier {counted : Except Halt (α × {q // P q})}
    {plain : Except ParseError (Taken α)} {before ts : List Token} {more : Nat}
    (h : Agrees room depth ts counted plain) (hall : all = before ++ ts)
    (hmore : more ≤ before.length + room) : Agrees more depth all counted plain := by
  cases h with
  | read a rest h => exact .read a rest h
  | refused he => exact .refused he
  | @nested between rest hts hlong =>
    refine .nested (by rw [hall, hts, ← List.append_assoc]) ?_
    rw [List.length_append]
    omega
  | tall htall hlong =>
    refine .tall htall ?_
    rw [hall, List.length_append]
    omega

end

def Behind (all ts : List Token) : Prop :=
  ∃ before, before ≠ [] ∧ all = before ++ ts

theorem Behind.length_lt {all ts : List Token} (h : Behind all ts) : ts.length < all.length := by
  obtain ⟨before, hbefore, rfl⟩ := h
  have hpos := List.length_pos_iff.mpr hbefore
  rw [List.length_append]
  omega

theorem Behind.rest {all read rest : List Token} (h : Behind all (read ++ rest)) :
    Behind all rest := by
  obtain ⟨before, hbefore, rfl⟩ := h
  exact ⟨before ++ read, by simp [hbefore], by rw [List.append_assoc]⟩

theorem Behind.tail {all ts : List Token} {t : Token} (h : Behind all (t :: ts)) :
    Behind all ts := by
  have hread : Behind all ([t] ++ ts) := h
  exact hread.rest

theorem behind_of_readOff {c : Category} {room : Nat} {ts rest : List Token} {m : Measured}
    (h : ReadOff c room ts m rest) : Behind ts rest := by
  obtain ⟨read, n, hts, hread, -⟩ := h.derived
  exact ⟨read, fun hnil => hread.words_ne_nil (by rw [hnil]; rfl), hts⟩

theorem readOff_of_run {room : Nat} {ts rest : List Token} {m : Measured}
    (h : (Parser.expression room 0).run ts = .ok (m, rest)) : ReadOff .expression room ts m rest :=
  (expression_eq_ok h).1

theorem exists_readOff_of_operand {room : Nat} {ts rest : List Token} {m : Measured}
    (h : Parser.operand (Parser.expression room) ts = .ok (m, rest)) :
    ∃ c, ReadOff c (room + 1) ts m rest := by
  rcases operand_eq_ok expression_eq_ok h with hread | ⟨hread, -⟩
  · exact ⟨_, hread⟩
  · exact ⟨_, hread⟩

theorem height_call_of_arguments (function : String) {room : Nat} {ts rest : List Token}
    {args : List Measured}
    (h : Parser.arguments (Parser.expression room 0) ts = .ok (args, rest)) :
    let tree := Expr.call function (args.map (·.expr))
    tree.height = args.foldr (fun part h => max part.height h) 0 + 1 ∧
      tree.height + rest.length ≤ ts.length + 1 := by
  obtain ⟨read, pieces, rfl, hread, rfl, -, hpieces⟩ := arguments_eq_ok readOff_of_run h
  have htrees : ((pieces.map (·.tree)).map Expr.measured).map (·.expr) = pieces.map (·.tree) := by
    rw [List.map_map]
    exact List.map_id _
  have hheight := Piece.maxHeight_le_length fun p hp => (hpieces p hp).1.height_le_length
  rw [← hread, List.length_map] at hheight
  rw [htrees, foldr_measured, List.length_append]
  refine ⟨rfl, ?_⟩
  rw [Expr.height]
  omega

theorem height_binary {left right : Measured} (hleft : left.height = left.expr.height)
    (hright : right.height = right.expr.height) (op : Operator) :
    (Expr.binary op left.expr right.expr).height =
      [left, right].foldr (fun part h => max part.height h) 0 + 1 := by
  rw [Expr.height, ← hleft, ← hright]
  simp

section

variable {room depth : Nat} {all : List Token}
  (hsub : ∀ {level ts}, Behind all ts →
    Agrees (room + 1) depth all (expression level ts depth)
      ((Parser.expression room level).run ts))

include hsub

theorem afterOperator_agrees {level : Nat} {op : Operator} {position : Nat} {ts : List Token}
    (hts : Behind all ts) :
    Agrees (room + 1) depth all (afterOperator level op position ts depth)
      (Parser.afterOperator (Parser.expression room level) op position ts) := by
  cases ts with
  | nil =>
    rw [afterOperator]
    exact .refused (by simp)
  | cons t ts =>
    rw [afterOperator]
    exact hsub hts

theorem arguments_agrees {ts : List Token} (hts : Behind all ts) :
    Agrees (room + 1) depth all (arguments ts depth)
      (Parser.arguments (Parser.expression room 0) ts) := by
  rw [arguments, arguments_eq]
  refine (hsub hts).bind fun first rest hrest hfirst => ?_
  cases rest with
  | nil => exact .read _ _ hrest
  | cons t more =>
    obtain ⟨word, position⟩ := t
    cases word with
    | comma =>
      obtain ⟨read, n, rfl, -⟩ := (readOff_of_run hfirst).derived
      have hmore := arguments_agrees hts.rest.tail
      exact hmore.bind fun others rest hrest _ => .read _ _ _
    | _ => exact .read _ _ hrest
termination_by ts.length
decreasing_by subst_vars; simp only [List.length_cons, List.length_append]; omega

theorem call_agrees {function : String} {opening : Nat} {ts : List Token} (hts : Behind all ts) :
    Agrees (room + 1) depth all (call function opening ts depth)
      (Parser.call (Parser.expression room 0) function opening ts) := by
  have hlength := hts.length_lt
  by_cases hhead : (ts.map (·.lexeme)).head? = some .closing
  · obtain ⟨position, more, rfl⟩ := eq_closing_of_head? hhead
    have hheight : (Expr.call function []).height = 1 := rfl
    rw [call]
    exact agrees_node rfl (List.forall_mem_nil _) (by omega) fun m _ => .read _ _ _
  · rw [call_of_head?_ne hhead, call.eq_def]
    split
    next position more => exact absurd rfl hhead
    next =>
      refine (arguments_agrees hsub hts).bind fun args rest hrest hargs => ?_
      refine agrees_orRefuse (closing_ne_tooComplex opening rest) fun rest' hrest' => ?_
      obtain ⟨hheight, hlong⟩ := height_call_of_arguments function hargs
      have hlow := arguments_forall (fun h => (readOff_of_run h).height_le) hargs
      exact agrees_node hheight hlow (by omega) fun m _ => .read _ _ _

theorem primary_agrees :
    Agrees (room + 1) depth all (primary all depth)
      (Parser.primary (Parser.expression room 0) all) := by
  rw [primary.eq_def]
  match all with
  | [] => exact .refused (by simp)
  | ⟨.number whole fraction, _⟩ :: ts => exact .read _ _ _
  | [⟨.name id, _⟩] => exact .read _ _ _
  | ⟨.name id, position⟩ :: ⟨word, place⟩ :: ts =>
    cases word with
    | opening =>
      have hts : Behind (⟨.name id, position⟩ :: ⟨.opening, place⟩ :: ts) ts :=
        ⟨[⟨.name id, position⟩, ⟨.opening, place⟩], by simp, rfl⟩
      exact (call_agrees hsub hts).onward fun m rest hrest => .read _ _ _
    | _ => exact .read _ _ _
  | ⟨.opening, opening⟩ :: ts =>
    have hts : Behind (⟨.opening, opening⟩ :: ts) ts := ⟨[⟨.opening, opening⟩], by simp, rfl⟩
    refine (hsub hts).bind fun inner rest hrest _ => ?_
    exact agrees_orRefuse (closing_ne_tooComplex opening rest) fun rest' _ => .read _ _ _
  | ⟨.closing, _⟩ :: _ | ⟨.unknown _, _⟩ :: _ | ⟨.sign _, _⟩ :: _ | ⟨.comma, _⟩ :: _ =>
    exact .refused (by simp)

theorem operand_agrees :
    Agrees (room + 1) depth all (operand all depth)
      (Parser.operand (Parser.expression room) all) := by
  have hprimary := primary_agrees hsub
  rw [operand.eq_def]
  unfold Parser.operand
  match all with
  | ⟨.sign .plus, position⟩ :: ts =>
    have hts : Behind (⟨.sign .plus, position⟩ :: ts) ts :=
      ⟨[⟨.sign .plus, position⟩], by simp, rfl⟩
    exact (afterOperator_agrees hsub hts).onward fun inner rest hrest => .read _ _ _
  | ⟨.sign .minus, position⟩ :: ts =>
    have hts : Behind (⟨.sign .minus, position⟩ :: ts) ts :=
      ⟨[⟨.sign .minus, position⟩], by simp, rfl⟩
    refine (afterOperator_agrees hsub hts).bind fun inner rest hrest hinner => ?_
    have hread := (expression_eq_ok (afterOperator_eq_ok hinner)).1
    have hlength := hread.height_add_length_le
    have hheight : (Expr.negate inner.expr).height = inner.height + 1 := by
      rw [Expr.height, ← hread.height_eq]
    refine agrees_node ?_ (List.forall_mem_singleton.mpr hread.height_le) ?_ fun m _ =>
      .read _ _ _
    · rw [hheight]
      simp
    · rw [hheight, List.length_cons]
      omega
  | [] | ⟨.sign .times, _⟩ :: _ | ⟨.sign .divide, _⟩ :: _ | ⟨.sign .power, _⟩ :: _
  | ⟨.number _ _, _⟩ :: _ | ⟨.name _, _⟩ :: _ | ⟨.opening, _⟩ :: _ | ⟨.closing, _⟩ :: _
  | ⟨.comma, _⟩ :: _ | ⟨.unknown _, _⟩ :: _ => exact hprimary

/-- The tokens that were read so far are at least as many as the levels of the tree on the left. -/
theorem operators_agrees {level : Nat} {left : Measured} {ts : List Token} (hts : Behind all ts)
    (hheight : left.height = left.expr.height) (hlow : left.height ≤ maxDepth)
    (hlong : left.height + ts.length ≤ all.length) :
    Agrees (room + 1) depth all (operators level left ts depth)
      (Parser.operators (Parser.expression room) level left ts) := by
  rw [operators.eq_def]
  cases ts with
  | nil =>
    rw [Parser.operators.eq_def]
    exact .read _ _ _
  | cons t more =>
    obtain ⟨word, position⟩ := t
    cases word with
    | sign op =>
      dsimp only
      split
      next hlevel =>
        rw [operators_sign hlevel]
        refine (afterOperator_agrees hsub hts.tail).bind fun right rest hrest hright => ?_
        have hread := (expression_eq_ok (afterOperator_eq_ok hright)).1
        have hlength := hread.height_add_length_le
        obtain ⟨read, n, rfl, -⟩ := hread.derived
        have hnode := height_binary hheight hread.height_eq op
        have hlongNode :
            (Expr.binary op left.expr right.expr).height + rest.length ≤ all.length := by
          rw [hnode]
          simp only [List.foldr_cons, List.foldr_nil, List.length_cons] at hlong ⊢
          omega
        refine agrees_node hnode (by simp [hlow, hread.height_le]) (by omega) fun m hm => ?_
        obtain ⟨hexpr, hmheight, hmlow⟩ := above_eq_ok hm
        rw [← hnode, ← hexpr] at hmheight
        rw [← hexpr, ← hmheight] at hlongNode
        have hmore : Agrees (room + 1) depth all (operators level m rest depth)
            (Parser.operators (Parser.expression room) level m rest) :=
          operators_agrees hts.tail.rest hmheight hmlow hlongNode
        exact hmore.onward fun whole rest hrest => .read _ _ _
      next hlevel =>
        rw [Parser.operators, if_neg hlevel]
        exact .read _ _ _
    | _ =>
      rw [Parser.operators.eq_def]
      exact .read _ _ _
termination_by ts.length
decreasing_by subst_vars; simp only [List.length_cons, List.length_append]; omega

end

/-- With the counter at `depth` there is room for as many expressions as it can still count. -/
theorem expression_agrees {room depth level : Nat} {ts : List Token}
    (hroom : depth + room = maxDepth) :
    Agrees room depth ts (expression level ts depth) ((Parser.expression room level).run ts) := by
  induction room generalizing depth level ts with
  | zero =>
    obtain rfl : depth = maxDepth := hroom
    rw [expression, if_pos (Nat.lt_succ_self _)]
    exact .nested (List.nil_append ts).symm (Nat.zero_le _)
  | succ room ih =>
    have hsub {level : Nat} {us : List Token} (hus : Behind ts us) :
        Agrees (room + 1) (depth + 1) ts (expression level us (depth + 1))
          ((Parser.expression room level).run us) := by
      obtain ⟨before, hbefore, hts⟩ := hus
      have hpos := List.length_pos_iff.mpr hbefore
      exact (ih (by omega)).earlier hts (by omega)
    rw [expression, if_neg (by omega)]
    refine (operand_agrees hsub).bind fun first rest hrest hfirst => ?_
    obtain ⟨c, hread⟩ := exists_readOff_of_operand hfirst
    have hoperators : Agrees (room + 1) (depth + 1) ts (operators level first rest (depth + 1))
        (Parser.operators (Parser.expression room) level first rest) :=
      operators_agrees hsub (behind_of_readOff hread) hread.height_eq hread.height_le
        hread.height_add_length_le
    exact hoperators.onward fun whole rest hrest => .read _ _ _

/-- A limit is exceeded only after many tokens. -/
theorem Agrees.long {α : Type} {P : Place → Prop} {room depth : Nat} {all : List Token}
    {counted : Except Halt (α × {q // P q})}
    (h : Agrees room depth all counted (.error .tooComplex)) :
    min room (maxDepth + 1) ≤ all.length := by
  cases h with
  | refused he => exact absurd rfl he
  | nested hall hlong =>
    rw [hall, List.length_append]
    omega
  | tall htall hlong => omega

theorem parse_ne_tooComplex {text : String} (h : (tokens text).length < maxDepth) :
    Expr.parse text ≠ .error .tooComplex := by
  intro htooComplex
  rcases readAll_eq_error htooComplex with hrun | ⟨whole, t, more, -, htrailing⟩
  · have hagrees : Agrees maxDepth 0 (tokens text) (expression 0 (tokens text) 0)
        ((Parser.expression maxDepth 0).run (tokens text)) :=
      expression_agrees (Nat.zero_add maxDepth)
    rw [hrun] at hagrees
    have hlong := hagrees.long
    omega
  · unfold ParseError.ofTrailing at htrailing
    split at htrailing <;> cases htrailing

/-- Counting what is being read comes to the same as passing down the room, and the counter is
restored; only texts of more than 255 tokens exceed a limit. -/
theorem expression_contract (level : Nat) (ts : List Token) (depth : Nat) (h : depth ≤ 256) :
    (match expression level ts depth with
      | .ok (m, ⟨q, _⟩) =>
        (Parser.expression (256 - depth) level).run ts = .ok (m, q.left) ∧
        q.depth = depth ∧
        (∃ read n, read ≠ [] ∧ ts = read ++ q.left ∧
          Derives (.ofLevel (min level signLevel)) (read.map (·.lexeme)) m.expr n ∧
          n ≤ 256 - depth) ∧
        m.height = m.expr.height ∧ m.height ≤ 256 ∧
        ∀ t more op, q.left = t :: more → t.lexeme = .sign op → op.level < level
      | .error halt =>
        (Parser.expression (256 - depth) level).run ts = .error halt.error ∧
        match halt with
        | .refused e => e ≠ .tooComplex
        | .nested q => q.depth = 256 ∧
          ∃ before, ts = before ++ q.left ∧ 256 - depth ≤ before.length
        | .tall tree => tree.height = 257 ∧ 257 ≤ ts.length) ∧
    ∀ text, (tokens text).length ≤ 255 → Expr.parse text ≠ .error .tooComplex := by
  refine ⟨?_, fun text htext => parse_ne_tooComplex (Nat.lt_succ_of_le htext)⟩
  have hagrees : Agrees (256 - depth) depth ts (expression level ts depth)
      ((Parser.expression (256 - depth) level).run ts) :=
    expression_agrees (Nat.add_sub_cancel' h)
  generalize hplain : (Parser.expression (256 - depth) level).run ts = plain at hagrees
  generalize expression level ts depth = counted at hagrees
  cases hagrees with
  | read m rest =>
    obtain ⟨hread, hbelow⟩ := expression_eq_ok hplain
    obtain ⟨read, n, hts, hderives, hn⟩ := hread.derived
    have hne : read ≠ [] := fun hnil => hderives.words_ne_nil (by rw [hnil]; rfl)
    exact ⟨rfl, rfl, ⟨read, n, hne, hts, hderives, hn⟩, hread.height_eq, hread.height_le, hbelow⟩
  | refused he => exact ⟨rfl, he⟩
  | nested hall hlong => exact ⟨rfl, rfl, _, hall, hlong⟩
  | tall htall hlong =>
    rw [htall] at hlong
    exact ⟨rfl, htall, hlong⟩

/-- One expression more would fit, but the sign makes two. -/
theorem expression_contract_of_last_sign :
    let ts := tokens "-x"
    255 ≤ 256 ∧ ∃ q before, expression 0 ts 255 = .error (.nested q) ∧ q.depth = 256 ∧
      ts = before ++ q.left ∧ 1 ≤ before.length := by
  intro ts
  have hrefused : errorOf ((Parser.expression 1 0).run ts) = some .tooComplex := by
    decide +kernel
  have hlength : ts.length = 2 := by decide +kernel
  have hplain := errorOf_eq_some_iff.mp hrefused
  have hcontract := (expression_contract 0 ts 255 (by decide)).1
  generalize expression 0 ts 255 = counted at hcontract ⊢
  match counted, hcontract with
  | .ok (m, q), ⟨hok, _⟩ =>
    rw [hplain] at hok
    cases hok
  | .error (.refused e), ⟨he, hne⟩ =>
    rw [hplain] at he
    exact absurd (Except.error.inj he).symm hne
  | .error (.tall tree), ⟨_, _, hlong⟩ => omega
  | .error (.nested q), ⟨_, hq, before, hts, hbefore⟩ =>
    exact ⟨by decide, q, before, rfl, hq, hts, hbefore⟩

end Counting

end BlendPlot
