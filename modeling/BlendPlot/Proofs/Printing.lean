import BlendPlot.Expr.Printer
import BlendPlot.Proofs.NumberText
import BlendPlot.Proofs.Parsing
import BlendPlot.Proofs.Trees

namespace BlendPlot

namespace Expr

def FiniteConstants (tree : Expr) : Prop :=
  tree.Every (fun value => value.isFinite) (fun _ => True)

/-- Constants are finite and without a sign, which negative zero has, and names are identifiers. -/
def WellFormed (tree : Expr) : Prop :=
  tree.Every (fun value => value.isFinite ∧ Unsigned value) IsIdentifier

example : (number (-0.0)).text = "-0" ∧ ¬(number (-0.0)).WellFormed := by
  unfold WellFormed Every Unsigned
  decide +kernel

theorem wordsOf_group (cs : List Char) :
    wordsOf ('(' :: (cs ++ [')'])) = .opening :: (wordsOf cs ++ [.closing]) := by
  have hclosing : EndsWord [')'] := endsWord_cons (by decide) []
  rw [wordsOf_opening, wordsOf_append cs hclosing, wordsOf_closing, wordsOf_nil]

theorem infixText_words (op : Operator) (rest : List Char) :
    wordsOf ((infixText op).toList ++ rest) = .sign op :: wordsOf rest := by
  have hsign := wordsOf_sign op
  cases op with
  | power => simpa [infixText] using hsign rest
  | plus | minus | times | divide =>
    have hspaces := hsign (' ' :: rest)
    rw [wordsOf_space] at hspaces
    simpa [infixText, wordsOf_space] using hspaces

theorem wordsOf_infix (op : Operator) (lefts rights : List Char) :
    wordsOf (lefts ++ ((infixText op).toList ++ rights)) =
      wordsOf lefts ++ .sign op :: wordsOf rights := by
  have hends : EndsWord ((infixText op).toList ++ rights) := by
    cases op <;> exact endsWord_cons (by decide) _
  rw [wordsOf_append lefts hends, infixText_words]

theorem wordsOf_intercalate (parts : List (List Char)) :
    wordsOf ([',', ' '].intercalate parts) = [Lexeme.comma].intercalate (parts.map wordsOf) := by
  induction parts with
  | nil => exact wordsOf_nil
  | cons part parts ih =>
    cases parts with
    | nil => simp
    | cons other parts =>
      have hcomma : EndsWord (',' :: ' ' :: [',', ' '].intercalate (other :: parts)) :=
        endsWord_cons (by decide) _
      have htext : [',', ' '].intercalate (part :: other :: parts) =
          part ++ ',' :: ' ' :: [',', ' '].intercalate (other :: parts) := by
        simp [List.intercalate_cons_cons]
      rw [htext, wordsOf_append part hcomma, wordsOf_comma, wordsOf_space, ih]
      simp [List.intercalate_cons_cons]

theorem wordsOf_call {function : String} (hf : IsIdentifier function) (args : List (List Char)) :
    wordsOf (function.toList ++ '(' :: ([',', ' '].intercalate args ++ [')'])) =
      .name function :: .opening ::
        ([Lexeme.comma].intercalate (args.map wordsOf) ++ [.closing]) := by
  have hopening : EndsWord ('(' :: ([',', ' '].intercalate args ++ [')'])) :=
    endsWord_cons (by decide) _
  rw [wordsOf_name hf hopening, wordsOf_group, wordsOf_intercalate]

theorem texts_eq_map (args : List Expr) : texts args = args.map text := by
  induction args with
  | nil => rfl
  | cons a args ih => rw [texts, ih, List.map_cons]

theorem text_call_toList (function : String) (args : List Expr) :
    (call function args).text.toList =
      function.toList ++
        '(' :: ([',', ' '].intercalate (args.map fun a => a.text.toList) ++ [')']) := by
  have hargs : (", ".intercalate (texts args)).toList =
      [',', ' '].intercalate (args.map fun a => a.text.toList) := by
    rw [texts_eq_map, String.toList_intercalate, List.map_map]
    rfl
  simp [text, hargs]

def opened (least level : Nat) : List Char :=
  if level < least then ['('] else []

def closed (least level : Nat) : List Char :=
  if level < least then [')'] else []

theorem guarded_toList (least level : Nat) (text : String) :
    (guarded least level text).toList =
      opened least level ++ (text.toList ++ closed least level) := by
  unfold guarded opened closed
  split <;> simp

/-- A text that writes a tree in a layer, wherever it stands, and nests at most so deep. -/
def Writes (c : Category) (depth : Nat) (text : List Char) (tree : Expr) : Prop :=
  ∃ words n, Derives c words tree n ∧ n ≤ depth ∧
    ∀ rest, EndsWord rest → wordsOf (text ++ rest) = words ++ wordsOf rest

theorem writes_of_derives {c : Category} {depth n : Nat} {text : List Char} {tree : Expr}
    (h : Derives c (wordsOf text) tree n) (hn : n ≤ depth) : Writes c depth text tree :=
  ⟨_, n, h, hn, fun _ hrest => wordsOf_append text hrest⟩

theorem Writes.derives {c : Category} {depth : Nat} {text : List Char} {tree : Expr}
    (h : Writes c depth text tree) : ∃ n ≤ depth, Derives c (wordsOf text) tree n := by
  obtain ⟨words, n, hderives, hn, hw⟩ := h
  have hwords := hw [] endsWord_nil
  rw [List.append_nil, wordsOf_nil, List.append_nil] at hwords
  rw [hwords]
  exact ⟨n, hn, hderives⟩

theorem Writes.loosen {c d : Category} {depth : Nat} {text : List Char} {tree : Expr}
    (h : Writes c depth text tree) (hd : d.level ≤ c.level) : Writes d depth text tree := by
  obtain ⟨n, hn, hderives⟩ := h.derives
  exact writes_of_derives (hderives.loosen hd) hn

/-- An operand without parentheses has to bind tightly enough for its place. -/
theorem derives_enclosed {cs : List Char} {tree : Expr} {n binding least level enough : Nat}
    (h : Derives (.ofLevel binding) (wordsOf cs) tree n)
    (hbare : least ≤ level → enough ≤ binding) :
    Derives (.ofLevel enough) (wordsOf (opened least level ++ (cs ++ closed least level))) tree
      (if level < least then n + 1 else n) := by
  unfold opened closed
  split
  next =>
    rw [List.singleton_append, wordsOf_group]
    exact (h.loosen (Category.expression_level_le _)).group.loosen (Category.level_le_primary _)
  next hlevel =>
    rw [List.nil_append, List.append_nil]
    exact h.loosen (Category.ofLevel_level_mono (hbare (Nat.le_of_not_lt hlevel)))

theorem Writes.guarded {depth : Nat} {text : String} {tree : Expr}
    (h : Writes (.ofLevel tree.level) depth text.toList tree) (least : Nat) :
    Writes (.ofLevel least) (depth + 1) (Expr.guarded least tree.level text).toList tree := by
  obtain ⟨n, hn, hderives⟩ := h.derives
  rw [guarded_toList]
  refine writes_of_derives (derives_enclosed hderives id) ?_
  split <;> omega

theorem exists_pieces {P : Nat → Prop} {args : List Expr}
    (h : ∀ a ∈ args, ∃ n, P n ∧ Derives .expression (wordsOf a.text.toList) a n) :
    ∃ pieces : List Piece, pieces.map (·.tree) = args ∧
      pieces.map (·.words) = args.map (fun a => wordsOf a.text.toList) ∧
      ∀ p ∈ pieces, P p.nesting ∧ Derives .expression p.words p.tree p.nesting := by
  induction args with
  | nil => exact ⟨[], rfl, rfl, nofun⟩
  | cons a as ih =>
    obtain ⟨n, hn, hderives⟩ := h a List.mem_cons_self
    obtain ⟨pieces, htrees, hwords, hp⟩ := ih fun d hd => h d (List.mem_cons_of_mem a hd)
    refine ⟨⟨wordsOf a.text.toList, a, n⟩ :: pieces, by rw [List.map_cons, htrees], ?_, ?_⟩
    · rw [List.map_cons, List.map_cons, hwords]
    · exact List.forall_mem_cons.mpr ⟨⟨hn, hderives⟩, hp⟩

theorem height_pos (tree : Expr) : 0 < tree.height := by
  cases tree <;> simp [height]

theorem Writes.deepen {c : Category} {depth depth' : Nat} {text : List Char} {tree : Expr}
    (h : Writes c depth text tree) (hd : depth ≤ depth') : Writes c depth' text tree := by
  obtain ⟨n, hn, hderives⟩ := h.derives
  exact writes_of_derives hderives (Nat.le_trans hn hd)

theorem text_negate_toList (operand : Expr) :
    (negate operand).text.toList =
      '-' :: (Expr.guarded signLevel operand.level operand.text).toList := by
  simp [text]

theorem text_binary_toList (op : Operator) (left right : Expr) :
    (binary op left right).text.toList =
      (Expr.guarded op.leftLevel left.level left.text).toList ++ ((infixText op).toList ++
        (Expr.guarded op.rightLevel right.level right.text).toList) := by
  simp [text]

theorem WellFormed.writes {tree : Expr} (h : tree.WellFormed) :
    Writes (.ofLevel tree.level) (2 * tree.height - 1) tree.text.toList tree := by
  induction tree using induction_parts with
  | number value =>
    obtain ⟨whole, fraction, hnum, htext, hvalue⟩ := plain_text_eq_spelling h.1 h.2
    refine ⟨[.number whole fraction], 1, .number hvalue, Nat.le_refl 1, ?_⟩
    intro rest hrest
    rw [text, htext]
    exact wordsOf_numeral hnum hrest
  | name id => exact ⟨[.name id], 1, .name id, Nat.le_refl 1, fun rest => wordsOf_name h⟩
  | negate operand ih =>
    obtain ⟨n, hn, hderives⟩ := ((ih h).guarded signLevel).derives
    have hpos := operand.height_pos
    refine writes_of_derives (n := n + 1) ?_ (by simp only [height]; omega)
    rw [text_negate_toList]
    exact wordsOf_sign .minus _ ▸ .negative hderives
  | binary op left right ihl ihr =>
    obtain ⟨n, hn, hdl⟩ := ((ihl h.1).guarded op.leftLevel).derives
    obtain ⟨m, hm, hdr⟩ := ((ihr h.2).guarded op.rightLevel).derives
    have hpl := left.height_pos
    have hpr := right.height_pos
    -- a guarded operand nests one deeper than in its own text, and twice its height has room for it
    refine writes_of_derives (n := max n (m + 1)) ?_ (by simp only [height]; omega)
    rw [text_binary_toList, wordsOf_infix]
    exact .binary hdl (hdr.loosen (Category.ofLevel_level_mono (Nat.min_le_left _ _)))
  | call function arguments ih =>
    have hargs : ∀ a ∈ arguments,
        Writes .expression (2 * maxHeight arguments - 1) a.text.toList a := by
      intro a ha
      have hle := height_le_maxHeight ha
      have hwrites := (ih a ha (everyIn_iff.mp h.2 a ha)).loosen (Category.expression_level_le _)
      exact hwrites.deepen (by omega)
    obtain ⟨pieces, htrees, hwords, hp⟩ := exists_pieces fun a ha => (hargs a ha).derives
    have hdeep := Piece.deepest_le_iff.mpr fun p hmem => (hp p hmem).1
    have hderives := Derives.call function fun p hmem => (hp p hmem).2
    rw [Piece.listed, hwords, htrees] at hderives
    refine writes_of_derives (n := Piece.deepest pieces + 1) ?_ (by simp only [height]; omega)
    rw [text_call_toList, wordsOf_call h.1, List.map_map]
    exact hderives

theorem WellFormed.derives {tree : Expr} (h : tree.WellFormed) :
    ∃ n, Derives (.ofLevel tree.level) (wordsOf tree.text.toList) tree n := by
  obtain ⟨n, -, hderives⟩ := h.writes.derives
  exact ⟨n, hderives⟩

theorem WellFormed.derives_guarded {tree : Expr} (h : tree.WellFormed) (least : Nat) :
    ∃ n, Derives (.ofLevel least)
      (wordsOf (Expr.guarded least tree.level tree.text).toList) tree n := by
  obtain ⟨n, -, hderives⟩ := (h.writes.guarded least).derives
  exact ⟨n, hderives⟩

/-- The outcome of reading a canonical text: the tree itself, unless it nests too deep. -/
theorem WellFormed.parse_text {tree : Expr} (h : tree.WellFormed) :
    parse tree.text = .ok tree ∨
      parse tree.text = .error .tooComplex ∧ maxDepth < 2 * tree.height := by
  obtain ⟨n, hn, hderives⟩ := h.writes.derives
  have hexpr : Derives .expression (lexemes tree.text) tree n :=
    hderives.loosen (Category.expression_level_le _)
  rw [hexpr.parse_eq]
  split
  next => exact Or.inl rfl
  next hfits =>
    refine Or.inr ⟨rfl, Nat.lt_of_not_le fun hle => hfits ⟨?_, ?_⟩⟩
    · omega
    · omega

end Expr

theorem every_of_parse {text : String} {tree : Expr} (h : Expr.parse text = .ok tree) :
    tree.Every Unsigned IsIdentifier := by
  obtain ⟨n, hderives, -⟩ := derives_of_parse h
  refine hderives.every fun word hword => ?_
  cases word with
  | number whole fraction => exact unsigned_toFloat _
  | name letters => exact isIdentifier_of_mem_wordsOf hword
  | sign | opening | closing | comma | unknown => trivial

theorem wellFormed_of_parse {text : String} {tree : Expr} (h : Expr.parse text = .ok tree)
    (hf : tree.FiniteConstants) : tree.WellFormed :=
  (hf.combine (every_of_parse h)).weaken (fun _ h => h) (fun _ h => h.2)

/-- Parsing undoes canonical printing, unless the canonical text nests too deep. -/
theorem parse_canonical_text :
    (∀ tree : Expr, tree.WellFormed → tree.height ≤ 128 → Expr.parse tree.text = .ok tree) ∧
    ∀ (text : String) (tree : Expr), Expr.parse text = .ok tree → tree.FiniteConstants →
      Expr.parse tree.text = .ok tree ∨ Expr.parse tree.text = .error .tooComplex := by
  constructor
  · intro tree h hheight
    rcases h.parse_text with hok | ⟨-, hdeep⟩
    · exact hok
    · have hmax : maxDepth = 256 := rfl
      omega
  · intro text tree h hf
    exact (wellFormed_of_parse h hf).parse_text.imp_right And.left

theorem parse_canonical_text_of_negated_base :
    let tree := Expr.binary .power (.negate (.name "x")) (.number 0.5)
    tree.text = "(-x)^0.5" ∧ tree.WellFormed ∧ tree.height ≤ 128 ∧ tree.FiniteConstants ∧
      Expr.parse "(-x)^0.5" = .ok tree ∧
      (Expr.parse tree.text = .ok tree ∨ Expr.parse tree.text = .error .tooComplex) := by
  intro tree
  have htext : tree.text = "(-x)^0.5" := by decide +kernel
  have hwf : tree.WellFormed :=
    ⟨⟨by decide, by simp; decide⟩, by decide +kernel, by unfold Unsigned; decide +kernel⟩
  have hheight : tree.height ≤ 128 := by decide
  have hfinite : tree.FiniteConstants := ⟨trivial, hwf.2.1⟩
  have hparse := parse_canonical_text.1 tree hwf hheight
  have hagain := parse_canonical_text.2 tree.text tree hparse hfinite
  rw [htext] at hparse
  exact ⟨htext, hwf, hheight, hfinite, hparse, hagain⟩

end BlendPlot
