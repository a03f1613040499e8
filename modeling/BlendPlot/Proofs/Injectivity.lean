import BlendPlot.Proofs.JsonText
import BlendPlot.Proofs.Printing

namespace BlendPlot

open Float.Model.UnpackedFloat

def infinityText : Sign → String
  | .positive => "inf"
  | .negative => "-inf"

theorem infinityText_inj {s t : Sign} (h : infinityText s = infinityText t) : s = t := by
  cases s <;> cases t <;> first
    | rfl
    | exact absurd h (by decide)

namespace Decimal

theorem text_of_isNaN (l : Layout) {x : Float} (h : x.isNaN) : l.text x = "NaN" := by
  rw [Layout.text, if_pos h]

theorem text_of_infinity (l : Layout) {x : Float} {s : Sign} (h : x.toModel.unpack = .infinity s) :
    l.text x = infinityText s := by
  have hsign : x.toBits ≥ 0x8000000000000000 ↔ s = .negative := by
    have hbits := Double.unpack_eq_infinity h
    have hle : x.toBits ≥ 0x8000000000000000 ↔ 2 ^ 63 ≤ x.toModel.toBits.toNat :=
      UInt64.le_iff_toNat_le
    rw [hle, hbits]
    cases s <;> simp [Double.signBit]
  rw [Layout.text, Double.isNaN_of_infinity h, Double.isFinite_of_infinity h]
  dsimp only
  cases s with
  | positive => simp [hsign, infinityText]
  | negative => simp [hsign, infinityText]

theorem value_numeral_text (l : Layout) (x : Float) :
    (Json.numeral (l.text x).toList).map (fun read => read.1.toFloat) =
      if x.isFinite then some x else none := by
  by_cases hf : x.isFinite
  · obtain ⟨n, htext, -, hproper, hvalue, -⟩ := text_spells l hf
    have hread := Json.numeral_text hproper endsWord_nil
    rw [List.append_nil, ← htext] at hread
    rw [if_pos hf, hread, Option.map_some, hvalue]
  · rw [if_neg hf, Option.map_eq_none_iff]
    rcases Double.not_finite_cases hf with hx | ⟨s, hx⟩
    · rw [text_of_isNaN l hx]
      decide +kernel
    · rw [text_of_infinity l hx]
      cases s <;> decide +kernel

theorem eq_of_text_eq_of_not_isFinite (l : Layout) {x y : Float} (hx : ¬x.isFinite)
    (hy : ¬y.isFinite) (h : l.text x = l.text y) : x = y := by
  have nan_ne_infinity {z w : Float} {s : Sign} (hz : z.isNaN)
      (hw : w.toModel.unpack = .infinity s) : l.text z ≠ l.text w := by
    rw [text_of_isNaN l hz, text_of_infinity l hw]
    cases s <;> decide
  rcases Double.not_finite_cases hx with hx | ⟨s, hx⟩ <;>
    rcases Double.not_finite_cases hy with hy | ⟨t, hy⟩
  · exact eq_of_isNaN hx hy
  · exact absurd h (nan_ne_infinity hx hy)
  · exact absurd h.symm (nan_ne_infinity hy hx)
  · rw [text_of_infinity l hx, text_of_infinity l hy] at h
    obtain rfl := infinityText_inj h
    exact Double.eq_of_unpack_infinity hx hy

/-- Different doubles have different texts in any layout. -/
theorem text_injective (l : Layout) {x y : Float} (h : l.text x = l.text y) : x = y := by
  have hread := value_numeral_text l x
  rw [h, value_numeral_text l y] at hread
  by_cases hx : x.isFinite <;> by_cases hy : y.isFinite
  · rw [if_pos hx, if_pos hy] at hread
    exact (Option.some.inj hread).symm
  · rw [if_pos hx, if_neg hy] at hread
    cases hread
  · rw [if_neg hx, if_pos hy] at hread
    cases hread
  · exact eq_of_text_eq_of_not_isFinite l hx hy h

end Decimal

theorem mem_intercalate {separator : String} {parts : List String} {c : Char}
    (h : c ∈ (separator.intercalate parts).toList) :
    c ∈ separator.toList ∨ ∃ part ∈ parts, c ∈ part.toList := by
  induction parts with
  | nil =>
    rw [String.intercalate_nil] at h
    cases h
  | cons part parts ih =>
    cases parts with
    | nil =>
      rw [String.intercalate_singleton] at h
      exact Or.inr ⟨part, List.mem_cons_self, h⟩
    | cons next parts =>
      rw [String.intercalate_cons_cons, String.toList_append, String.toList_append,
        List.mem_append, List.mem_append] at h
      rcases h with (h | h) | h
      · exact Or.inr ⟨part, List.mem_cons_self, h⟩
      · exact Or.inl h
      · refine (ih h).imp_right ?_
        rintro ⟨other, hmem, hc⟩
        exact ⟨other, List.mem_cons_of_mem part hmem, hc⟩

theorem infix_intercalate (separator : String) {parts : List String} {part : String}
    (h : part ∈ parts) : part.toList <:+: (separator.intercalate parts).toList := by
  induction parts with
  | nil => cases h
  | cons first parts ih =>
    cases parts with
    | nil =>
      rw [List.mem_singleton.mp h, String.intercalate_singleton]
    | cons next parts =>
      rw [String.intercalate_cons_cons, String.toList_append, String.toList_append]
      rcases List.mem_cons.mp h with rfl | h
      · rw [List.append_assoc]
        exact (List.prefix_append _ _).isInfix
      · exact (ih h).trans (List.suffix_append _ _).isInfix

def isNumberChar (c : Char) : Bool :=
  c.isAlphanum || c == '.' || c == '-'

theorem isNumberChar_of_isDigit {c : Char} (h : c.isDigit) : isNumberChar c := by
  simp [isNumberChar, Char.isAlphanum, h]

theorem mem_numeral_text {n : Json.Numeral} (hproper : n.Proper) {c : Char} (h : c ∈ n.text) :
    c.isDigit ∨ c = '.' ∨ n.exponent.isSome ∧ (c = 'e' ∨ c = '+' ∨ c = '-') := by
  obtain ⟨negative, whole, fraction, exponent⟩ := n
  obtain ⟨-, hwhole, hfraction⟩ := hproper.numeral
  rw [Json.Numeral.text, List.mem_append, List.mem_append] at h
  rcases h with (h | h) | h
  · exact Or.inl (hwhole c h)
  · cases fraction with
    | none => cases h
    | some ds =>
      rcases List.mem_cons.mp h with rfl | h
      · exact Or.inr (Or.inl rfl)
      · exact Or.inl (hfraction c h)
  · cases exponent with
    | none => cases h
    | some e =>
      rcases List.mem_cons.mp h with rfl | h
      · exact Or.inr (Or.inr ⟨rfl, Or.inl rfl⟩)
      · rcases List.mem_cons.mp h with rfl | h
        · refine Or.inr (Or.inr ⟨rfl, Or.inr ?_⟩)
          split
          · exact Or.inr rfl
          · exact Or.inl rfl
        · exact Or.inl (Decimal.isDigit_of_mem_toDigits h)

/-- The characters of the text of a finite double; the last two are those of a power of ten. -/
theorem mem_text_of_isFinite (l : Decimal.Layout) {x : Float} (hf : x.isFinite) {c : Char}
    (h : c ∈ (l.text x).toList) :
    c.isDigit ∨ c = '.' ∨ c = '-' ∨ ¬(∀ e, l.positional e) ∧ (c = 'e' ∨ c = '+') := by
  obtain ⟨n, htext, -, hproper, -, hexp, -⟩ := Decimal.text_spells l hf
  rw [htext] at h
  rcases List.mem_append.mp h with h | h
  · split at h
    · exact Or.inr (Or.inr (Or.inl (List.mem_singleton.mp h)))
    · cases h
  · rcases mem_numeral_text hproper h with h | h | ⟨hsome, h⟩
    · exact Or.inl h
    · exact Or.inr (Or.inl h)
    · have hpower : ¬∀ e, l.positional e := fun hall => by simp [hexp hall] at hsome
      rcases h with h | h | h
      · exact Or.inr (Or.inr (Or.inr ⟨hpower, Or.inl h⟩))
      · exact Or.inr (Or.inr (Or.inr ⟨hpower, Or.inr h⟩))
      · exact Or.inr (Or.inr (Or.inl h))

theorem mem_plain_text {x : Float} (hf : x.isFinite) {c : Char}
    (h : c ∈ (Decimal.Layout.plain.text x).toList) : c.isDigit ∨ c = '.' ∨ c = '-' := by
  rcases mem_text_of_isFinite .plain hf h with h | h | h | ⟨hpower, -⟩
  · exact Or.inl h
  · exact Or.inr (Or.inl h)
  · exact Or.inr (Or.inr h)
  · exact absurd (fun _ => rfl) hpower

theorem isNumberChar_of_mem_text (x : Float) :
    ∀ c ∈ (Decimal.Layout.plain.text x).toList, isNumberChar c := by
  intro c h
  by_cases hf : x.isFinite
  · rcases mem_plain_text hf h with h | rfl | rfl
    · exact isNumberChar_of_isDigit h
    · decide
    · decide
  · rcases Double.not_finite_cases hf with hx | ⟨s, hx⟩
    · rw [Decimal.text_of_isNaN .plain hx] at h
      exact List.all_eq_true.mp (show "NaN".toList.all isNumberChar by decide) c h
    · have hall : (infinityText s).toList.all isNumberChar := by cases s <;> decide
      rw [Decimal.text_of_infinity .plain hx] at h
      exact List.all_eq_true.mp hall c h

/-- Words write at most one tree, among those that are not too high. -/
theorem Derives.unique {words : List Lexeme} {a b : Expr} {n m : Nat}
    (ha : Derives .expression words a n) (hb : Derives .expression words b m)
    (hha : a.height ≤ maxDepth) (hhb : b.height ≤ maxDepth) : a = b := by
  -- both trees are read off the same tokens in a room that has place for either derivation
  have read {tree : Expr} {k : Nat} (h : Derives .expression words tree k)
      (hh : tree.height ≤ maxDepth) (hk : k ≤ max n m) :
      (Parser.expression (max n m) 0).run (words.map (⟨·, 0⟩) ++ []) = .ok (tree.measured, []) := by
    have hts : (words.map fun word => (⟨word, 0⟩ : Token)).map (·.lexeme) = words := by
      rw [List.map_map]
      exact List.map_id words
    rw [h.readAs.whole h.nesting_pos (max n m) hts (Nat.zero_le _) (stops_nil _) (stops_nil 0),
      if_pos ⟨hk, hh⟩]
  have hsame := (read ha hha (Nat.le_max_left n m)).symm.trans (read hb hhb (Nat.le_max_right n m))
  obtain ⟨hmeasured, -⟩ := Prod.mk.inj (Except.ok.inj hsame)
  exact congrArg Parser.Measured.expr hmeasured

namespace Expr

theorem mem_guarded {least level : Nat} {text : String} {c : Char}
    (h : c ∈ (guarded least level text).toList) : c = '(' ∨ c = ')' ∨ c ∈ text.toList := by
  unfold guarded at h
  split at h
  · simp only [String.toList_append, List.mem_append] at h
    rcases h with (h | h) | h
    · exact Or.inl (by simpa using h)
    · exact Or.inr (Or.inr h)
    · exact Or.inr (Or.inl (by simpa using h))
  · exact Or.inr (Or.inr h)

theorem newline_not_mem_text {constant : Float → Prop} {tree : Expr}
    (h : tree.Every constant IsIdentifier) : '\n' ∉ tree.text.toList := by
  have guardedLine {least level : Nat} {text : String} (ht : '\n' ∉ text.toList) :
      '\n' ∉ (guarded least level text).toList := by
    intro hc
    rcases mem_guarded hc with hc | hc | hc
    · cases hc
    · cases hc
    · exact ht hc
  induction tree using induction_parts with
  | number value =>
    intro hc
    exact absurd (isNumberChar_of_mem_text value _ hc) (by decide)
  | name id =>
    intro hc
    exact absurd (h.2 _ hc) (by decide)
  | negate operand ih =>
    rw [text, String.toList_append, List.mem_append, not_or]
    exact ⟨by decide, guardedLine (ih h)⟩
  | binary op left right ihl ihr =>
    have hinfix : '\n' ∉ (infixText op).toList := by cases op <;> decide
    rw [text, String.toList_append, String.toList_append, List.mem_append, List.mem_append, not_or,
      not_or]
    exact ⟨⟨guardedLine (ihl h.1), hinfix⟩, guardedLine (ihr h.2)⟩
  | call function arguments ih =>
    simp only [text, String.toList_append, List.mem_append, not_or]
    refine ⟨⟨⟨fun hc => absurd (h.1.2 _ hc) (by decide), by decide⟩, fun hc => ?_⟩, by decide⟩
    rcases mem_intercalate hc with hc | ⟨part, hpart, hc⟩
    · exact absurd hc (by decide)
    · rw [texts_eq_map] at hpart
      obtain ⟨a, ha, rfl⟩ := List.mem_map.mp hpart
      exact ih a ha (everyIn_iff.mp h.2 a ha) hc

/-- Different trees have different canonical texts. -/
theorem WellFormed.text_injective {a b : Expr} (ha : a.WellFormed) (hb : b.WellFormed)
    (hha : a.height ≤ maxDepth) (hhb : b.height ≤ maxDepth) (h : a.text = b.text) : a = b := by
  have derived {tree : Expr} (ht : tree.WellFormed) :
      ∃ n, Derives .expression (wordsOf tree.text.toList) tree n := by
    obtain ⟨n, hderives⟩ := ht.derives
    exact ⟨n, hderives.loosen (Category.expression_level_le _)⟩
  obtain ⟨n, hderivesA⟩ := derived ha
  obtain ⟨m, hderivesB⟩ := derived hb
  rw [← h] at hderivesB
  exact hderivesA.unique hderivesB hha hhb

end Expr

end BlendPlot
