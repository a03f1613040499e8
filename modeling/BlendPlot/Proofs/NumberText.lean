import BlendPlot.Decimal.Layout
import BlendPlot.Json.Numeral
import BlendPlot.Proofs.Shortest
import BlendPlot.Proofs.Words

namespace BlendPlot

namespace Decimal

theorem foldl_digits (n : Nat) (cs : List Char) :
    cs.foldl (fun n c => 10 * n + (c.toNat - '0'.toNat)) n =
      n * 10 ^ cs.length + digitsValue cs := by
  induction cs generalizing n with
  | nil => simp [digitsValue]
  | cons c cs ih =>
    rw [digitsValue, List.foldl_cons, List.foldl_cons, ih, ih (10 * 0 + _), List.length_cons,
      pow_succ]
    ring

theorem digitsValue_append (cs ds : List Char) :
    digitsValue (cs ++ ds) = digitsValue cs * 10 ^ ds.length + digitsValue ds := by
  rw [digitsValue, List.foldl_append, foldl_digits]
  rfl

theorem digitsValue_zeros (k : Nat) : digitsValue (zeros k) = 0 := by
  induction k with
  | zero => rfl
  | succ k ih =>
    have hsucc : zeros (k + 1) = ['0'] ++ zeros k := rfl
    rw [hsucc, digitsValue_append, ih, show digitsValue ['0'] = 0 from rfl]
    simp

theorem isDigit_of_mem_zeros {c : Char} {k : Nat} (h : c ∈ zeros k) : c.isDigit := by
  rw [List.eq_of_mem_replicate h]
  decide

theorem isDigit_of_mem_toDigits {c : Char} {n : Nat} (h : c ∈ Nat.toDigits 10 n) : c.isDigit :=
  Nat.isDigit_of_mem_toDigits (by decide) (by decide) h

theorem head?_toDigits {n : Nat} (hn : 0 < n) : (Nat.toDigits 10 n).head? ≠ some '0' := by
  induction n using Nat.strongRecOn with
  | ind n ih =>
    by_cases h : n < 10
    · have hdigit : ∀ d < 10, 0 < d → [d.digitChar].head? ≠ some '0' := by decide
      rw [Nat.toDigits_of_lt_base h]
      exact hdigit n h hn
    · have hquot := ih (n / 10) (by omega) (by omega)
      obtain ⟨c, cs, hcs⟩ :=
        List.exists_cons_of_ne_nil (Nat.toDigits_ne_nil (n := n / 10) (b := 10))
      rw [Nat.toDigits_of_base_le (by decide) (by omega), hcs]
      rw [hcs] at hquot
      simpa using hquot

end Decimal

namespace Json.Numeral

def fractionText : Option (List Char) → List Char
  | none => []
  | some ds => '.' :: ds

def exponentText : Option Int → List Char
  | none => []
  | some e => 'e' :: (if e < 0 then '-' else '+') :: Nat.toDigits 10 e.natAbs

/-- A numeral without its sign, as it is written here. -/
def text (n : Numeral) : List Char :=
  n.whole ++ fractionText n.fraction ++ exponentText n.exponent

/-- Digits on both sides of a point and no zeros that are not needed at the front. -/
structure Proper (n : Numeral) : Prop where
  numeral : IsNumeral n.whole n.fraction
  fraction_ne : n.fraction ≠ some []
  lead : n.whole = ['0'] ∨ n.whole.head? ≠ some '0'

end Json.Numeral

namespace Decimal

open Json (Numeral)
open Json.Numeral (fractionText exponentText)

/-- A numeral that spells a number, which is written as a text. -/
structure Spells (cs : List Char) (v : ℚ) (n : Numeral) : Prop where
  text : n.text = cs
  unsigned : n.negative = false
  proper : n.Proper
  value : n.magnitude.value = v

theorem magnitude_value (whole : List Char) (fraction : Option (List Char)) (e : Option Int) :
    (Numeral.mk false whole fraction e).magnitude.value =
      digitsValue (whole ++ fraction.getD []) * 10 ^ (e.getD 0 - (fraction.getD []).length) := by
  rw [value, Json.Numeral.magnitude, ofPoint]
  dsimp only
  rw [neg_add_eq_sub]

theorem lead_toDigits (n : Nat) :
    Nat.toDigits 10 n = ['0'] ∨ (Nat.toDigits 10 n).head? ≠ some '0' := by
  rcases Nat.eq_zero_or_pos n with rfl | hn
  · exact Or.inl rfl
  · exact Or.inr (head?_toDigits hn)

section Whole

variable {n : Nat} {p : Int} (h : 0 < n ∨ p = 0) (hp : 0 ≤ p)

include h hp

theorem proper_whole (fraction : Option (List Char)) (hdigits : ∀ c ∈ fraction.getD [], c.isDigit)
    (hne : fraction ≠ some []) :
    (Numeral.mk false (Nat.toDigits 10 n ++ zeros p.toNat) fraction none).Proper := by
  refine ⟨⟨by simp [Nat.toDigits_ne_nil], ?_, hdigits⟩, hne, ?_⟩
  · intro c hc
    rcases List.mem_append.mp hc with hc | hc
    · exact isDigit_of_mem_toDigits hc
    · exact isDigit_of_mem_zeros hc
  · rcases h with hn | rfl
    · refine Or.inr ?_
      rw [List.head?_append_of_ne_nil _ Nat.toDigits_ne_nil]
      exact head?_toDigits hn
    · have hzeros : Nat.toDigits 10 n ++ zeros (0 : Int).toNat = Nat.toDigits 10 n :=
        List.append_nil _
      rw [hzeros]
      exact lead_toDigits n

omit h in
theorem digitsValue_whole :
    (digitsValue (Nat.toDigits 10 n ++ zeros p.toNat) : ℚ) = n * 10 ^ p := by
  have hpow : (10 : ℚ) ^ p = 10 ^ p.toNat := by
    rw [← zpow_natCast, Int.toNat_of_nonneg hp]
  rw [digitsValue_append, digitsValue_toDigits, digitsValue_zeros, zeros, List.length_replicate,
    hpow]
  push_cast
  ring

theorem spells_without_point :
    Spells (Nat.toDigits 10 n ++ zeros p.toNat) (n * 10 ^ p)
      ⟨false, Nat.toDigits 10 n ++ zeros p.toNat, none, none⟩ := by
  refine ⟨by simp [Numeral.text, fractionText, exponentText], rfl,
    proper_whole h hp none (by simp) (by simp), ?_⟩
  rw [magnitude_value, Option.getD_none, List.append_nil, digitsValue_whole hp]
  simp

theorem spells_with_zero_after_point :
    Spells (Nat.toDigits 10 n ++ zeros p.toNat ++ ['.', '0']) (n * 10 ^ p)
      ⟨false, Nat.toDigits 10 n ++ zeros p.toNat, some ['0'], none⟩ := by
  refine ⟨by simp [Numeral.text, fractionText, exponentText], rfl,
    proper_whole h hp _ (List.forall_mem_singleton.mpr (by decide)) (by simp), ?_⟩
  rw [magnitude_value, Option.getD_some, digitsValue_append, show digitsValue ['0'] = 0 from rfl]
  push_cast
  rw [digitsValue_whole hp]
  simp

end Whole

section Fraction

variable {n k : Nat}

theorem spells_point_inside (hn : 0 < n) (hk : 0 < k) (hlt : k < (Nat.toDigits 10 n).length) :
    Spells ((Nat.toDigits 10 n).take ((Nat.toDigits 10 n).length - k) ++
        '.' :: (Nat.toDigits 10 n).drop ((Nat.toDigits 10 n).length - k)) (n * 10 ^ (-k : Int))
      ⟨false, (Nat.toDigits 10 n).take ((Nat.toDigits 10 n).length - k),
        some ((Nat.toDigits 10 n).drop ((Nat.toDigits 10 n).length - k)), none⟩ := by
  have hdrop : ((Nat.toDigits 10 n).drop ((Nat.toDigits 10 n).length - k)).length = k := by
    rw [List.length_drop]
    omega
  refine ⟨by simp [Numeral.text, fractionText, exponentText], rfl, ⟨⟨?_, ?_, ?_⟩, ?_, ?_⟩, ?_⟩
  · intro hnil
    rcases List.take_eq_nil_iff.mp hnil with hzero | hnil
    · omega
    · exact Nat.toDigits_ne_nil hnil
  · exact fun c hc => isDigit_of_mem_toDigits (List.mem_of_mem_take hc)
  · exact fun c hc => isDigit_of_mem_toDigits (List.mem_of_mem_drop hc)
  · intro hnil
    rw [Option.some.inj hnil, List.length_nil] at hdrop
    omega
  · refine Or.inr ?_
    rw [List.head?_take, if_neg (by omega)]
    exact head?_toDigits hn
  · rw [magnitude_value, Option.getD_some, List.take_append_drop, digitsValue_toDigits, hdrop,
      Option.getD_none, zero_sub]

theorem spells_point_before (hle : (Nat.toDigits 10 n).length ≤ k) :
    Spells ('0' :: '.' :: zeros (k - (Nat.toDigits 10 n).length) ++ Nat.toDigits 10 n)
      (n * 10 ^ (-k : Int))
      ⟨false, ['0'], some (zeros (k - (Nat.toDigits 10 n).length) ++ Nat.toDigits 10 n), none⟩ := by
  have hvalue : digitsValue
      (['0'] ++ (zeros (k - (Nat.toDigits 10 n).length) ++ Nat.toDigits 10 n)) = n := by
    rw [digitsValue_append, digitsValue_append, digitsValue_zeros, digitsValue_toDigits,
      show digitsValue ['0'] = 0 from rfl]
    omega
  have hlength : (zeros (k - (Nat.toDigits 10 n).length) ++ Nat.toDigits 10 n).length = k := by
    rw [List.length_append, zeros, List.length_replicate]
    omega
  refine ⟨by simp [Numeral.text, fractionText, exponentText], rfl,
    ⟨⟨List.cons_ne_nil _ _, List.forall_mem_singleton.mpr (by decide), ?_⟩, ?_, Or.inl rfl⟩, ?_⟩
  · intro c hc
    rcases List.mem_append.mp hc with hc | hc
    · exact isDigit_of_mem_zeros hc
    · exact isDigit_of_mem_toDigits hc
  · simp [Nat.toDigits_ne_nil]
  · rw [magnitude_value, Option.getD_some, hvalue, hlength, Option.getD_none, zero_sub]

end Fraction

theorem positionalText_spells (l : Layout) {n : Nat} {p : Int} (h : 0 < n ∨ p = 0) :
    ∃ m : Numeral, Spells (l.positionalText (Nat.toDigits 10 n) p) (n * 10 ^ p) m ∧
      m.exponent = none ∧ (l.pointed → m.fraction.isSome) := by
  unfold Layout.positionalText
  split
  next hp =>
    split
    next => exact ⟨_, spells_with_zero_after_point h hp, rfl, fun _ => rfl⟩
    next hpoint =>
      rw [List.append_nil]
      exact ⟨_, spells_without_point h hp, rfl, fun ht => absurd ht hpoint⟩
  next hp =>
    have hn : 0 < n := h.resolve_right (by omega)
    have hk : p = -((-p).toNat : Int) := by omega
    dsimp only
    split
    next hplaces =>
      have hinside := spells_point_inside hn (by omega) hplaces
      rw [← hk] at hinside
      exact ⟨_, hinside, rfl, fun _ => rfl⟩
    next hplaces =>
      have hbefore := spells_point_before (Nat.le_of_not_lt hplaces)
      rw [← hk] at hbefore
      exact ⟨_, hbefore, rfl, fun _ => rfl⟩

theorem scientificText_spells (n : Nat) (p : Int) :
    ∃ m : Numeral, Spells (scientificText (Nat.toDigits 10 n) (p + (Nat.toDigits 10 n).length - 1))
      (n * 10 ^ p) m ∧ m.exponent.isSome := by
  have hvalue := digitsValue_toDigits n
  have hdigits : ∀ c ∈ Nat.toDigits 10 n, c.isDigit := fun c => isDigit_of_mem_toDigits
  have hlead := lead_toDigits n
  unfold scientificText
  dsimp only
  split
  next d d' rest hds =>
    rw [hds] at hvalue hdigits hlead ⊢
    refine ⟨⟨false, [d], some (d' :: rest), some (p + (d :: d' :: rest).length - 1)⟩,
      ⟨by simp [Numeral.text, fractionText, exponentText], rfl,
        ⟨⟨by simp, ?_, ?_⟩, by simp, ?_⟩, ?_⟩, rfl⟩
    · exact fun c hc => hdigits c (by simp_all)
    · exact fun c hc => hdigits c (by simp_all)
    · exact hlead.imp (by simp) (by simp)
    · rw [magnitude_value, Option.getD_some, Option.getD_some, List.singleton_append, hvalue]
      congr 2
      simp only [List.length_cons]
      omega
  next hds =>
    have hone : (Nat.toDigits 10 n).length = 1 := by
      match hcs : Nat.toDigits 10 n with
      | [] => exact absurd hcs Nat.toDigits_ne_nil
      | [d] => rfl
      | d :: d' :: rest => exact absurd hcs (hds d d' rest)
    refine ⟨⟨false, Nat.toDigits 10 n, none, some (p + (Nat.toDigits 10 n).length - 1)⟩,
      ⟨by simp [Numeral.text, fractionText, exponentText], rfl,
        ⟨⟨Nat.toDigits_ne_nil, hdigits, by simp⟩, by simp, hlead⟩, ?_⟩, rfl⟩
    rw [magnitude_value, Option.getD_none, List.append_nil, hvalue, hone]
    congr 2
    simp

theorem decimalText_spells (l : Layout) {x : Float} (hf : x.isFinite) :
    ∃ m : Numeral, Spells (l.decimalText (shortest l.tie x)) (shortest l.tie x).value m ∧
      ((∀ e, l.positional e) → m.exponent = none) ∧
      (l.pointed → m.fraction.isSome ∨ m.exponent.isSome) := by
  have h := shortest_digits_pos hf l.tie
  unfold Layout.decimalText
  dsimp only
  split
  next =>
    obtain ⟨m, hspells, hexp, hpoint⟩ := positionalText_spells l h
    exact ⟨m, hspells, fun _ => hexp, fun hp => Or.inl (hpoint hp)⟩
  next hscientific =>
    obtain ⟨m, hspells, hexp⟩ :=
      scientificText_spells (shortest l.tie x).digits (shortest l.tie x).exponent
    exact ⟨m, hspells, fun hall => absurd (hall _) hscientific, fun _ => Or.inr hexp⟩

/-- The text of a finite double is a numeral with the value of the double. -/
theorem text_spells (l : Layout) {x : Float} (hf : x.isFinite) :
    ∃ n : Numeral, (l.text x).toList = (if n.negative then ['-'] else []) ++ n.text ∧
      (Unsigned x ↔ n.negative = false) ∧ n.Proper ∧ n.toFloat = x ∧
      ((∀ e, l.positional e) → n.exponent = none) ∧
      (l.pointed → n.fraction.isSome ∨ n.exponent.isSome) := by
  obtain ⟨m, hspells, hexp, hpoint⟩ := decimalText_spells l hf
  have hmagnitude : m.magnitude.toFloat = x.abs := toFloat_of_value_eq_shortest hf hspells.value
  have htext : (l.text x).toList =
      if x.toBits ≥ 0x8000000000000000 then '-' :: m.text else m.text := by
    rw [Layout.text, not_isNaN_of_isFinite hf, hf, hspells.text]
    simp
  by_cases hs : Unsigned x
  · have hnot : ¬x.toBits ≥ 0x8000000000000000 := UInt64.not_le.mpr hs
    refine ⟨m, ?_, iff_of_true hs hspells.unsigned, hspells.proper, ?_, hexp, hpoint⟩
    · rw [htext, if_neg hnot, hspells.unsigned]
      rfl
    · rw [Numeral.toFloat, hspells.unsigned, hmagnitude]
      exact abs_of_unsigned hf hs
  · have hyes : x.toBits ≥ 0x8000000000000000 := UInt64.not_lt.mp hs
    refine ⟨{ m with negative := true }, ?_, iff_of_false hs nofun,
      ⟨hspells.proper.numeral, hspells.proper.fraction_ne, hspells.proper.lead⟩, ?_, hexp, hpoint⟩
    · rw [htext, if_pos hyes]
      rfl
    · change -m.magnitude.toFloat = x
      rw [hmagnitude]
      exact neg_abs_of_not_unsigned hf hs

end Decimal

theorem plain_text_toList {x : Float} (hf : x.isFinite) :
    ∃ negative whole fraction, IsNumeral whole fraction ∧ (Unsigned x ↔ negative = false) ∧
      (Decimal.Layout.plain.text x).toList =
        (if negative then ['-'] else []) ++ (Lexeme.number whole fraction).spelling.toList ∧
      (Unsigned x → (Lexeme.number whole fraction).value? = some x) := by
  obtain ⟨⟨negative, whole, fraction, exponent⟩, htext, hsign, hproper, hvalue, hexp, -⟩ :=
    Decimal.text_spells .plain hf
  obtain rfl : exponent = none := hexp fun _ => rfl
  refine ⟨negative, whole, fraction, hproper.numeral, hsign, ?_, fun hs => ?_⟩
  · rw [htext]
    cases fraction <;>
      simp [Json.Numeral.text, Json.Numeral.fractionText, Json.Numeral.exponentText,
        Lexeme.spelling]
  · obtain rfl : negative = false := hsign.mp hs
    rw [Lexeme.value?, ← hvalue]
    simp [Json.Numeral.toFloat, Json.Numeral.magnitude]

theorem plain_text_eq_spelling {x : Float} (hf : x.isFinite) (hs : Unsigned x) :
    ∃ whole fraction, IsNumeral whole fraction ∧
      Decimal.Layout.plain.text x = (Lexeme.number whole fraction).spelling ∧
      (Lexeme.number whole fraction).value? = some x := by
  obtain ⟨negative, whole, fraction, hnum, hsign, htext, hvalue⟩ := plain_text_toList hf
  obtain rfl : negative = false := hsign.mp hs
  exact ⟨whole, fraction, hnum, String.toList_inj.mp htext, hvalue hs⟩

end BlendPlot
