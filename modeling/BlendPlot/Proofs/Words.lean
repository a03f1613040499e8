import BlendPlot.Proofs.Grammar
import Mathlib

namespace BlendPlot

def wordsOf (cs : List Char) : List Lexeme :=
  (tokensFrom 0 cs).map (·.lexeme)

/-- A character that can go on with a numeral or a name. -/
def continuesWord (c : Char) : Bool :=
  c.isDigit || c == '.' || isIdentifierChar c

/-- Whether a word ends before these characters. -/
def EndsWord (rest : List Char) : Prop :=
  ∀ c ∈ rest.head?, continuesWord c = false

/-- A text that is a name: identifier characters, at least one. -/
def IsIdentifier (name : String) : Prop :=
  name.toList ≠ [] ∧ ∀ c ∈ name.toList, isIdentifierChar c

def IsNumeral (whole : List Char) (fraction : Option (List Char)) : Prop :=
  whole ≠ [] ∧ (∀ c ∈ whole, c.isDigit) ∧ ∀ c ∈ fraction.getD [], c.isDigit

theorem endsWord_nil : EndsWord [] := nofun

theorem endsWord_cons {c : Char} (h : continuesWord c = false) (cs : List Char) :
    EndsWord (c :: cs) := by
  intro d hd
  obtain rfl := Option.some.inj hd
  exact h

/-- Where a text stands does not matter to its words. -/
theorem lexemes_tokensFrom (p q : Nat) (cs : List Char) :
    (tokensFrom p cs).map (·.lexeme) = (tokensFrom q cs).map (·.lexeme) := by
  fun_induction tokensFrom p cs generalizing q with
  | case1 => simp [tokensFrom]
  | case2 p c cs hc ih =>
    rw [tokensFrom, if_pos hc]
    exact ih _
  | case3 p c cs hc lexeme ih =>
    rw [tokensFrom, if_neg hc, List.map_cons, List.map_cons, ih]

theorem lexemes_eq_wordsOf (text : String) : lexemes text = wordsOf text.toList := rfl

@[simp] theorem wordsOf_nil : wordsOf [] = [] := by
  simp [wordsOf, tokensFrom]

theorem wordsOf_blank {c : Char} (hc : isBlankChar c) (cs : List Char) :
    wordsOf (c :: cs) = wordsOf cs := by
  rw [wordsOf, tokensFrom, if_pos hc]
  exact lexemes_tokensFrom _ _ cs

theorem wordsOf_cons {c : Char} (hc : ¬isBlankChar c) (cs : List Char) :
    wordsOf (c :: cs) = (Lexeme.read c cs).1 :: wordsOf (Lexeme.read c cs).2 := by
  rw [wordsOf, tokensFrom, if_neg hc, List.map_cons]
  exact congrArg _ (lexemes_tokensFrom _ _ _)

@[elab_as_elim]
theorem words_induction {motive : List Char → Prop} (nil : motive [])
    (blank : ∀ c cs, isBlankChar c → motive cs → motive (c :: cs))
    (word : ∀ c cs, ¬isBlankChar c → motive (Lexeme.read c cs).2 → motive (c :: cs))
    (cs : List Char) : motive cs := by
  induction hl : cs.length using Nat.strongRecOn generalizing cs with
  | ind n ih =>
    subst hl
    cases cs with
    | nil => exact nil
    | cons c cs =>
      by_cases hb : isBlankChar c
      · exact blank c cs hb (ih cs.length (Nat.lt_succ_self _) cs rfl)
      · -- what follows a word is shorter, so the hypothesis is about lengths
        have hlt := Nat.lt_succ_of_le (Lexeme.length_read_le c cs)
        exact word c cs hb (ih _ hlt _ rfl)

theorem wordsOf_space (cs : List Char) : wordsOf (' ' :: cs) = wordsOf cs :=
  wordsOf_blank (by decide) cs

theorem wordsOf_sign (op : Operator) (cs : List Char) :
    wordsOf (op.symbol :: cs) = .sign op :: wordsOf cs := by
  cases op <;> exact wordsOf_cons (by decide) cs

theorem wordsOf_opening (cs : List Char) : wordsOf ('(' :: cs) = .opening :: wordsOf cs :=
  wordsOf_cons (by decide) cs

theorem wordsOf_closing (cs : List Char) : wordsOf (')' :: cs) = .closing :: wordsOf cs :=
  wordsOf_cons (by decide) cs

theorem wordsOf_comma (cs : List Char) : wordsOf (',' :: cs) = .comma :: wordsOf cs :=
  wordsOf_cons (by decide) cs

theorem not_isBlankChar_of_isDigit {c : Char} (h : c.isDigit) : ¬isBlankChar c := by
  have hd : 48 ≤ c.toNat ∧ c.toNat ≤ 57 := Char.isDigit_iff_toNat.mp h
  simp only [isBlankChar, blankRanges, List.any_cons, List.any_nil, Bool.or_eq_true,
    Bool.and_eq_true, decide_eq_true_eq, Bool.false_eq_true, or_false]
  omega

theorem isIdentifierChar_iff {c : Char} : isIdentifierChar c ↔
    (65 ≤ c.toNat ∧ c.toNat ≤ 90) ∨ (97 ≤ c.toNat ∧ c.toNat ≤ 122) ∨ c.toNat = 95 := by
  have hu : c = '_' ↔ c.toNat = 95 := by
    rw [← Char.toNat_inj]
    exact Iff.rfl
  have ha : c.isUpper ↔ 65 ≤ c.toNat ∧ c.toNat ≤ 90 := by
    simp [Char.isUpper, UInt32.le_iff_toNat_le]
  have hl : c.isLower ↔ 97 ≤ c.toNat ∧ c.toNat ≤ 122 := by
    simp [Char.isLower, UInt32.le_iff_toNat_le]
  rw [isIdentifierChar, Char.isAlpha, Bool.or_eq_true, Bool.or_eq_true, ha, hl, beq_iff_eq, hu]
  exact or_assoc

theorem not_isBlankChar_of_isIdentifierChar {c : Char} (h : isIdentifierChar c) :
    ¬isBlankChar c := by
  have hc := isIdentifierChar_iff.mp h
  simp only [isBlankChar, blankRanges, List.any_cons, List.any_nil, Bool.or_eq_true,
    Bool.and_eq_true, decide_eq_true_eq, Bool.false_eq_true, or_false]
  omega

theorem not_isDigit_of_isIdentifierChar {c : Char} (h : isIdentifierChar c) : ¬c.isDigit := by
  intro hd
  have hc := isIdentifierChar_iff.mp h
  have hr : 48 ≤ c.toNat ∧ c.toNat ≤ 57 := Char.isDigit_iff_toNat.mp hd
  omega

theorem ne_point_of_isIdentifierChar {c : Char} (h : isIdentifierChar c) : c ≠ '.' := by
  rintro rfl
  revert h
  decide

theorem takeWhile_run {p : Char → Bool} {run rest : List Char} (hrun : ∀ c ∈ run, p c)
    (hrest : ∀ c ∈ rest.head?, p c = false) : (run ++ rest).takeWhile p = run := by
  rw [List.takeWhile_append_of_pos hrun]
  cases rest with
  | nil => simp
  | cons c cs => simp [hrest c rfl]

theorem dropWhile_run {p : Char → Bool} {run rest : List Char} (hrun : ∀ c ∈ run, p c)
    (hrest : ∀ c ∈ rest.head?, p c = false) : (run ++ rest).dropWhile p = rest := by
  rw [List.dropWhile_append_of_pos hrun]
  cases rest with
  | nil => rfl
  | cons c cs => rw [List.dropWhile_cons_of_neg (by simp [hrest c rfl])]

theorem not_of_mem_head?_dropWhile {p : Char → Bool} {cs : List Char} {c : Char}
    (h : c ∈ (cs.dropWhile p).head?) : p c = false := by
  have hd := List.head?_dropWhile_not p cs
  rw [h] at hd
  exact hd

theorem EndsWord.not_isIdentifierChar {rest : List Char} (h : EndsWord rest) :
    ∀ c ∈ rest.head?, isIdentifierChar c = false := by
  intro c hc
  have hn := h c hc
  simp only [continuesWord, Bool.or_eq_false_iff] at hn
  exact hn.2

theorem EndsWord.not_isDigit {rest : List Char} (h : EndsWord rest) :
    ∀ c ∈ rest.head?, c.isDigit = false := by
  intro c hc
  have hn := h c hc
  simp only [continuesWord, Bool.or_eq_false_iff] at hn
  exact hn.1.1

theorem EndsWord.head?_ne_point {rest : List Char} (h : EndsWord rest) : rest.head? ≠ some '.' := by
  intro hp
  have hn := h '.' hp
  exact absurd hn (by decide)

theorem read_identifier {c : Char} (h : isIdentifierChar c) (cs : List Char) :
    Lexeme.read c cs =
      (.name (String.ofList (c :: cs.takeWhile isIdentifierChar)),
        cs.dropWhile isIdentifierChar) := by
  have hp := ne_point_of_isIdentifierChar h
  rw [Lexeme.read, if_neg (not_isDigit_of_isIdentifierChar h), if_neg (fun h => hp h.1), if_pos h]

theorem Lexeme.Reads.read_eq {c : Char} {cs rest : List Char} {word : Lexeme}
    (h : Lexeme.Reads c cs word rest) : Lexeme.read c cs = (word, rest) := by
  cases h with
  | integer hc hrest =>
    rw [Lexeme.read, if_pos hc]
    split
    next rest h =>
      rw [h] at hrest
      exact absurd rfl hrest
    next => rfl
  | decimal hc hrest =>
    rw [Lexeme.read, if_pos hc]
    simp only [hrest]
  | fraction hc hcs =>
    rw [Lexeme.read, if_neg (by simp [hc]), if_pos ⟨hc, by simpa using hcs⟩]
  | name hc => exact read_identifier hc cs
  | @sign op hc =>
    subst hc
    cases op <;> rfl
  | opening hc | closing hc | comma hc =>
    subst hc
    rfl
  | unknown hdigit hletter hsign hmark hpoint =>
    have hno : ¬(c = '.' ∧ (cs.takeWhile Char.isDigit).isEmpty = false) := by
      rintro ⟨hc, hcs⟩
      simp [hpoint hc] at hcs
    simp only [List.mem_cons, List.not_mem_nil, or_false, not_or] at hmark
    rw [Lexeme.read, if_neg (by simp [hdigit]), if_neg hno, if_neg (by simp [hletter])]
    simp [hsign, hmark]

theorem wordsOf_name {name : String} (hn : IsIdentifier name) {rest : List Char}
    (hr : EndsWord rest) : wordsOf (name.toList ++ rest) = .name name :: wordsOf rest := by
  obtain ⟨hne, hall⟩ := hn
  obtain ⟨c, cs, hcs⟩ := List.exists_cons_of_ne_nil hne
  rw [hcs] at hall
  have hc := hall c (by simp)
  have hrun : ∀ d ∈ cs, isIdentifierChar d := fun d hd => hall d (by simp [hd])
  have hread : Lexeme.read c (cs ++ rest) = (.name name, rest) := by
    rw [read_identifier hc, takeWhile_run hrun hr.not_isIdentifierChar,
      dropWhile_run hrun hr.not_isIdentifierChar, ← hcs, String.ofList_toList]
  rw [hcs, List.cons_append, wordsOf_cons (not_isBlankChar_of_isIdentifierChar hc), hread]

theorem wordsOf_identifier {name : String} (hn : IsIdentifier name) :
    wordsOf name.toList = [.name name] := by
  have hword := wordsOf_name hn endsWord_nil
  rwa [List.append_nil, wordsOf_nil] at hword

theorem read_numeral {whole : List Char} {fraction : Option (List Char)}
    (hn : IsNumeral whole fraction) {rest : List Char} (hr : EndsWord rest) :
    ∃ c cs, (Lexeme.number whole fraction).spelling.toList ++ rest = c :: cs ∧ c.isDigit ∧
      Lexeme.read c cs = (.number whole fraction, rest) := by
  obtain ⟨hne, hall, hfrac⟩ := hn
  obtain ⟨c, cs, rfl⟩ := List.exists_cons_of_ne_nil hne
  have hc := hall c (by simp)
  have hrun : ∀ d ∈ cs, d.isDigit := fun d hd => hall d (by simp [hd])
  cases fraction with
  | none =>
    refine ⟨c, cs ++ rest, by simp [Lexeme.spelling], hc, ?_⟩
    rw [Lexeme.read, if_pos hc, takeWhile_run hrun hr.not_isDigit,
      dropWhile_run hrun hr.not_isDigit]
    split
    next => exact absurd rfl hr.head?_ne_point
    next => rfl
  | some ds =>
    rw [Option.getD_some] at hfrac
    have hpoint : ∀ d ∈ ('.' :: ds ++ rest).head?, d.isDigit = false := by
      intro d hd
      obtain rfl := Option.some.inj hd
      decide
    refine ⟨c, cs ++ ('.' :: ds ++ rest), by simp [Lexeme.spelling], hc, ?_⟩
    rw [Lexeme.read, if_pos hc, takeWhile_run hrun hpoint, dropWhile_run hrun hpoint,
      List.cons_append]
    change (Lexeme.number _ (some ((ds ++ rest).takeWhile _)), (ds ++ rest).dropWhile _) = _
    rw [takeWhile_run hfrac hr.not_isDigit, dropWhile_run hfrac hr.not_isDigit]

theorem wordsOf_numeral {whole : List Char} {fraction : Option (List Char)}
    (hn : IsNumeral whole fraction) {rest : List Char} (hr : EndsWord rest) :
    wordsOf ((Lexeme.number whole fraction).spelling.toList ++ rest) =
      .number whole fraction :: wordsOf rest := by
  obtain ⟨c, cs, htext, hc, hread⟩ := read_numeral hn hr
  rw [htext, wordsOf_cons (not_isBlankChar_of_isDigit hc), hread]

theorem wordsOf_spelling {whole : List Char} {fraction : Option (List Char)}
    (hn : IsNumeral whole fraction) :
    wordsOf (Lexeme.number whole fraction).spelling.toList = [.number whole fraction] := by
  have hword := wordsOf_numeral hn endsWord_nil
  rwa [List.append_nil, wordsOf_nil] at hword

theorem isIdentifier_of_read {c : Char} {cs rest : List Char} {name : String}
    (h : Lexeme.read c cs = (.name name, rest)) : IsIdentifier name := by
  have hreads := Lexeme.reads_read c cs
  rw [h] at hreads
  cases hreads with
  | name hc =>
    refine ⟨by simp, fun d hd => ?_⟩
    rw [String.toList_ofList] at hd
    rcases List.mem_cons.mp hd with rfl | hd
    · exact hc
    · exact List.all_eq_true.mp List.all_takeWhile d hd

theorem isIdentifier_of_mem_wordsOf {name : String} {cs : List Char}
    (h : .name name ∈ wordsOf cs) : IsIdentifier name := by
  induction cs using words_induction with
  | nil => simp at h
  | blank c cs hb ih =>
    rw [wordsOf_blank hb] at h
    exact ih h
  | word c cs hb ih =>
    rw [wordsOf_cons hb] at h
    rcases List.mem_cons.mp h with hw | hw
    · exact isIdentifier_of_read (Prod.ext hw.symm rfl)
    · exact ih hw

section

variable {c : Char} {cs rest tail : List Char} {word : Lexeme}

theorem takeWhile_append_of_head? {p : Char → Bool} (cs : List Char)
    (h : ∀ d ∈ tail.head?, p d = false) :
    (cs ++ tail).takeWhile p = cs.takeWhile p := by
  have htail : tail.takeWhile p = [] := by
    cases tail with
    | nil => rfl
    | cons d ds => simp [h d rfl]
  induction cs with
  | nil => exact htail
  | cons c cs ih => rw [List.cons_append, List.takeWhile_cons, List.takeWhile_cons, ih]

theorem dropWhile_append_of_head? {p : Char → Bool} (cs : List Char)
    (h : ∀ d ∈ tail.head?, p d = false) :
    (cs ++ tail).dropWhile p = cs.dropWhile p ++ tail := by
  have htail : tail.dropWhile p = tail := by
    cases tail with
    | nil => rfl
    | cons d ds => simp [h d rfl]
  induction cs with
  | nil => exact htail
  | cons c cs ih =>
    rw [List.cons_append, List.dropWhile_cons, List.dropWhile_cons, ih]
    split <;> rfl

theorem Lexeme.Reads.append (h : Lexeme.Reads c cs word rest) (ht : EndsWord tail) :
    Lexeme.Reads c (cs ++ tail) word (rest ++ tail) := by
  have htake := takeWhile_append_of_head? cs ht.not_isDigit
  have hdrop (ds : List Char) := dropWhile_append_of_head? ds ht.not_isDigit
  cases h with
  | integer hc hrest =>
    rw [← htake, ← hdrop]
    refine .integer hc ?_
    rw [hdrop, List.head?_append]
    cases hd : (cs.dropWhile Char.isDigit).head? with
    | none => exact ht.head?_ne_point
    | some d => rwa [hd] at hrest
  | @decimal rest hc hrest =>
    rw [← htake, ← hdrop, ← takeWhile_append_of_head? rest ht.not_isDigit]
    refine .decimal hc ?_
    rw [hdrop, hrest, List.cons_append]
  | fraction hc hcs =>
    rw [← htake] at hcs ⊢
    rw [← hdrop]
    exact .fraction hc hcs
  | name hc =>
    have hletters := ht.not_isIdentifierChar
    rw [← takeWhile_append_of_head? cs hletters, ← dropWhile_append_of_head? cs hletters]
    exact .name hc
  | sign hc => exact .sign hc
  | opening hc => exact .opening hc
  | closing hc => exact .closing hc
  | comma hc => exact .comma hc
  | unknown hdigit hletter hsign hmark hpoint =>
    refine .unknown hdigit hletter hsign hmark fun hc => ?_
    rw [htake, hpoint hc]

theorem read_append (c : Char) (cs : List Char) (ht : EndsWord tail) :
    Lexeme.read c (cs ++ tail) = ((Lexeme.read c cs).1, (Lexeme.read c cs).2 ++ tail) :=
  ((Lexeme.reads_read c cs).append ht).read_eq

/-- Where a text cannot go on with the last word of the one before, each has its own tokens. -/
theorem tokensFrom_append (position : Nat) (cs : List Char) (ht : EndsWord tail) :
    tokensFrom position (cs ++ tail) =
      tokensFrom position cs ++ tokensFrom (position + String.utf8Len cs) tail := by
  induction cs using words_induction generalizing position with
  | nil => simp [tokensFrom]
  | blank c cs hb ih =>
    rw [List.cons_append, tokensFrom, if_pos hb, ih, tokensFrom, if_pos hb, String.utf8Len_cons]
    congr 2
    omega
  | word c cs hb ih =>
    have hlen := congrArg String.utf8Len (Lexeme.spelling_read c cs)
    rw [String.utf8Len_append, String.utf8Len_toList] at hlen
    rw [List.cons_append, tokensFrom, if_neg hb, read_append c cs ht, tokensFrom, if_neg hb,
      ← hlen]
    dsimp only
    rw [ih, Nat.add_assoc, List.cons_append]

theorem wordsOf_append (cs : List Char) (ht : EndsWord tail) :
    wordsOf (cs ++ tail) = wordsOf cs ++ wordsOf tail := by
  rw [wordsOf, tokensFrom_append 0 cs ht, List.map_append]
  exact congrArg _ (lexemes_tokensFrom _ _ tail)

end

end BlendPlot
