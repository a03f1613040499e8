import BlendPlot.Proofs.Names

namespace BlendPlot

open String (utf8Len)

/-- Digits with at most one point among them, and at least one digit. -/
def IsLiteral (cs : List Char) : Prop :=
  (∀ c ∈ cs, c.isDigit ∨ c = '.') ∧ cs.count '.' ≤ 1 ∧ ∃ c ∈ cs, c.isDigit

/-- The word could not be longer between these characters. -/
def Lexeme.Whole (before after : List Char) : Lexeme → Prop
  | name letters =>
    letters.toList ≠ [] ∧ (∀ c ∈ letters.toList, isIdentifierChar c) ∧
      (∀ c ∈ before.getLast?, isIdentifierChar c = false) ∧
      ∀ c ∈ after.head?, isIdentifierChar c = false
  | number whole fraction =>
    IsLiteral (number whole fraction).spelling.toList ∧
      (∃ value, (number whole fraction).value? = some value) ∧
      ∀ c ∈ after.head?, ¬IsLiteral ((number whole fraction).spelling.toList ++ [c])
  | unknown c =>
    (unknown c).spelling.length = 1 ∧ c.isDigit = false ∧ isIdentifierChar c = false ∧
      Operator.ofSymbol? c = none ∧ c ∉ ['(', ')', ','] ∧
      (c = '.' → ∀ d ∈ after.head?, d.isDigit = false)
  | sign op => (sign op).spelling.length = 1
  | opening => opening.spelling.length = 1
  | closing => closing.spelling.length = 1
  | comma => comma.spelling.length = 1

/-- No identifier goes on across the border. -/
def Apart (before after : List Char) : Prop :=
  ∀ c ∈ before.getLast?, ∀ d ∈ after.head?, isIdentifierChar c → isIdentifierChar d = false

theorem isDigit_takeWhile (cs : List Char) : ∀ c ∈ cs.takeWhile Char.isDigit, c.isDigit :=
  List.all_eq_true.mp List.all_takeWhile

theorem count_point_of_digits {cs : List Char} (h : ∀ c ∈ cs, c.isDigit) : cs.count '.' = 0 :=
  List.count_eq_zero.mpr fun hp => absurd (h _ hp) (by decide)

theorem isLiteral_integer {cs : List Char} (hne : cs ≠ []) (h : ∀ c ∈ cs, c.isDigit) :
    IsLiteral cs := by
  obtain ⟨c, hc⟩ := List.exists_mem_of_ne_nil cs hne
  exact ⟨fun d hd => Or.inl (h d hd), by simp [count_point_of_digits h], c, hc, h c hc⟩

theorem isLiteral_decimal {cs ds : List Char} (hne : cs ++ ds ≠ []) (hc : ∀ c ∈ cs, c.isDigit)
    (hd : ∀ d ∈ ds, d.isDigit) : IsLiteral (cs ++ '.' :: ds) := by
  obtain ⟨e, he⟩ := List.exists_mem_of_ne_nil _ hne
  refine ⟨fun d hmem => ?_, ?_, e, ?_, ?_⟩
  · rcases List.mem_append.mp hmem with hmem | hmem
    · exact Or.inl (hc d hmem)
    · rcases List.mem_cons.mp hmem with rfl | hmem
      · exact Or.inr rfl
      · exact Or.inl (hd d hmem)
  · simp [count_point_of_digits hc, count_point_of_digits hd]
  · rcases List.mem_append.mp he with he | he
    · exact List.mem_append_left _ he
    · exact List.mem_append_right _ (List.mem_cons_of_mem _ he)
  · rcases List.mem_append.mp he with he | he
    · exact hc e he
    · exact hd e he

theorem IsLiteral.eq_point {cs : List Char} {d : Char} (h : IsLiteral (cs ++ [d]))
    (hd : d.isDigit = false) : d = '.' ∧ '.' ∉ cs := by
  obtain ⟨hall, hcount, -⟩ := h
  have hpoint : d = '.' := (hall d (by simp)).resolve_left (by simp [hd])
  subst hpoint
  refine ⟨rfl, fun hmem => ?_⟩
  have hpos := List.count_pos_iff.mpr hmem
  rw [List.count_append, List.count_singleton_self] at hcount
  omega

namespace Lexeme.Reads

variable {c : Char} {cs rest : List Char} {word : Lexeme}

theorem spelling_ne_nil (h : Reads c cs word rest) : word.spelling.toList ≠ [] := by
  cases h <;> simp [spelling]

theorem notBlank (h : Reads c cs word rest) (hc : ¬isBlankChar c) :
    ∀ d ∈ word.spelling.toList, ¬isBlankChar d := by
  have digits (ds : List Char) : ∀ d ∈ ds.takeWhile Char.isDigit, ¬isBlankChar d :=
    fun d hd => not_isBlankChar_of_isDigit (isDigit_takeWhile ds d hd)
  cases h with
  | integer => simpa [spelling, hc] using digits cs
  | @decimal rest =>
    intro d hd
    simp only [spelling, String.toList_ofList, List.cons_append, List.mem_cons,
      List.mem_append] at hd
    rcases hd with rfl | hd | rfl | hd
    · exact hc
    · exact digits cs d hd
    · decide
    · exact digits rest d hd
  | fraction =>
    intro d hd
    simp only [spelling, String.toList_ofList, List.nil_append, List.mem_cons] at hd
    rcases hd with rfl | hd
    · decide
    · exact digits cs d hd
  | name =>
    intro d hd
    simp only [spelling, String.toList_ofList, List.mem_cons] at hd
    rcases hd with rfl | hd
    · exact hc
    · exact not_isBlankChar_of_isIdentifierChar (List.all_eq_true.mp List.all_takeWhile d hd)
  | sign hd | opening hd | closing hd | comma hd =>
    subst hd
    simpa [spelling] using hc
  | unknown => simpa [spelling] using hc

theorem whole (h : Reads c cs word rest) {before : List Char} (hapart : Apart before (c :: cs)) :
    word.Whole before rest := by
  have hafter {p : Char → Bool} {ds : List Char} {d : Char} (hd : d ∈ (ds.dropWhile p).head?) :
      p d = false := not_of_mem_head?_dropWhile hd
  cases h with
  | integer hc hrest =>
    have hall : ∀ d ∈ c :: cs.takeWhile Char.isDigit, d.isDigit :=
      List.forall_mem_cons.mpr ⟨hc, isDigit_takeWhile cs⟩
    rw [Whole, spelling, String.toList_ofList]
    refine ⟨isLiteral_integer (by simp) hall, ⟨_, rfl⟩, fun d hd hlong => ?_⟩
    obtain ⟨rfl, -⟩ := hlong.eq_point (hafter hd)
    exact hrest hd
  | @decimal rest hc hrest =>
    have hall : ∀ d ∈ c :: cs.takeWhile Char.isDigit, d.isDigit :=
      List.forall_mem_cons.mpr ⟨hc, isDigit_takeWhile cs⟩
    rw [Whole, spelling, String.toList_ofList]
    refine ⟨isLiteral_decimal (by simp) hall (isDigit_takeWhile rest), ⟨_, rfl⟩, fun d hd hlong => ?_⟩
    exact (hlong.eq_point (hafter hd)).2 (by simp)
  | fraction hc hcs =>
    rw [Whole, spelling, String.toList_ofList]
    refine ⟨isLiteral_decimal (by simpa using hcs) (by simp) (isDigit_takeWhile cs), ⟨_, rfl⟩,
      fun d hd hlong => ?_⟩
    exact (hlong.eq_point (hafter hd)).2 (by simp)
  | name hc =>
    rw [Whole, String.toList_ofList]
    refine ⟨by simp, List.forall_mem_cons.mpr ⟨hc, List.all_eq_true.mp List.all_takeWhile⟩,
      fun d hd => ?_, fun d hd => hafter hd⟩
    by_contra hletter
    have hno := hapart d hd c rfl (by simpa using hletter)
    simp [hc] at hno
  | sign => simp [Whole, spelling]
  | opening | closing | comma => rfl
  | unknown hdigit hletter hsign hmark hpoint =>
    refine ⟨by simp [spelling], hdigit, hletter, hsign, hmark, fun hc d hd => ?_⟩
    by_contra hyes
    obtain ⟨ds, rfl⟩ := List.head?_eq_some_iff.mp hd
    have htake := hpoint hc
    rw [List.takeWhile_cons_of_pos (by simpa using hyes)] at htake
    cases htake

theorem apart (h : Reads c cs word rest) (front : List Char) :
    Apart (front ++ word.spelling.toList) rest := by
  intro d hd e he hletter
  have hmem : d ∈ word.spelling.toList := by
    rw [List.getLast?_append_of_ne_nil _ h.spelling_ne_nil] at hd
    exact List.mem_of_getLast? hd
  by_cases hc : isIdentifierChar c
  · cases h.read_eq.symm.trans (Reads.name hc).read_eq
    exact not_of_mem_head?_dropWhile he
  · have hno := (h.other (by simpa using hc)).2 d hmem
    simp [hno] at hletter

end Lexeme.Reads

theorem exists_reads_of_mem {cs : List Char} {t : Token} (front : List Char)
    (hapart : Apart front cs) (ht : t ∈ tokensFrom (utf8Len front) cs) :
    ∃ before c ds after, front ++ cs = before ++ c :: ds ∧ utf8Len before = t.position ∧
      ¬isBlankChar c ∧ Lexeme.Reads c ds t.lexeme after ∧ Apart before (c :: ds) := by
  induction cs using words_induction generalizing front with
  | nil => simp [tokensFrom] at ht
  | blank c cs hb ih =>
    rw [tokensFrom, if_pos hb] at ht
    have hlen : utf8Len (front ++ [c]) = utf8Len front + c.utf8Size := by simp
    have hnext : Apart (front ++ [c]) cs := by
      intro d hd e he hletter
      obtain rfl : c = d := by simpa using hd
      exact absurd hb (not_isBlankChar_of_isIdentifierChar hletter)
    rw [← hlen] at ht
    obtain ⟨before, d, ds, after, heq, hrest⟩ := ih (front ++ [c]) hnext ht
    exact ⟨before, d, ds, after, by rw [← heq]; simp, hrest⟩
  | word c cs hb ih =>
    rw [tokensFrom, if_neg hb] at ht
    have hreads := Lexeme.reads_read c cs
    rcases List.mem_cons.mp ht with rfl | ht
    · exact ⟨front, c, cs, _, rfl, rfl, hb, hreads, hapart⟩
    · have hlen : utf8Len (front ++ (Lexeme.read c cs).1.spelling.toList) =
          utf8Len front + (Lexeme.read c cs).1.spelling.utf8ByteSize := by simp
      rw [← hlen] at ht
      obtain ⟨before, d, ds, after, heq, hrest⟩ := ih _ (hreads.apart front) ht
      refine ⟨before, d, ds, after, ?_, hrest⟩
      rw [← heq, List.append_assoc, Lexeme.spelling_read]

theorem spelling_pos {c : Char} {cs rest : List Char} {word : Lexeme}
    (h : Lexeme.Reads c cs word rest) : 0 < word.spelling.utf8ByteSize := by
  rw [← String.utf8Len_toList, Nat.pos_iff_ne_zero]
  exact fun h0 => h.spelling_ne_nil (String.utf8Len_eq_zero.mp h0)

theorem le_position_of_mem {cs : List Char} {position : Nat} {t : Token}
    (ht : t ∈ tokensFrom position cs) : position ≤ t.position := by
  induction cs using words_induction generalizing position with
  | nil => simp [tokensFrom] at ht
  | blank c cs hb ih =>
    rw [tokensFrom, if_pos hb] at ht
    have hle := ih ht
    omega
  | word c cs hb ih =>
    rw [tokensFrom, if_neg hb] at ht
    rcases List.mem_cons.mp ht with rfl | ht
    · exact Nat.le_refl _
    · have hle := ih ht
      omega

/-- The end of a token is not behind the beginning of the next. -/
theorem tokensFrom_ordered (position : Nat) (cs : List Char) :
    (tokensFrom position cs).Pairwise fun t u =>
      t.position < u.position ∧ t.position + t.lexeme.spelling.utf8ByteSize ≤ u.position := by
  induction cs using words_induction generalizing position with
  | nil => simp [tokensFrom]
  | blank c cs hb ih =>
    rw [tokensFrom, if_pos hb]
    exact ih _
  | word c cs hb ih =>
    rw [tokensFrom, if_neg hb]
    refine List.pairwise_cons.mpr ⟨fun u hu => ?_, ih _⟩
    have hle := le_position_of_mem hu
    have hpos := spelling_pos (Lexeme.reads_read c cs)
    dsimp only
    omega

theorem exists_token_at {cs before after : List Char} {c : Char} (position : Nat)
    (heq : cs = before ++ c :: after) (hc : ¬isBlankChar c) :
    ∃ t ∈ tokensFrom position cs, t.position ≤ position + utf8Len before ∧
      position + utf8Len before < t.position + t.lexeme.spelling.utf8ByteSize := by
  induction cs using words_induction generalizing position before with
  | nil => simp at heq
  | blank d ds hb ih =>
    rw [tokensFrom, if_pos hb]
    cases before with
    | nil =>
      cases heq
      exact absurd hb hc
    | cons e before =>
      cases heq
      obtain ⟨t, ht, hle, hlt⟩ := ih (position + d.utf8Size) rfl
      rw [String.utf8Len_cons]
      exact ⟨t, ht, by omega, by omega⟩
  | word d ds hb ih =>
    rw [tokensFrom, if_neg hb]
    have hlen := String.utf8Len_toList (s := (Lexeme.read d ds).1.spelling)
    rw [← Lexeme.spelling_read d ds] at heq
    -- the character is in the word or behind it
    rcases List.append_eq_append_iff.mp heq with ⟨mid, rfl, hrest⟩ | ⟨mid, hword, hrest⟩
    · obtain ⟨t, ht, hle, hlt⟩ := ih (position + (Lexeme.read d ds).1.spelling.utf8ByteSize) hrest
      rw [String.utf8Len_append]
      exact ⟨t, List.mem_cons_of_mem _ ht, by omega, by omega⟩
    · cases mid with
      | nil =>
        have hfirst : (Lexeme.read d ds).2 = [] ++ c :: after := hrest.symm
        obtain ⟨t, ht, hle, hlt⟩ := ih (position + (Lexeme.read d ds).1.spelling.utf8ByteSize) hfirst
        rw [hword, List.append_nil] at hlen
        rw [String.utf8Len_nil] at hle hlt
        exact ⟨t, List.mem_cons_of_mem _ ht, by omega, by omega⟩
      | cons e mid =>
        rw [hword, String.utf8Len_append, String.utf8Len_cons] at hlen
        have hpos := e.utf8Size_pos
        exact ⟨_, List.mem_cons_self, Nat.le_add_right _ _, by dsimp only; omega⟩

theorem tokensFrom_eq_nil_iff (position : Nat) (cs : List Char) :
    tokensFrom position cs = [] ↔ cs.all isBlankChar := by
  induction cs using words_induction generalizing position with
  | nil => simp [tokensFrom]
  | blank c cs hb ih =>
    rw [tokensFrom, if_pos hb, ih]
    simp [hb]
  | word c cs hb ih =>
    rw [tokensFrom, if_neg hb]
    simp [hb]

namespace Cursor

/-- Taking token after token from `p` until there is none gives `ts` and ends at `q`. -/
inductive Yields : Cursor → List Token → Cursor → Prop where
  | done {p q : Cursor} (h : p.next = (none, q)) : Yields p [] q
  | token {p q r : Cursor} {t : Token} {ts : List Token} (h : p.next = (some t, q))
      (hq : Yields q ts r) : Yields p (t :: ts) r

theorem next_blank {c : Char} (hb : isBlankChar c) (position : Nat) (cs : List Char) :
    next ⟨position, c :: cs⟩ = next ⟨position + c.utf8Size, cs⟩ := by
  unfold next
  rw [pastBlanks, if_pos hb]

theorem next_word {c : Char} (hb : ¬isBlankChar c) (position : Nat) (cs : List Char) :
    next ⟨position, c :: cs⟩ =
      (some ⟨(Lexeme.read c cs).1, position⟩,
        ⟨position + (Lexeme.read c cs).1.spelling.utf8ByteSize, (Lexeme.read c cs).2⟩) := by
  unfold next
  rw [pastBlanks, if_neg hb]

theorem Yields.of_next_eq {p q r : Cursor} {ts : List Token} (h : p.Yields ts r)
    (hnext : q.next = p.next) : q.Yields ts r := by
  cases h with
  | done h => exact .done (hnext.trans h)
  | token h hrest => exact .token (hnext.trans h) hrest

theorem yields_tokensFrom (position : Nat) (cs : List Char) :
    Yields ⟨position, cs⟩ (tokensFrom position cs) ⟨position + utf8Len cs, []⟩ := by
  induction cs using words_induction generalizing position with
  | nil =>
    rw [tokensFrom]
    exact .done rfl
  | blank c cs hb ih =>
    have hlen : position + c.utf8Size + utf8Len cs = position + utf8Len (c :: cs) := by
      rw [String.utf8Len_cons]
      omega
    rw [tokensFrom, if_pos hb, ← hlen]
    exact (ih (position + c.utf8Size)).of_next_eq (next_blank hb position cs)
  | word c cs hb ih =>
    have hlen := congrArg utf8Len (Lexeme.spelling_read c cs)
    rw [String.utf8Len_append, String.utf8Len_toList] at hlen
    rw [tokensFrom, if_neg hb, ← hlen, ← Nat.add_assoc]
    exact .token (next_word hb position cs) (ih _)

end Cursor

/-- Tokens stand one after another, each as long as it can be, with only blanks between them. -/
theorem tokens_cover (text : String) :
    Cursor.Yields ⟨0, text.toList⟩ (tokens text) ⟨text.utf8ByteSize, []⟩ ∧
      ((tokens text).Pairwise fun t u =>
        t.position < u.position ∧ t.position + t.lexeme.spelling.utf8ByteSize ≤ u.position) ∧
      (∀ t ∈ tokens text, (∀ c ∈ t.lexeme.spelling.toList, ¬isBlankChar c) ∧
        ∃ before after : String, text = before ++ t.lexeme.spelling ++ after ∧
          before.utf8ByteSize = t.position ∧ t.lexeme.Whole before.toList after.toList) ∧
      (∀ (before after : String) (c : Char), text = before ++ c.toString ++ after →
        isBlankChar c ∨ ∃ t ∈ tokens text, t.position ≤ before.utf8ByteSize ∧
          before.utf8ByteSize < t.position + t.lexeme.spelling.utf8ByteSize) ∧
      (isBlank text ↔ tokens text = []) := by
  refine ⟨?_, tokensFrom_ordered 0 text.toList, ?_, ?_, (tokensFrom_eq_nil_iff 0 text.toList).symm⟩
  · have h := Cursor.yields_tokensFrom 0 text.toList
    rwa [String.utf8Len_toList, Nat.zero_add] at h
  · intro t ht
    obtain ⟨before, c, cs, after, htext, hposition, hb, hreads, hapart⟩ :=
      exists_reads_of_mem [] (by simp [Apart]) ht
    refine ⟨hreads.notBlank hb, String.ofList before, String.ofList after, ?_, ?_, ?_⟩
    · rw [← String.toList_inj]
      simpa [← hreads.spelling_append] using htext
    · rw [String.utf8ByteSize_ofList, hposition]
    · simpa using hreads.whole hapart
  · intro before after c htext
    by_cases hb : isBlankChar c
    · exact Or.inl hb
    · have hlist : text.toList = before.toList ++ c :: after.toList := by simp [htext]
      obtain ⟨t, ht, hle, hlt⟩ := exists_token_at 0 hlist hb
      rw [String.utf8Len_toList, Nat.zero_add] at hle hlt
      exact Or.inr ⟨t, ht, hle, hlt⟩

end BlendPlot
