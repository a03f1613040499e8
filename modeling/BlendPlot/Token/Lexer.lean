import BlendPlot.Text.Blank
import BlendPlot.Text.Identifier
import BlendPlot.Token

namespace BlendPlot

/-- The lexeme that begins with `c`, which is not blank, and the characters after it. -/
def Lexeme.read (c : Char) (cs : List Char) : Lexeme × List Char :=
  if c.isDigit then
    let whole := c :: cs.takeWhile Char.isDigit
    match cs.dropWhile Char.isDigit with
    | '.' :: rest =>
      (.number whole (some (rest.takeWhile Char.isDigit)), rest.dropWhile Char.isDigit)
    | rest => (.number whole none, rest)
  else if c = '.' ∧ (cs.takeWhile Char.isDigit).isEmpty = false then
    (.number [] (some (cs.takeWhile Char.isDigit)), cs.dropWhile Char.isDigit)
  else if isIdentifierChar c then
    (.name (String.ofList (c :: cs.takeWhile isIdentifierChar)), cs.dropWhile isIdentifierChar)
  else
    match Operator.ofSymbol? c with
    | some op => (.sign op, cs)
    | none =>
      if c = '(' then (.opening, cs)
      else if c = ')' then (.closing, cs)
      else if c = ',' then (.comma, cs)
      else (.unknown c, cs)

/-- `Reads c cs word rest`: the word that begins with `c` and goes on in `cs` leaves `rest`. -/
inductive Lexeme.Reads (c : Char) (cs : List Char) : Lexeme → List Char → Prop where
  | integer (hc : c.isDigit) (hrest : (cs.dropWhile Char.isDigit).head? ≠ some '.') :
      Reads c cs (.number (c :: cs.takeWhile Char.isDigit) none) (cs.dropWhile Char.isDigit)
  | decimal {rest : List Char} (hc : c.isDigit) (hrest : cs.dropWhile Char.isDigit = '.' :: rest) :
      Reads c cs (.number (c :: cs.takeWhile Char.isDigit) (some (rest.takeWhile Char.isDigit)))
        (rest.dropWhile Char.isDigit)
  | fraction (hc : c = '.') (hcs : cs.takeWhile Char.isDigit ≠ []) :
      Reads c cs (.number [] (some (cs.takeWhile Char.isDigit))) (cs.dropWhile Char.isDigit)
  | name (hc : isIdentifierChar c) :
      Reads c cs (.name (String.ofList (c :: cs.takeWhile isIdentifierChar)))
        (cs.dropWhile isIdentifierChar)
  | sign {op : Operator} (hc : op.symbol = c) : Reads c cs (.sign op) cs
  | opening (hc : c = '(') : Reads c cs .opening cs
  | closing (hc : c = ')') : Reads c cs .closing cs
  | comma (hc : c = ',') : Reads c cs .comma cs
  | unknown (hdigit : c.isDigit = false) (hletter : isIdentifierChar c = false)
      (hsign : Operator.ofSymbol? c = none) (hmark : c ∉ ['(', ')', ','])
      (hpoint : c = '.' → cs.takeWhile Char.isDigit = []) : Reads c cs (.unknown c) cs

namespace Lexeme

theorem reads_read (c : Char) (cs : List Char) : Reads c cs (read c cs).1 (read c cs).2 := by
  unfold read
  split
  next hdigit =>
    split
    next rest hrest => exact .decimal hdigit hrest
    next hno =>
      refine .integer hdigit fun hpoint => ?_
      obtain ⟨rest, hrest⟩ := List.head?_eq_some_iff.mp hpoint
      exact hno rest hrest
  next hdigit =>
    split
    next hpoint => exact .fraction hpoint.1 (by simpa using hpoint.2)
    next hpoint =>
      split
      next hletter => exact .name hletter
      next hletter =>
        split
        next op hop => exact .sign (Operator.symbol_of_ofSymbol? hop)
        next hop =>
          split
          next ho => exact .opening ho
          next ho =>
            split
            next hc => exact .closing hc
            next hc =>
              split
              next hm => exact .comma hm
              next hm =>
                refine .unknown (by simpa using hdigit) (by simpa using hletter) hop ?_ fun h => ?_
                · simp [ho, hc, hm]
                · simpa [h] using hpoint

variable {c : Char} {cs rest : List Char} {word : Lexeme}

theorem Reads.length_le (h : Reads c cs word rest) : rest.length ≤ cs.length := by
  have hdrop (p : Char → Bool) (ds : List Char) : (ds.dropWhile p).length ≤ ds.length :=
    (List.dropWhile_suffix p).length_le
  cases h with
  | integer | fraction | name => exact hdrop _ cs
  | @decimal rest _ hrest =>
    have hlt := hdrop Char.isDigit cs
    rw [hrest, List.length_cons] at hlt
    exact Nat.le_trans (hdrop _ rest) (Nat.le_of_succ_le hlt)
  | sign | opening | closing | comma | unknown => exact Nat.le_refl _

theorem Reads.spelling_append (h : Reads c cs word rest) :
    word.spelling.toList ++ rest = c :: cs := by
  have hdigits := List.takeWhile_append_dropWhile (p := Char.isDigit) (l := cs)
  cases h with
  | integer | name => simp [spelling]
  | decimal _ hrest =>
    rw [hrest] at hdigits
    simp [spelling, hdigits]
  | fraction hc => simp [spelling, hc]
  | sign hc | opening hc | closing hc | comma hc => simp [spelling, hc]
  | unknown => simp [spelling]

theorem length_read_le (c : Char) (cs : List Char) : (read c cs).2.length ≤ cs.length :=
  (reads_read c cs).length_le

theorem spelling_read (c : Char) (cs : List Char) :
    (read c cs).1.spelling.toList ++ (read c cs).2 = c :: cs :=
  (reads_read c cs).spelling_append

end Lexeme

/-- A place in a text: the number of bytes before it and the characters after it. -/
structure Cursor where
  position : Nat
  rest : List Char

namespace Cursor

def pastBlanks (position : Nat) : List Char → Cursor
  | [] => ⟨position, []⟩
  | c :: cs => if isBlankChar c then pastBlanks (position + c.utf8Size) cs else ⟨position, c :: cs⟩

/-- The next token, if there is one more, and the place after it. -/
def next (p : Cursor) : Option Token × Cursor :=
  match pastBlanks p.position p.rest with
  | ⟨position, []⟩ => (none, ⟨position, []⟩)
  | ⟨position, c :: cs⟩ =>
    let lexeme := (Lexeme.read c cs).1
    (some ⟨lexeme, position⟩, ⟨position + lexeme.spelling.utf8ByteSize, (Lexeme.read c cs).2⟩)

end Cursor

/-- The tokens of the characters that follow the first `position` bytes of a text. -/
def tokensFrom (position : Nat) : List Char → List Token
  | [] => []
  | c :: cs =>
    if isBlankChar c then tokensFrom (position + c.utf8Size) cs
    else
      let lexeme := (Lexeme.read c cs).1
      ⟨lexeme, position⟩ ::
        tokensFrom (position + lexeme.spelling.utf8ByteSize) (Lexeme.read c cs).2
termination_by cs => cs.length
decreasing_by
  · exact Nat.lt_succ_self _
  · exact Nat.lt_succ_of_le (Lexeme.length_read_le c cs)

def tokens (text : String) : List Token :=
  tokensFrom 0 text.toList

end BlendPlot
