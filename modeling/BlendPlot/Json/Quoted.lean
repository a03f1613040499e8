namespace BlendPlot.Json

def escape (c : Char) : List Char :=
  if c = '"' then ['\\', '"']
  else if c = '\\' then ['\\', '\\']
  else if c = '\x08' then ['\\', 'b']
  else if c = '\x0c' then ['\\', 'f']
  else if c = '\n' then ['\\', 'n']
  else if c = '\r' then ['\\', 'r']
  else if c = '\t' then ['\\', 't']
  else if c.toNat < 0x20 then
    ['\\', 'u', '0', '0', Nat.digitChar (c.toNat / 16), Nat.digitChar (c.toNat % 16)]
  else [c]

def quote (text : String) : String :=
  String.ofList ('"' :: text.toList.flatMap escape ++ ['"'])

def hexDigit? (c : Char) : Option Nat :=
  if c.isDigit then some (c.toNat - '0'.toNat)
  else if 'a' ≤ c ∧ c ≤ 'f' then some (c.toNat - 'a'.toNat + 10)
  else if 'A' ≤ c ∧ c ≤ 'F' then some (c.toNat - 'A'.toNat + 10)
  else none

def hex4 : List Char → Option (Nat × List Char)
  | a :: b :: c :: d :: cs => do
    let a ← hexDigit? a
    let b ← hexDigit? b
    let c ← hexDigit? c
    let d ← hexDigit? d
    return (16 * (16 * (16 * a + b) + c) + d, cs)
  | _ => none

def shortEscape? : Char → Option Char
  | '"' => some '"'
  | '\\' => some '\\'
  | '/' => some '/'
  | 'b' => some '\x08'
  | 'f' => some '\x0c'
  | 'n' => some '\n'
  | 'r' => some '\r'
  | 't' => some '\t'
  | _ => none

/-- Reads the second half of a surrogate pair that begins with `high`. -/
def surrogateTail (high : Nat) : List Char → Option (Char × List Char)
  | '\\' :: 'u' :: cs => do
    let (low, rest) ← hex4 cs
    if 0xDC00 ≤ low ∧ low ≤ 0xDFFF then
      some (Char.ofNat (0x10000 + (high - 0xD800) * 0x400 + (low - 0xDC00)), rest)
    else none
  | _ => none

def escaped : List Char → Option (Char × List Char)
  | 'u' :: cs => do
    let (unit, rest) ← hex4 cs
    if 0xD800 ≤ unit ∧ unit ≤ 0xDBFF then surrogateTail unit rest
    else if 0xDC00 ≤ unit ∧ unit ≤ 0xDFFF then none
    else some (Char.ofNat unit, rest)
  | c :: cs => (shortEscape? c).map fun d => (d, cs)
  | [] => none

/-- What follows an escape, of whose form alone is taken notice. -/
def escapedForm : List Char → Option (List Char)
  | 'u' :: cs => (hex4 cs).map Prod.snd
  | c :: cs => (shortEscape? c).map fun _ => cs
  | [] => none

theorem hex4_shorter {cs rest : List Char} {n : Nat} (h : hex4 cs = some (n, rest)) :
    rest.length < cs.length := by
  unfold hex4 at h
  split at h
  · obtain ⟨_, _, h⟩ := Option.bind_eq_some_iff.mp h
    obtain ⟨_, _, h⟩ := Option.bind_eq_some_iff.mp h
    obtain ⟨_, _, h⟩ := Option.bind_eq_some_iff.mp h
    obtain ⟨_, _, h⟩ := Option.bind_eq_some_iff.mp h
    cases h
    exact Nat.lt_add_of_pos_right (k := 4) (by decide)
  · cases h

theorem surrogateTail_shorter {high : Nat} {cs rest : List Char} {c : Char}
    (h : surrogateTail high cs = some (c, rest)) : rest.length < cs.length := by
  unfold surrogateTail at h
  split at h
  · obtain ⟨⟨low, more⟩, hl, h⟩ := Option.bind_eq_some_iff.mp h
    dsimp only at h
    split at h
    · obtain ⟨_, rfl⟩ := Prod.mk.inj (Option.some.inj h)
      exact Nat.lt_succ_of_lt (Nat.lt_succ_of_lt (hex4_shorter hl))
    · cases h
  · cases h

theorem escaped_shorter {cs rest : List Char} {c : Char} (h : escaped cs = some (c, rest)) :
    rest.length < cs.length := by
  unfold escaped at h
  split at h
  · obtain ⟨⟨unit, more⟩, hu, h⟩ := Option.bind_eq_some_iff.mp h
    dsimp only at h
    split at h
    · exact Nat.lt_succ_of_lt (Nat.lt_trans (surrogateTail_shorter h) (hex4_shorter hu))
    · split at h <;> cases h
      exact Nat.lt_succ_of_lt (hex4_shorter hu)
  · obtain ⟨_, _, h⟩ := Option.map_eq_some_iff.mp h
    cases h
    exact Nat.lt_succ_self _
  · cases h

theorem escapedForm_shorter {cs rest : List Char} (h : escapedForm cs = some rest) :
    rest.length < cs.length := by
  unfold escapedForm at h
  split at h
  · obtain ⟨_, hu, rfl⟩ := Option.map_eq_some_iff.mp h
    exact Nat.lt_succ_of_lt (hex4_shorter hu)
  · obtain ⟨_, _, rfl⟩ := Option.map_eq_some_iff.mp h
    exact Nat.lt_succ_self _
  · cases h

def quotedChars (cs : List Char) : Option (List Char × List Char) :=
  match cs with
  | [] => none
  | '"' :: rest => some ([], rest)
  | '\\' :: rest =>
    match _h : escaped rest with
    | none => none
    | some (c, rest) => (quotedChars rest).map fun r => (c :: r.1, r.2)
  | c :: rest =>
    if c.toNat < 0x20 then none else (quotedChars rest).map fun r => (c :: r.1, r.2)
termination_by cs.length
decreasing_by
  · exact Nat.lt_succ_of_lt (escaped_shorter (by assumption))
  · exact Nat.lt_succ_self _

def quotedForm (cs : List Char) : Option (List Char) :=
  match cs with
  | [] => none
  | '"' :: rest => some rest
  | '\\' :: rest =>
    match _h : escapedForm rest with
    | none => none
    | some rest => quotedForm rest
  | c :: rest => if c.toNat < 0x20 then none else quotedForm rest
termination_by cs.length
decreasing_by
  · exact Nat.lt_succ_of_lt (escapedForm_shorter (by assumption))
  · exact Nat.lt_succ_self _

def quotedString : List Char → Option (String × List Char)
  | '"' :: cs => (quotedChars cs).map fun r => (String.ofList r.1, r.2)
  | _ => none

theorem quotedChars_shorter {cs rest ds : List Char} (h : quotedChars cs = some (ds, rest)) :
    rest.length < cs.length := by
  fun_induction quotedChars cs generalizing ds rest with
  | case1 => cases h
  | case2 rest' => cases h; exact Nat.lt_succ_self _
  | case3 => cases h
  | case4 rest' c more he ih =>
    obtain ⟨r, hr, h⟩ := Option.map_eq_some_iff.mp h
    cases h
    exact Nat.lt_succ_of_lt (Nat.lt_trans (ih hr) (escaped_shorter he))
  | case5 => cases h
  | case6 c rest' _ _ _ ih =>
    obtain ⟨r, hr, h⟩ := Option.map_eq_some_iff.mp h
    cases h
    exact Nat.lt_succ_of_lt (ih hr)

theorem quotedForm_shorter {cs rest : List Char} (h : quotedForm cs = some rest) :
    rest.length < cs.length := by
  fun_induction quotedForm cs generalizing rest with
  | case1 => cases h
  | case2 rest' => cases h; exact Nat.lt_succ_self _
  | case3 => cases h
  | case4 rest' more he ih =>
    exact Nat.lt_succ_of_lt (Nat.lt_trans (ih h) (escapedForm_shorter he))
  | case5 => cases h
  | case6 c rest' _ _ _ ih => exact Nat.lt_succ_of_lt (ih h)

theorem quotedString_shorter {cs rest : List Char} {s : String}
    (h : quotedString cs = some (s, rest)) : rest.length < cs.length := by
  unfold quotedString at h
  split at h
  · obtain ⟨r, hr, h⟩ := Option.map_eq_some_iff.mp h
    cases h
    exact Nat.lt_succ_of_lt (quotedChars_shorter hr)
  · cases h

theorem quotedChars_of_escaped {cs more : List Char} {c : Char} (h : escaped cs = some (c, more)) :
    quotedChars ('\\' :: cs) = (quotedChars more).map fun r => (c :: r.1, r.2) := by
  rw [quotedChars]
  split <;> simp_all

theorem quotedChars_cons {c : Char} (hq : c ≠ '"') (hb : c ≠ '\\') (hc : ¬c.toNat < 0x20)
    (cs : List Char) :
    quotedChars (c :: cs) = (quotedChars cs).map fun r => (c :: r.1, r.2) := by
  rw [quotedChars.eq_def]
  split
  next h => cases h
  next h => cases h; exact absurd rfl hq
  next h => cases h; exact absurd rfl hb
  next h => cases h; rw [if_neg hc]

theorem hexDigit?_digitChar {n : Nat} (h : n < 16) : hexDigit? n.digitChar = some n := by
  revert n
  decide

theorem escaped_control {c : Char} (hc : c.toNat < 0x20) (cs : List Char) :
    escaped ('u' :: '0' :: '0' :: (c.toNat / 16).digitChar :: (c.toNat % 16).digitChar :: cs) =
      some (c, cs) := by
  have hh := hexDigit?_digitChar (n := c.toNat / 16) (by omega)
  have hl := hexDigit?_digitChar (n := c.toNat % 16) (by omega)
  have hn : 16 * (c.toNat / 16) + c.toNat % 16 = c.toNat := by omega
  have hz : hexDigit? '0' = some 0 := rfl
  simp only [escaped, hex4, hz, hh, hl, Option.bind_eq_bind, Option.bind_some, Nat.mul_zero,
    Nat.zero_add, hn, pure]
  rw [if_neg (by omega), if_neg (by omega), Char.ofNat_toNat]

theorem quotedChars_escape (cs rest : List Char) :
    quotedChars (cs.flatMap escape ++ '"' :: rest) = some (cs, rest) := by
  induction cs with
  | nil => rw [List.flatMap_nil, List.nil_append, quotedChars]
  | cons c cs ih =>
    rw [List.flatMap_cons, List.append_assoc]
    have letter {l : Char} (hl : escaped (l :: (cs.flatMap escape ++ '"' :: rest)) =
        some (c, cs.flatMap escape ++ '"' :: rest)) :
        quotedChars (['\\', l] ++ (cs.flatMap escape ++ '"' :: rest)) = some (c :: cs, rest) := by
      rw [List.cons_append, List.cons_append, List.nil_append, quotedChars_of_escaped hl, ih]
      rfl
    rw [escape]
    split
    next h => subst h; exact letter rfl
    next hq =>
    split
    next h => subst h; exact letter rfl
    next hb =>
    split
    next h => subst h; exact letter rfl
    next =>
    split
    next h => subst h; exact letter rfl
    next =>
    split
    next h => subst h; exact letter rfl
    next =>
    split
    next h => subst h; exact letter rfl
    next =>
    split
    next h => subst h; exact letter rfl
    next =>
    split
    next hc =>
      simp only [List.cons_append, List.nil_append]
      rw [quotedChars_of_escaped (escaped_control hc _), ih]
      rfl
    next hc =>
      rw [List.singleton_append, quotedChars_cons hq hb hc, ih]
      rfl

theorem quotedString_quote (text : String) (rest : List Char) :
    quotedString ((quote text).toList ++ rest) = some (text, rest) := by
  simp [quote, quotedString, quotedChars_escape]

end BlendPlot.Json
