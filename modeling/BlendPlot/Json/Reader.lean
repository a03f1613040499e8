import BlendPlot.Json.Numeral
import BlendPlot.Json.Quoted

namespace BlendPlot.Json

/-- A way to read something off the front of a text, at least one character of it. -/
structure Reader (α : Type) where
  run : List Char → Option (α × List Char)
  shorter : ∀ {cs a rest}, run cs = some (a, rest) → rest.length < cs.length

/-- Reads what `r` reads and goes on with a part of it, or fails. -/
def Reader.filterMap {α β : Type} (f : α → Option β) (r : Reader α) : Reader β where
  run cs := do
    let (a, rest) ← r.run cs
    let b ← f a
    return (b, rest)
  shorter h := by
    obtain ⟨_, hr, h⟩ := Option.bind_eq_some_iff.mp h
    obtain ⟨_, _, h⟩ := Option.bind_eq_some_iff.mp h
    cases h
    exact r.shorter hr

def isSpace (c : Char) : Bool :=
  c = ' ' || c = '\t' || c = '\n' || c = '\r'

def trimmed (cs : List Char) : List Char :=
  cs.dropWhile isSpace

theorem length_trimmed_le (cs : List Char) : (trimmed cs).length ≤ cs.length :=
  (List.dropWhile_suffix isSpace).length_le

theorem length_lt_of_trimmed {cs more : List Char} {c : Char} (h : trimmed cs = c :: more) :
    more.length < cs.length := by
  have hl := length_trimmed_le cs
  rw [h] at hl
  exact hl

def afterWord (word cs : List Char) : Option (List Char) :=
  if word.isPrefixOf cs then some (cs.drop word.length) else none

theorem afterWord_no_longer {word cs rest : List Char} (h : afterWord word cs = some rest) :
    rest.length ≤ cs.length := by
  unfold afterWord at h
  split at h <;> cases h
  exact (List.drop_suffix _ _).length_le

def scalarValue : List Char → Option (Json × List Char)
  | 'n' :: cs => (afterWord ['u', 'l', 'l'] cs).map fun rest => (.null, rest)
  | 't' :: cs => (afterWord ['r', 'u', 'e'] cs).map fun rest => (.bool true, rest)
  | 'f' :: cs => (afterWord ['a', 'l', 's', 'e'] cs).map fun rest => (.bool false, rest)
  | '"' :: cs => (quotedString ('"' :: cs)).map fun r => (.string r.1, r.2)
  | cs => do
    let (n, rest) ← numeral cs
    let v ← n.toJson?
    return (v, rest)

theorem scalarValue_shorter {cs rest : List Char} {v : Json}
    (h : scalarValue cs = some (v, rest)) : rest.length < cs.length := by
  unfold scalarValue at h
  split at h
  · obtain ⟨_, hw, h⟩ := Option.map_eq_some_iff.mp h
    cases h
    exact Nat.lt_succ_of_le (afterWord_no_longer hw)
  · obtain ⟨_, hw, h⟩ := Option.map_eq_some_iff.mp h
    cases h
    exact Nat.lt_succ_of_le (afterWord_no_longer hw)
  · obtain ⟨_, hw, h⟩ := Option.map_eq_some_iff.mp h
    cases h
    exact Nat.lt_succ_of_le (afterWord_no_longer hw)
  · obtain ⟨_, hs, h⟩ := Option.map_eq_some_iff.mp h
    cases h
    exact quotedString_shorter hs
  · obtain ⟨_, hn, h⟩ := Option.bind_eq_some_iff.mp h
    obtain ⟨_, _, h⟩ := Option.bind_eq_some_iff.mp h
    cases h
    exact numeral_shorter hn

def scalar : Reader Json := ⟨scalarValue, scalarValue_shorter⟩

def items {α : Type} (sub : Reader α) (cs : List Char) : Option (List α × List Char) :=
  match _h : sub.run (trimmed cs) with
  | none => none
  | some (first, rest) =>
    match _ht : trimmed rest with
    | ',' :: more => (items sub more).map fun r => (first :: r.1, r.2)
    | ']' :: more => some ([first], more)
    | _ => none
termination_by cs.length
decreasing_by
  exact Nat.lt_of_lt_of_le (Nat.lt_trans (length_lt_of_trimmed (by assumption))
    (sub.shorter (by assumption))) (length_trimmed_le cs)

theorem items_shorter {α : Type} {sub : Reader α} {cs rest : List Char} {vs : List α}
    (h : items sub cs = some (vs, rest)) : rest.length < cs.length := by
  fun_induction items sub cs generalizing vs rest with
  | case1 => cases h
  | case2 cs first more hs more' ht ih =>
    obtain ⟨_, hr, h⟩ := Option.map_eq_some_iff.mp h
    cases h
    exact Nat.lt_of_lt_of_le (Nat.lt_trans (Nat.lt_trans (ih hr) (length_lt_of_trimmed ht))
      (sub.shorter hs)) (length_trimmed_le cs)
  | case3 cs first more hs more' ht =>
    cases h
    exact Nat.lt_of_lt_of_le (Nat.lt_trans (length_lt_of_trimmed ht) (sub.shorter hs))
      (length_trimmed_le cs)
  | case4 => cases h

def arrayRest {α : Type} (sub : Reader α) (cs : List Char) : Option (List α × List Char) :=
  match trimmed cs with
  | ']' :: more => some ([], more)
  | _ => items sub cs

theorem arrayRest_shorter {α : Type} {sub : Reader α} {cs rest : List Char} {vs : List α}
    (h : arrayRest sub cs = some (vs, rest)) : rest.length < cs.length := by
  unfold arrayRest at h
  split at h
  next ht => cases h; exact length_lt_of_trimmed ht
  next => exact items_shorter h

def arrayOf {α : Type} (sub : Reader α) : Reader (List α) where
  run
    | '[' :: cs => arrayRest sub cs
    | _ => none
  shorter {cs a rest} h := by
    split at h
    · exact Nat.lt_succ_of_lt (arrayRest_shorter h)
    · cases h

def afterColon (cs : List Char) : Option (List Char) :=
  match trimmed cs with
  | ':' :: rest => some rest
  | _ => none

theorem afterColon_shorter {cs rest : List Char} (h : afterColon cs = some rest) :
    rest.length < cs.length := by
  unfold afterColon at h
  split at h
  next ht => cases h; exact length_lt_of_trimmed ht
  next => cases h

/-- Reads a key, a colon and the value that `sub` reads for that key. -/
def member {α : Type} (sub : String → Reader α) (cs : List Char) :
    Option ((String × α) × List Char) := do
  let (key, rest) ← quotedString (trimmed cs)
  let rest ← afterColon rest
  let (v, rest) ← (sub key).run (trimmed rest)
  return ((key, v), rest)

theorem member_shorter {α : Type} {sub : String → Reader α} {cs rest : List Char}
    {m : String × α} (h : member sub cs = some (m, rest)) : rest.length < cs.length := by
  obtain ⟨_, hk, h⟩ := Option.bind_eq_some_iff.mp h
  obtain ⟨_, hc, h⟩ := Option.bind_eq_some_iff.mp h
  obtain ⟨_, hv, h⟩ := Option.bind_eq_some_iff.mp h
  cases h
  have hvc := Nat.lt_of_lt_of_le ((sub _).shorter hv) (length_trimmed_le _)
  exact Nat.lt_of_lt_of_le
    (Nat.lt_trans hvc (Nat.lt_trans (afterColon_shorter hc) (quotedString_shorter hk)))
    (length_trimmed_le cs)

def members {α : Type} (sub : String → Reader α) (cs : List Char) :
    Option (List (String × α) × List Char) :=
  match _h : member sub cs with
  | none => none
  | some (first, rest) =>
    match _ht : trimmed rest with
    | ',' :: more => (members sub more).map fun r => (first :: r.1, r.2)
    | '}' :: more => some ([first], more)
    | _ => none
termination_by cs.length
decreasing_by
  exact Nat.lt_trans (length_lt_of_trimmed (by assumption)) (member_shorter (by assumption))

theorem members_shorter {α : Type} {sub : String → Reader α} {cs rest : List Char}
    {ms : List (String × α)} (h : members sub cs = some (ms, rest)) :
    rest.length < cs.length := by
  fun_induction members sub cs generalizing ms rest with
  | case1 => cases h
  | case2 cs first more hm more' ht ih =>
    obtain ⟨_, hr, h⟩ := Option.map_eq_some_iff.mp h
    cases h
    exact Nat.lt_trans (Nat.lt_trans (ih hr) (length_lt_of_trimmed ht)) (member_shorter hm)
  | case3 cs first more hm more' ht =>
    cases h
    exact Nat.lt_trans (length_lt_of_trimmed ht) (member_shorter hm)
  | case4 => cases h

def objectRest {α : Type} (sub : String → Reader α) (cs : List Char) :
    Option (List (String × α) × List Char) :=
  match trimmed cs with
  | '}' :: more => some ([], more)
  | _ => members sub cs

theorem objectRest_shorter {α : Type} {sub : String → Reader α} {cs rest : List Char}
    {ms : List (String × α)} (h : objectRest sub cs = some (ms, rest)) :
    rest.length < cs.length := by
  unfold objectRest at h
  split at h
  next ht => cases h; exact length_lt_of_trimmed ht
  next => exact members_shorter h

/-- Reads an object whose values `sub` reads, given their keys. -/
def objectOf {α : Type} (sub : String → Reader α) : Reader (List (String × α)) where
  run
    | '{' :: cs => objectRest sub cs
    | _ => none
  shorter {cs a rest} h := by
    split at h
    · exact Nat.lt_succ_of_lt (objectRest_shorter h)
    · cases h

def layer (sub : Reader Json) : List Char → Option (Json × List Char)
  | '[' :: cs => (arrayRest sub cs).map fun r => (.array r.1, r.2)
  | '{' :: cs => (objectRest (fun _ => sub) cs).map fun r => (.object r.1, r.2)
  | cs => scalarValue cs

theorem layer_shorter {sub : Reader Json} {cs rest : List Char} {v : Json}
    (h : layer sub cs = some (v, rest)) : rest.length < cs.length := by
  unfold layer at h
  split at h
  · obtain ⟨_, hr, h⟩ := Option.map_eq_some_iff.mp h
    cases h
    exact Nat.lt_succ_of_lt (arrayRest_shorter hr)
  · obtain ⟨_, hr, h⟩ := Option.map_eq_some_iff.mp h
    cases h
    exact Nat.lt_succ_of_lt (objectRest_shorter hr)
  · exact scalarValue_shorter h

/-- Reads a value in which at most `room` arrays and objects lie inside each other. -/
def value : (room : Nat) → Reader Json
  | 0 => scalar
  | room + 1 => ⟨layer (value room), layer_shorter⟩

/-- What a reader reads off a whole text, with spaces around it. -/
def document {α : Type} (r : Reader α) (text : String) : Option α :=
  match r.run (trimmed text.toList) with
  | none => none
  | some (a, rest) => if (trimmed rest).isEmpty then some a else none

end BlendPlot.Json
