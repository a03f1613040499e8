import BlendPlot.Json.Reader

namespace BlendPlot.Json

/-- What a place in a text lies inside of. -/
inductive Enclosing where
  | array
  | object

def afterScalar : List Char → Option (List Char)
  | 'n' :: cs => afterWord ['u', 'l', 'l'] cs
  | 't' :: cs => afterWord ['r', 'u', 'e'] cs
  | 'f' :: cs => afterWord ['a', 'l', 's', 'e'] cs
  | '"' :: cs => quotedForm cs
  | cs => (numeral cs).map Prod.snd

theorem afterScalar_shorter {cs rest : List Char} (h : afterScalar cs = some rest) :
    rest.length < cs.length := by
  unfold afterScalar at h
  split at h
  · exact Nat.lt_succ_of_le (afterWord_no_longer h)
  · exact Nat.lt_succ_of_le (afterWord_no_longer h)
  · exact Nat.lt_succ_of_le (afterWord_no_longer h)
  · exact Nat.lt_succ_of_lt (quotedForm_shorter h)
  · obtain ⟨_, hn, rfl⟩ := Option.map_eq_some_iff.mp h
    exact numeral_shorter hn

def afterKey (cs : List Char) : Option (List Char) :=
  match trimmed cs with
  | '"' :: rest => (quotedForm rest).bind afterColon
  | _ => none

theorem afterKey_shorter {cs rest : List Char} (h : afterKey cs = some rest) :
    rest.length < cs.length := by
  unfold afterKey at h
  split at h
  next ht =>
    obtain ⟨_, hq, hc⟩ := Option.bind_eq_some_iff.mp h
    exact Nat.lt_trans (afterColon_shorter hc)
      (Nat.lt_trans (quotedForm_shorter hq) (length_lt_of_trimmed ht))
  next => cases h

mutual

/-- What follows a value and all that it lies inside of. -/
def skipFrom (inside : List Enclosing) (cs : List Char) : Option (List Char) :=
  match _ht : trimmed cs with
  | '[' :: rest =>
    match _hu : trimmed rest with
    | ']' :: more => skipAfter inside more
    | _ => skipFrom (.array :: inside) rest
  | '{' :: rest =>
    match _hu : trimmed rest with
    | '}' :: more => skipAfter inside more
    | _ =>
      match _hk : afterKey rest with
      | none => none
      | some more => skipFrom (.object :: inside) more
  | _ =>
    match _hs : afterScalar (trimmed cs) with
    | none => none
    | some rest => skipAfter inside rest
termination_by cs.length
decreasing_by
  · exact Nat.lt_trans (length_lt_of_trimmed _hu) (length_lt_of_trimmed _ht)
  · exact length_lt_of_trimmed _ht
  · exact Nat.lt_trans (length_lt_of_trimmed _hu) (length_lt_of_trimmed _ht)
  · exact Nat.lt_trans (afterKey_shorter _hk) (length_lt_of_trimmed _ht)
  · exact Nat.lt_of_lt_of_le (afterScalar_shorter _hs) (length_trimmed_le cs)

def skipAfter (inside : List Enclosing) (cs : List Char) : Option (List Char) :=
  match inside with
  | [] => some cs
  | .array :: outer =>
    match _ht : trimmed cs with
    | ']' :: more => skipAfter outer more
    | ',' :: more => skipFrom (.array :: outer) more
    | _ => none
  | .object :: outer =>
    match _ht : trimmed cs with
    | '}' :: more => skipAfter outer more
    | ',' :: more =>
      match _hk : afterKey more with
      | none => none
      | some rest => skipFrom (.object :: outer) rest
    | _ => none
termination_by cs.length
decreasing_by
  · exact length_lt_of_trimmed _ht
  · exact length_lt_of_trimmed _ht
  · exact length_lt_of_trimmed _ht
  · exact Nat.lt_trans (afterKey_shorter _hk) (length_lt_of_trimmed _ht)

end

mutual

theorem skipFrom_shorter {inside : List Enclosing} {cs rest : List Char}
    (h : skipFrom inside cs = some rest) : rest.length < cs.length := by
  rw [skipFrom] at h
  split at h
  next ht =>
    split at h
    next hu =>
      have hm := Nat.lt_trans (length_lt_of_trimmed hu) (length_lt_of_trimmed ht)
      exact Nat.lt_of_le_of_lt (skipAfter_no_longer h) hm
    next =>
      have hm := length_lt_of_trimmed ht
      exact Nat.lt_trans (skipFrom_shorter h) hm
  next ht =>
    split at h
    next hu =>
      have hm := Nat.lt_trans (length_lt_of_trimmed hu) (length_lt_of_trimmed ht)
      exact Nat.lt_of_le_of_lt (skipAfter_no_longer h) hm
    next =>
      split at h
      next => cases h
      next hk =>
        have hm := Nat.lt_trans (afterKey_shorter hk) (length_lt_of_trimmed ht)
        exact Nat.lt_trans (skipFrom_shorter h) hm
  next =>
    split at h
    next => cases h
    next hs =>
      have hm := Nat.lt_of_lt_of_le (afterScalar_shorter hs) (length_trimmed_le cs)
      exact Nat.lt_of_le_of_lt (skipAfter_no_longer h) hm
termination_by cs.length

theorem skipAfter_no_longer {inside : List Enclosing} {cs rest : List Char}
    (h : skipAfter inside cs = some rest) : rest.length ≤ cs.length := by
  match inside with
  | [] =>
    rw [skipAfter] at h
    cases h
    exact Nat.le_refl _
  | .array :: outer =>
    rw [skipAfter] at h
    split at h
    next ht =>
      have hm := length_lt_of_trimmed ht
      exact Nat.le_of_lt (Nat.lt_of_le_of_lt (skipAfter_no_longer h) hm)
    next ht =>
      have hm := length_lt_of_trimmed ht
      exact Nat.le_of_lt (Nat.lt_trans (skipFrom_shorter h) hm)
    next => cases h
  | .object :: outer =>
    rw [skipAfter] at h
    split at h
    next ht =>
      have hm := length_lt_of_trimmed ht
      exact Nat.le_of_lt (Nat.lt_of_le_of_lt (skipAfter_no_longer h) hm)
    next ht =>
      split at h
      next => cases h
      next hk =>
        have hm := Nat.lt_trans (afterKey_shorter hk) (length_lt_of_trimmed ht)
        exact Nat.le_of_lt (Nat.lt_trans (skipFrom_shorter h) hm)
    next => cases h
termination_by cs.length

end

/-- Passes over a value of any depth. -/
def skip : Reader Unit where
  run cs := (skipFrom [] cs).map fun rest => ((), rest)
  shorter h := by
    obtain ⟨_, hs, h⟩ := Option.map_eq_some_iff.mp h
    cases h
    exact skipFrom_shorter hs

end BlendPlot.Json
