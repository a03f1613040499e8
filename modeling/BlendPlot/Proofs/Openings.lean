import BlendPlot.Proofs.Grammar
import Mathlib.Data.List.Forall2

namespace BlendPlot

def raise (k : Nat) : List Nat → List Nat
  | [] => []
  | x :: xs => (x + k) :: xs

/-- The counts of an operand, in a group unless it binds as tightly as `least`. -/
def surround (least level : Nat) (counts : List Nat) : List Nat :=
  if level < least then raise 1 counts else counts

/-- Some count falls short of what is asked for. -/
def Short (counts asked : List Nat) : Prop :=
  ∃ i x y : Nat, counts[i]? = some x ∧ asked[i]? = some y ∧ x < y

theorem raise_zero (counts : List Nat) : raise 0 counts = counts := by
  cases counts <;> rfl

theorem raise_raise (j k : Nat) (counts : List Nat) :
    raise k (raise j counts) = raise (j + k) counts := by
  cases counts with
  | nil => rfl
  | cons x xs => rw [raise, raise, raise, Nat.add_assoc]

theorem raise_append (k : Nat) {counts : List Nat} (h : counts ≠ []) (more : List Nat) :
    raise k (counts ++ more) = raise k counts ++ more := by
  cases counts with
  | nil => exact absurd rfl h
  | cons x xs => rfl

theorem raise_ne_nil {k : Nat} {counts : List Nat} (h : counts ≠ []) : raise k counts ≠ [] := by
  cases counts with
  | nil => exact absurd rfl h
  | cons x xs => exact nofun

theorem raise_le_raise {j k : Nat} (hk : j ≤ k) {asked counts : List Nat}
    (h : List.Forall₂ (· ≤ ·) asked counts) :
    List.Forall₂ (· ≤ ·) (raise j asked) (raise k counts) := by
  cases h with
  | nil => exact .nil
  | cons hx hxs => exact .cons (Nat.add_le_add hx hk) hxs

theorem le_of_raise_le {k : Nat} {asked counts : List Nat}
    (h : List.Forall₂ (· ≤ ·) (raise k asked) counts) : List.Forall₂ (· ≤ ·) asked counts := by
  cases asked with
  | nil => exact h
  | cons x xs =>
    cases h with
    | cons hx hxs => exact .cons (Nat.le_trans (Nat.le_add_right x k) hx) hxs

theorem surround_le_of_le {least least' level : Nat} (hle : least' ≤ least)
    {asked counts : List Nat} (h : List.Forall₂ (· ≤ ·) (surround least level asked) counts) :
    List.Forall₂ (· ≤ ·) (surround least' level asked) counts := by
  unfold surround at h ⊢
  by_cases hlevel : level < least
  · rw [if_pos hlevel] at h
    split
    next => exact h
    next => exact le_of_raise_le h
  · rw [if_neg hlevel] at h
    rw [if_neg (by omega)]
    exact h

theorem Short.raised {counts asked : List Nat} (h : Short counts asked) (k : Nat) :
    Short (raise k counts) (raise k asked) := by
  obtain ⟨i, x, y, hx, hy, hlt⟩ := h
  cases counts with
  | nil => simp at hx
  | cons c cs =>
    cases asked with
    | nil => simp at hy
    | cons d ds =>
      cases i with
      | zero =>
        cases hx
        cases hy
        exact ⟨0, _, _, rfl, rfl, Nat.add_lt_add_right hlt k⟩
      | succ i => exact ⟨i + 1, x, y, hx, hy, hlt⟩

theorem Short.raised_of_zero {counts asked : List Nat} (h : Short counts asked)
    (hzero : asked.head? = some 0) (k : Nat) : Short (raise k counts) asked := by
  obtain ⟨i, x, y, hx, hy, hlt⟩ := h
  cases i with
  | zero =>
    rw [← List.head?_eq_getElem?, hzero] at hy
    cases hy
    exact absurd hlt (Nat.not_lt_zero x)
  | succ i =>
    cases counts with
    | nil => simp at hx
    | cons c cs => exact ⟨i + 1, x, y, hx, hy, hlt⟩

theorem Short.between {counts asked before before' : List Nat} (h : Short counts asked)
    (hlength : before.length = before'.length) (after after' : List Nat) :
    Short (before ++ (counts ++ after)) (before' ++ (asked ++ after')) := by
  obtain ⟨i, x, y, hx, hy, hlt⟩ := h
  have hi : i < counts.length := (List.getElem?_eq_some_iff.mp hx).1
  have hi' : i < asked.length := (List.getElem?_eq_some_iff.mp hy).1
  refine ⟨before.length + i, x, y, ?_, ?_, hlt⟩
  · rw [List.getElem?_append_right (Nat.le_add_right _ _), Nat.add_sub_cancel_left,
      List.getElem?_append_left hi, hx]
  · rw [hlength, List.getElem?_append_right (Nat.le_add_right _ _), Nat.add_sub_cancel_left,
      List.getElem?_append_left hi', hy]

theorem not_short_of_le {counts asked : List Nat} (h : List.Forall₂ (· ≤ ·) asked counts) :
    ¬Short counts asked := by
  rintro ⟨i, x, y, hx, hy, hlt⟩
  obtain ⟨hi, rfl⟩ := List.getElem?_eq_some_iff.mp hx
  obtain ⟨hi', rfl⟩ := List.getElem?_eq_some_iff.mp hy
  exact Nat.not_le_of_lt hlt (h.get hi' hi)

/-- Groups opened directly before each operand; where one is due, `some k` are open for it. -/
def openings : Option Nat → List Lexeme → List Nat
  | _, [] => []
  | some k, .opening :: words => openings (some (k + 1)) words
  | some k, .sign .plus :: words => openings (some k) words
  | some k, .sign _ :: words => k :: openings (some 0) words
  | some k, .number _ _ :: words => k :: openings none words
  | some k, .name _ :: words => k :: openings none words
  | none, .sign _ :: words => openings (some 0) words
  | none, .comma :: words => openings (some 0) words
  | none, .opening :: words => openings (some 0) words
  | _, _ :: words => openings none words

/-- The counts of words that write an operand, wherever they stand. -/
structure Opens (words : List Lexeme) (counts : List Nat) : Prop where
  ne_nil : counts ≠ []
  scan : ∀ k rest, openings (some k) (words ++ rest) = raise k counts ++ openings none rest

variable {words lefts rights : List Lexeme} {counts leftCounts rightCounts : List Nat}

theorem Opens.eq_openings (h : Opens words counts) : openings (some 0) words = counts := by
  have hscan := h.scan 0 []
  rwa [List.append_nil, raise_zero, openings, List.append_nil] at hscan

theorem opens_number (whole : List Char) (fraction : Option (List Char)) :
    Opens [.number whole fraction] [0] :=
  ⟨nofun, fun k rest => by simp [openings, raise]⟩

theorem opens_name (id : String) : Opens [.name id] [0] :=
  ⟨nofun, fun k rest => by simp [openings, raise]⟩

theorem Opens.group (h : Opens words counts) :
    Opens (.opening :: (words ++ [.closing])) (raise 1 counts) := by
  refine ⟨raise_ne_nil h.ne_nil, fun k rest => ?_⟩
  rw [List.cons_append, List.append_assoc, openings, h.scan, raise_raise, Nat.add_comm 1 k]
  rfl

theorem Opens.positive (h : Opens words counts) : Opens (.sign .plus :: words) counts :=
  ⟨h.ne_nil, h.scan⟩

theorem Opens.negative (h : Opens words counts) : Opens (.sign .minus :: words) (0 :: counts) := by
  refine ⟨nofun, fun k rest => ?_⟩
  have hscan := h.scan 0 rest
  rw [raise_zero] at hscan
  change k :: openings (some 0) (words ++ rest) = _
  rw [hscan, raise, Nat.zero_add, List.cons_append]

theorem Opens.binary (hl : Opens lefts leftCounts) (hr : Opens rights rightCounts) (op : Operator) :
    Opens (lefts ++ .sign op :: rights) (leftCounts ++ rightCounts) := by
  refine ⟨by simp [hl.ne_nil], fun k rest => ?_⟩
  have hscan := hr.scan 0 rest
  rw [raise_zero] at hscan
  rw [List.append_assoc, hl.scan, raise_append k hl.ne_nil, List.append_assoc, ← hscan]
  cases op <;> rfl

theorem openings_arguments {args : List (List Lexeme)} {counts : List (List Nat)}
    (h : List.Forall₂ Opens args counts) (rest : List Lexeme) :
    openings (some 0) ([.comma].intercalate args ++ .closing :: rest) =
      counts.flatten ++ openings none rest := by
  induction h with
  | nil => rfl
  | @cons arg first args others hfirst hothers ih =>
    cases hothers with
    | nil =>
      have hscan := hfirst.scan 0 (.closing :: rest)
      rw [raise_zero] at hscan
      simpa [openings] using hscan
    | @cons arg' second args others hsecond hothers =>
      have hscan := hfirst.scan 0
        (.comma :: ([.comma].intercalate (arg' :: args) ++ .closing :: rest))
      rw [raise_zero, openings, ih] at hscan
      rw [List.intercalate_cons_cons]
      simpa using hscan

theorem opens_call (function : String) {args : List (List Lexeme)} {counts : List (List Nat)}
    (h : List.Forall₂ Opens args counts) :
    Opens (.name function :: .opening :: ([.comma].intercalate args ++ [.closing]))
      (0 :: counts.flatten) := by
  refine ⟨nofun, fun k rest => ?_⟩
  have harguments := openings_arguments h rest
  change k :: openings (some 0) ([.comma].intercalate args ++ [.closing] ++ rest) = _
  rw [List.append_assoc, List.singleton_append, harguments, raise, Nat.zero_add, List.cons_append]

namespace Expr

mutual

/-- The groups that a tree asks for before each of its operands. -/
def groups : Expr → List Nat
  | number _ => [0]
  | name _ => [0]
  | negate operand => 0 :: surround signLevel operand.level operand.groups
  | binary op left right =>
    surround op.leftLevel left.level left.groups ++
      surround (min op.rightLevel signLevel) right.level right.groups
  | call _ arguments => 0 :: groupsIn arguments

def groupsIn : List Expr → List Nat
  | [] => []
  | e :: es => e.groups ++ groupsIn es

end

end Expr

/-- Words that write a tree open at least as many groups as it asks for. -/
theorem Derives.opens {c : Category} {tree : Expr} {n : Nat} (h : Derives c words tree n) :
    ∃ counts, Opens words counts ∧
      List.Forall₂ (· ≤ ·) (surround c.level tree.level tree.groups) counts := by
  induction h with
  | ofTerm _ ih =>
    obtain ⟨counts, hopens, hle⟩ := ih
    exact ⟨counts, hopens, surround_le_of_le (by decide) hle⟩
  | ofUnary _ ih =>
    obtain ⟨counts, hopens, hle⟩ := ih
    exact ⟨counts, hopens, surround_le_of_le (by decide) hle⟩
  | ofPower _ ih =>
    obtain ⟨counts, hopens, hle⟩ := ih
    exact ⟨counts, hopens, surround_le_of_le (by decide) hle⟩
  | ofPrimary _ ih =>
    obtain ⟨counts, hopens, hle⟩ := ih
    exact ⟨counts, hopens, surround_le_of_le (by decide) hle⟩
  | sum hop _ _ ihl ihr =>
    obtain ⟨leftCounts, hl, hlle⟩ := ihl
    obtain ⟨rightCounts, hr, hrle⟩ := ihr
    refine ⟨_, hl.binary hr _, ?_⟩
    rcases hop with rfl | rfl <;> exact List.rel_append hlle hrle
  | product hop _ _ ihl ihr =>
    obtain ⟨leftCounts, hl, hlle⟩ := ihl
    obtain ⟨rightCounts, hr, hrle⟩ := ihr
    refine ⟨_, hl.binary hr _, ?_⟩
    rcases hop with rfl | rfl <;> exact List.rel_append hlle hrle
  | power _ _ ihl ihr =>
    obtain ⟨leftCounts, hl, hlle⟩ := ihl
    obtain ⟨rightCounts, hr, hrle⟩ := ihr
    exact ⟨_, hl.binary hr _, List.rel_append hlle hrle⟩
  | positive _ ih =>
    obtain ⟨counts, hopens, hle⟩ := ih
    exact ⟨counts, hopens.positive, hle⟩
  | negative _ ih =>
    obtain ⟨counts, hopens, hle⟩ := ih
    exact ⟨_, hopens.negative, .cons (Nat.le_refl 0) hle⟩
  | number h =>
    obtain ⟨whole, fraction, rfl, -⟩ := Lexeme.value?_eq_some h
    exact ⟨[0], opens_number whole fraction, .cons (Nat.le_refl 0) .nil⟩
  | name id => exact ⟨[0], opens_name id, .cons (Nat.le_refl 0) .nil⟩
  | @call function args h ih =>
    have hargs : ∃ counts, List.Forall₂ Opens (args.map (·.words)) counts ∧
        List.Forall₂ (· ≤ ·) (Expr.groupsIn (args.map (·.tree))) counts.flatten := by
      clear h
      induction args with
      | nil => exact ⟨[], .nil, .nil⟩
      | cons a args ihargs =>
        obtain ⟨first, hfirst, hle⟩ := ih a List.mem_cons_self
        obtain ⟨others, hothers, hles⟩ := ihargs fun b hb => ih b (List.mem_cons_of_mem a hb)
        have hfirstle : List.Forall₂ (· ≤ ·) a.tree.groups first :=
          surround_le_of_le (Nat.zero_le _) hle
        exact ⟨first :: others, .cons hfirst hothers, List.rel_append hfirstle hles⟩
    obtain ⟨counts, hopens, hle⟩ := hargs
    exact ⟨_, opens_call function hopens, .cons (Nat.le_refl 0) hle⟩
  | @group words tree n h ih =>
    obtain ⟨counts, hopens, hle⟩ := ih
    have hgroups : List.Forall₂ (· ≤ ·) tree.groups counts :=
      surround_le_of_le (Nat.zero_le _) hle
    refine ⟨_, hopens.group, ?_⟩
    unfold surround
    split
    next => exact raise_le_raise (Nat.le_refl 1) hgroups
    next =>
      rw [← raise_zero tree.groups]
      exact raise_le_raise (Nat.zero_le 1) hgroups

end BlendPlot
