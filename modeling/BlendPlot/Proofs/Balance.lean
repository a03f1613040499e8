import BlendPlot.Proofs.Grammar

namespace BlendPlot

/-- In no front part are more groups closed than opened, and in the whole as many. -/
structure Balanced (words : List Lexeme) : Prop where
  front : ∀ k, (words.take k).count .closing ≤ (words.take k).count .opening
  whole : words.count .closing = words.count .opening

theorem balanced_nil : Balanced [] :=
  ⟨by simp, rfl⟩

theorem balanced_singleton {word : Lexeme} (ho : word ≠ .opening) (hc : word ≠ .closing) :
    Balanced [word] := by
  have hnone {u : Lexeme} (hu : word ≠ u) (k : Nat) : (([word] : List Lexeme).take k).count u = 0 :=
    List.count_eq_zero.mpr fun hm => hu (List.mem_singleton.mp (List.mem_of_mem_take hm)).symm
  refine ⟨fun k => ?_, ?_⟩
  · exact Nat.le_trans (Nat.le_of_eq (hnone hc k)) (Nat.zero_le _)
  · simp [hc, ho]

theorem Balanced.append {lefts rights : List Lexeme} (hl : Balanced lefts) (hr : Balanced rights) :
    Balanced (lefts ++ rights) := by
  constructor
  · intro k
    have h1 := hl.front k
    have h2 := hr.front (k - lefts.length)
    rw [List.take_append, List.count_append, List.count_append]
    omega
  · rw [List.count_append, List.count_append, hl.whole, hr.whole]

theorem Balanced.cons {word : Lexeme} {words : List Lexeme} (h : Balanced words)
    (ho : word ≠ .opening) (hc : word ≠ .closing) : Balanced (word :: words) :=
  (balanced_singleton ho hc).append h

theorem Balanced.enclosed {words : List Lexeme} (h : Balanced words) :
    Balanced (.opening :: (words ++ [.closing])) := by
  constructor
  · intro k
    cases k with
    | zero => simp
    | succ k =>
      have hfront := h.front k
      have hlast : (([.closing] : List Lexeme).take (k - words.length)).count .closing ≤ 1 :=
        (List.take_sublist _ _).count_le _
      rw [List.take_succ_cons, List.take_append, List.count_cons_self, List.count_append,
        List.count_cons_of_ne (by decide), List.count_append]
      omega
  · have hwhole := h.whole
    simp [hwhole]

theorem balanced_listed {ps : List Piece} (h : ∀ p ∈ ps, Balanced p.words) :
    Balanced (Piece.listed ps) := by
  induction ps with
  | nil => exact balanced_nil
  | cons p ps ih =>
    have hp := h p List.mem_cons_self
    cases ps with
    | nil => rwa [Piece.listed_singleton]
    | cons q qs =>
      rw [Piece.listed_cons_cons]
      have hrest := ih fun r hr => h r (List.mem_cons_of_mem p hr)
      exact hp.append (hrest.cons (by decide) (by decide))

theorem Derives.balanced {c : Category} {words : List Lexeme} {tree : Expr} {n : Nat}
    (h : Derives c words tree n) : Balanced words := by
  induction h with
  | ofTerm _ ih | ofUnary _ ih | ofPower _ ih | ofPrimary _ ih => exact ih
  | sum _ _ _ ihl ihr | product _ _ _ ihl ihr | power _ _ ihl ihr =>
    exact ihl.append (ihr.cons (by simp) (by simp))
  | positive _ ih | negative _ ih => exact ih.cons (by simp) (by simp)
  | number h =>
    obtain ⟨whole, fraction, rfl, -⟩ := Lexeme.value?_eq_some h
    exact balanced_singleton (by simp) (by simp)
  | name => exact balanced_singleton (by simp) (by simp)
  | call function h ih => exact (balanced_listed ih).enclosed.cons (by simp) (by simp)
  | group _ ih => exact ih.enclosed

theorem Balanced.not_open {mid inside : List Lexeme} (h : Balanced (mid ++ .opening :: inside))
    (hinside : inside.count .closing ≤ inside.count .opening) : False := by
  have hfront := h.front mid.length
  have hwhole := h.whole
  rw [List.take_left] at hfront
  simp only [List.count_append, List.count_cons_self, List.count_cons_of_ne (by decide :
    Lexeme.opening ≠ .closing)] at hwhole
  omega

/-- The parenthesis at a position is open at the end of some tokens, and none after it is. -/
def InnermostOpen (ts : List Token) (position : Nat) : Prop :=
  ∃ before inside, ts = before ++ ⟨.opening, position⟩ :: inside ∧
    Balanced (inside.map (·.lexeme))

theorem InnermostOpen.under {ts : List Token} {position : Nat} (h : InnermostOpen ts position)
    (front : List Token) : InnermostOpen (front ++ ts) position := by
  obtain ⟨before, inside, rfl, hinside⟩ := h
  exact ⟨front ++ before, inside, by simp, hinside⟩

theorem InnermostOpen.unique {ts : List Token} {p q : Nat} (hp : InnermostOpen ts p)
    (hq : InnermostOpen ts q) : p = q := by
  obtain ⟨before, inside, rfl, hinside⟩ := hp
  obtain ⟨others, rest, heq, hrest⟩ := hq
  -- of two different ones the first is not open at the end, as the second is
  rcases List.append_eq_append_iff.mp heq with ⟨mid, rfl, hmid⟩ | ⟨mid, rfl, hmid⟩
  · cases mid with
    | nil =>
      cases hmid
      rfl
    | cons t mid =>
      rw [List.cons_append] at hmid
      obtain ⟨rfl, rfl⟩ := List.cons.inj hmid
      rw [List.map_append] at hinside
      exact (hinside.not_open (Nat.le_of_eq hrest.whole)).elim
  · cases mid with
    | nil =>
      cases hmid
      rfl
    | cons t mid =>
      rw [List.cons_append] at hmid
      obtain ⟨rfl, rfl⟩ := List.cons.inj hmid
      rw [List.map_append] at hrest
      exact (hrest.not_open (Nat.le_of_eq hinside.whole)).elim

end BlendPlot
