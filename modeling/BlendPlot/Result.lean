namespace BlendPlot

variable {ε α β γ : Type}

theorem bind_eq_ok {r : Except ε α} {f : α → Except ε β} {b : β} :
    r >>= f = .ok b ↔ ∃ a, r = .ok a ∧ f a = .ok b := by
  cases r with
  | error e => exact ⟨nofun, nofun⟩
  | ok a =>
    refine ⟨fun h => ⟨a, rfl, h⟩, ?_⟩
    rintro ⟨_, h, hf⟩
    cases h
    exact hf

theorem bind_eq_error {r : Except ε α} {f : α → Except ε β} {e : ε} :
    r >>= f = .error e ↔ r = .error e ∨ ∃ a, r = .ok a ∧ f a = .error e := by
  cases r with
  | error d =>
    have hbind : Except.error d >>= f = .error d := rfl
    simp [hbind]
  | ok a =>
    refine ⟨fun h => Or.inr ⟨a, rfl, h⟩, ?_⟩
    rintro (h | ⟨_, h, hf⟩)
    · cases h
    · cases h
      exact hf

theorem foldlM_preserves {P : β → Prop} {f : β → α → Except ε β} {as : List α}
    (hf : ∀ a ∈ as, ∀ b b', P b → f b a = .ok b' → P b') {b b' : β} (hb : P b)
    (h : as.foldlM f b = .ok b') : P b' := by
  induction as generalizing b with
  | nil => cases h; exact hb
  | cons a as ih =>
    rw [List.foldlM_cons] at h
    obtain ⟨c, hc, hrest⟩ := bind_eq_ok.mp h
    exact ih (fun d hd => hf d (List.mem_cons_of_mem a hd))
      (hf a List.mem_cons_self b c hb hc) hrest

/-- Going through a list fails at the first bad element or takes all its steps. -/
theorem foldlM_cases {f : β → α → Except ε β} {g : β → α → β} {bad : α → Prop} {fault : α → ε}
    (hf : ∀ a b, bad a ∧ f b a = .error (fault a) ∨ ¬bad a ∧ f b a = .ok (g b a)) (as : List α)
    (b : β) :
    (∃ before a after, as = before ++ a :: after ∧ (∀ d ∈ before, ¬bad d) ∧ bad a ∧
        as.foldlM f b = .error (fault a)) ∨
      (∀ a ∈ as, ¬bad a) ∧ as.foldlM f b = .ok (as.foldl g b) := by
  induction as generalizing b with
  | nil => exact Or.inr ⟨List.forall_mem_nil _, rfl⟩
  | cons a as ih =>
    rw [List.foldlM_cons, List.foldl_cons]
    rcases hf a b with ⟨hbad, hstep⟩ | ⟨hgood, hstep⟩ <;> rw [hstep]
    · exact Or.inl ⟨[], a, as, rfl, List.forall_mem_nil _, hbad, rfl⟩
    · rcases ih (g b a) with ⟨before, c, after, rfl, hbefore, hbad, herror⟩ | ⟨hall, hok⟩
      · exact Or.inl ⟨a :: before, c, after, rfl, List.forall_mem_cons.mpr ⟨hgood, hbefore⟩, hbad,
          herror⟩
      · exact Or.inr ⟨List.forall_mem_cons.mpr ⟨hgood, hall⟩, hok⟩

def errorOf : Except ε α → Option ε
  | .error e => some e
  | .ok _ => none

theorem errorOf_eq_some_iff {r : Except ε α} {e : ε} : errorOf r = some e ↔ r = .error e := by
  cases r <;> simp [errorOf]

theorem errorOf_eq_none_iff {r : Except ε α} : errorOf r = none ↔ ∃ a, r = .ok a := by
  cases r <;> simp [errorOf]

theorem errorOf_bind_pure (r : Except ε α) (f : α → β) :
    errorOf (r >>= fun a => pure (f a)) = errorOf r := by
  cases r <;> rfl

theorem errorOf_bind_bind_pure (r : Except ε α) (q : Except ε β) (f : α → β → γ) :
    errorOf (r >>= fun a => q >>= fun b => pure (f a b)) = (errorOf r).or (errorOf q) := by
  cases r <;> cases q <;> rfl

end BlendPlot
