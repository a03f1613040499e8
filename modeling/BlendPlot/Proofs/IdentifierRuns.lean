import BlendPlot.Proofs.Names

namespace BlendPlot

theorem identifierRunsOf_eq_split (cs : List Char) :
    identifierRunsOf cs =
      ((cs.splitOnP fun c => !isIdentifierChar c).filter (· ≠ [])).map String.ofList := by
  fun_induction identifierRunsOf cs with
  | case1 => simp
  | case2 c cs hc ih =>
    have hrun : ∀ d ∈ c :: cs.takeWhile isIdentifierChar, (!isIdentifierChar d) = false := by
      simpa [hc] using List.all_eq_true.mp List.all_takeWhile
    have hcs : c :: cs = (c :: cs.takeWhile isIdentifierChar) ++ cs.dropWhile isIdentifierChar := by
      rw [List.cons_append, List.takeWhile_append_dropWhile]
    rw [ih]
    cases hrest : cs.dropWhile isIdentifierChar with
    | nil =>
      rw [hrest, List.append_nil] at hcs
      rw [hcs, List.splitOnP_eq_singleton hrun]
      simp
    | cons d rest =>
      have hd : isIdentifierChar d = false := not_of_mem_head?_dropWhile (by rw [hrest]; rfl)
      have hstop : (!isIdentifierChar d) = true := by rw [hd]; rfl
      rw [hrest] at hcs
      rw [hcs, List.splitOnP_append_cons_of_forall_mem hrun d hstop,
        List.splitOnP_cons_eq_if_modifyHead, if_pos hstop]
      simp
  | case3 c cs hc ih =>
    rw [ih, List.splitOnP_cons_eq_if_modifyHead, if_pos (by simpa using hc)]
    simp

theorem identifierRunsOf_append_cons {c : Char} (hc : isIdentifierChar c = false)
    (cs ds : List Char) :
    identifierRunsOf (cs ++ c :: ds) = identifierRunsOf cs ++ identifierRunsOf ds := by
  have hstop : (!isIdentifierChar c) = true := by rw [hc]; rfl
  rw [identifierRunsOf_eq_split, List.splitOnP_append_cons cs ds hstop, List.filter_append,
    List.map_append, ← identifierRunsOf_eq_split, ← identifierRunsOf_eq_split]

theorem identifierRunsOf_name {name : String} (hn : IsIdentifier name) {rest : List Char}
    (hrest : ∀ c ∈ rest.head?, isIdentifierChar c = false) :
    identifierRunsOf (name.toList ++ rest) = name :: identifierRunsOf rest := by
  obtain ⟨hne, hall⟩ := hn
  obtain ⟨c, cs, hcs⟩ := List.exists_cons_of_ne_nil hne
  rw [hcs] at hall
  obtain ⟨hc, hrun⟩ := List.forall_mem_cons.mp hall
  rw [hcs, List.cons_append, identifierRunsOf, if_pos hc, takeWhile_run hrun hrest,
    dropWhile_run hrun hrest, ← hcs, String.ofList_toList]

/-- The names among the tokens of a text are its identifier runs, in order and with repetitions. -/
theorem names_of_tokens (text : String) :
    (tokens text).filterMap (fun t => t.lexeme.name?) = identifierRuns text ∧
      identifierRuns text =
        ((text.toList.splitOnP fun c => !isIdentifierChar c).filter (· ≠ [])).map
          String.ofList := by
  refine ⟨?_, identifierRunsOf_eq_split text.toList⟩
  calc (tokens text).filterMap (fun t => t.lexeme.name?)
      = (wordsOf text.toList).filterMap Lexeme.name? := by
        rw [wordsOf, List.filterMap_map]
        rfl
    _ = identifierRuns text := names_wordsOf text.toList

example : identifierRuns "k2x .5e_ + k·äz" = ["k", "x", "e_", "k", "z"] := by decide +kernel

/-- The name is a part of the text that no identifier character stands before or after. -/
def IsRunOf (name text : String) : Prop :=
  IsIdentifier name ∧ ∃ before after : String, text = before ++ name ++ after ∧
    (∀ c ∈ before.toList.getLast?, isIdentifierChar c = false) ∧
    ∀ c ∈ after.toList.head?, isIdentifierChar c = false

theorem exists_around_of_mem {name : String} {cs : List Char} (h : name ∈ identifierRunsOf cs) :
    IsIdentifier name ∧ ∃ before after, cs = before ++ name.toList ++ after ∧
      (∀ c ∈ before.getLast?, isIdentifierChar c = false) ∧
      ∀ c ∈ after.head?, isIdentifierChar c = false := by
  fun_induction identifierRunsOf cs with
  | case1 => cases h
  | case2 c cs hc ih =>
    have hrun : ∀ d ∈ c :: cs.takeWhile isIdentifierChar, isIdentifierChar d :=
      List.forall_mem_cons.mpr ⟨hc, List.all_eq_true.mp List.all_takeWhile⟩
    have hcs := List.takeWhile_append_dropWhile (p := isIdentifierChar) (l := cs)
    rcases List.mem_cons.mp h with rfl | h
    · refine ⟨⟨by simp, by simpa using hrun⟩, [], cs.dropWhile isIdentifierChar, ?_, by simp, ?_⟩
      · simp [hcs]
      · exact fun d hd => not_of_mem_head?_dropWhile hd
    · obtain ⟨hname, before, after, heq, hbefore, hafter⟩ := ih h
      refine ⟨hname, c :: cs.takeWhile isIdentifierChar ++ before, after, ?_, ?_, hafter⟩
      · rw [List.append_assoc, List.append_assoc, ← List.append_assoc before, ← heq,
          List.cons_append, hcs]
      · -- what follows the run does not begin with the name, so something stands between them
        have hne : before ≠ [] := by
          rintro rfl
          obtain ⟨d, ds, hd⟩ := List.exists_cons_of_ne_nil hname.1
          have hletter := hname.2 d (by simp [hd])
          have hhead : d ∈ (cs.dropWhile isIdentifierChar).head? := by
            rw [heq, hd]
            rfl
          have hno := not_of_mem_head?_dropWhile hhead
          simp [hletter] at hno
        rwa [List.getLast?_append_of_ne_nil _ hne]
  | case3 c cs hc ih =>
    obtain ⟨hname, before, after, heq, hbefore, hafter⟩ := ih h
    refine ⟨hname, c :: before, after, by rw [heq]; simp, fun d hd => ?_, hafter⟩
    cases before with
    | nil =>
      obtain rfl := Option.some.inj hd
      simpa using hc
    | cons b before =>
      rw [List.getLast?_cons_cons] at hd
      exact hbefore d hd

theorem mem_identifierRuns {name text : String} :
    name ∈ identifierRuns text ↔ IsRunOf name text := by
  constructor
  · intro h
    obtain ⟨hname, before, after, heq, hbefore, hafter⟩ := exists_around_of_mem h
    refine ⟨hname, String.ofList before, String.ofList after, ?_, by simpa, by simpa⟩
    rw [← String.toList_inj]
    simpa using heq
  · rintro ⟨hname, before, after, rfl, hbefore, hafter⟩
    have hmem : name ∈ identifierRunsOf (name.toList ++ after.toList) := by
      rw [identifierRunsOf_name hname hafter]
      exact List.mem_cons_self
    rw [identifierRuns, String.toList_append, String.toList_append, List.append_assoc]
    rcases List.eq_nil_or_concat' before.toList with hnil | ⟨front, c, hlast⟩
    · rwa [hnil]
    · have hc := hbefore c (by simp [hlast])
      rw [hlast, List.append_assoc, List.singleton_append, identifierRunsOf_append_cons hc]
      exact List.mem_append_right _ hmem

/-- Several texts as one, the character of each pair between its text and the next one. -/
def separated : List (String × Char) → String
  | [] => ""
  | [(text, _)] => text
  | (text, c) :: part :: parts => text ++ c.toString ++ separated (part :: parts)

theorem identifierRuns_separated {parts : List (String × Char)}
    (h : ∀ part ∈ parts, isIdentifierChar part.2 = false) :
    identifierRuns (separated parts) = parts.flatMap fun part => identifierRuns part.1 := by
  fun_induction separated parts with
  | case1 => simp [identifierRuns, identifierRunsOf]
  | case2 text c => simp
  | case3 text c part parts ih =>
    obtain ⟨hc, hparts⟩ := List.forall_mem_cons.mp h
    have htext : (text ++ c.toString ++ separated (part :: parts)).toList =
        text.toList ++ c :: (separated (part :: parts)).toList := by simp
    rw [identifierRuns, htext, identifierRunsOf_append_cons hc, List.flatMap_cons, ← ih hparts]
    rfl

theorem parameterNames_congr {texts others : List String}
    (h : ∀ name, (∃ text ∈ texts, name ∈ identifierRuns text) ↔
      ∃ text ∈ others, name ∈ identifierRuns text) :
    parameterNames texts = parameterNames others := by
  have increasing (texts : List String) : (parameterNames texts).Pairwise (· < ·) :=
    Table.names_increasing _
  refine List.Pairwise.eq_of_mem_iff (increasing texts) (increasing others) fun name => ?_
  rw [mem_parameterNames, mem_parameterNames, h]

/-- Parameters are the free runs of the texts in the order of bytes, however texts are given. -/
theorem parameterNames_eq_free_runs (texts : List String) :
    ((parameterNames texts).Pairwise fun a b => utf8Bytes a < utf8Bytes b) ∧
      (∀ name, name ∈ parameterNames texts ↔
        isReserved name = false ∧ ∃ text ∈ texts, IsRunOf name text) ∧
      (∀ others : List String, (∀ text, text ∈ others ↔ text ∈ texts) →
        parameterNames others = parameterNames texts) ∧
      ∀ parts : List (String × Char), parts.map Prod.fst = texts →
        (∀ part ∈ parts, isIdentifierChar part.2 = false) →
          parameterNames [separated parts] = parameterNames texts := by
  refine ⟨?_, fun name => ?_, fun others h => ?_, ?_⟩
  · exact (Table.names_increasing _).imp utf8Bytes_lt_iff.mpr
  · simp only [mem_parameterNames, mem_identifierRuns]
  · exact parameterNames_congr fun name => by simp only [h]
  · rintro parts rfl h
    refine parameterNames_congr fun name => ?_
    simp [identifierRuns_separated h]

theorem parameterNames_eq_free_runs_of_joined :
    let texts := ["k2 + Zeta", "x*é_k", ""]
    let parts := [("k2 + Zeta", '7'), ("x*é_k", ','), ("", '\n')]
    (∀ text, text ∈ ["x*é_k", "", "k2 + Zeta", ""] ↔ text ∈ texts) ∧
      parts.map Prod.fst = texts ∧ (∀ part ∈ parts, isIdentifierChar part.2 = false) ∧
      parameterNames ["x*é_k", "", "k2 + Zeta", ""] = ["Zeta", "_k", "k"] ∧
      parameterNames ["k2 + Zeta7x*é_k,"] = ["Zeta", "_k", "k"] := by
  intro texts parts
  have hothers : ∀ text, text ∈ ["x*é_k", "", "k2 + Zeta", ""] ↔ text ∈ texts := by
    intro text
    simp only [texts, List.mem_cons, List.not_mem_nil, or_false]
    tauto
  have hparts : ∀ part ∈ parts, isIdentifierChar part.2 = false := by decide
  have hjoined : separated parts = "k2 + Zeta7x*é_k," := by decide +kernel
  have hnames : parameterNames texts = ["Zeta", "_k", "k"] := by decide +kernel
  obtain ⟨-, -, hsame, hone⟩ := parameterNames_eq_free_runs texts
  have hone := hone parts rfl hparts
  rw [hjoined, hnames] at hone
  exact ⟨hothers, rfl, hparts, (hsame _ hothers).trans hnames, hone⟩

end BlendPlot
