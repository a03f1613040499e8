import BlendPlot.Polyline
import BlendPlot.Proofs.Injectivity

namespace BlendPlot

namespace Decimal

def readMagnitude? : List Char → Option Float
  | [] => none
  | c :: cs =>
    match Lexeme.read c cs with
    | (word, []) => word.value?
    | _ => none

/-- Digits with at most one point among them, after a minus sign if the double is negative. -/
def read? : List Char → Option Float
  | '-' :: cs => (readMagnitude? cs).map (-·)
  | cs => readMagnitude? cs

theorem readMagnitude?_spelling {whole : List Char} {fraction : Option (List Char)}
    (h : IsNumeral whole fraction) :
    readMagnitude? (Lexeme.number whole fraction).spelling.toList =
      (Lexeme.number whole fraction).value? := by
  obtain ⟨c, cs, htext, -, hread⟩ := read_numeral h endsWord_nil
  rw [List.append_nil] at htext
  rw [htext, readMagnitude?, hread]

/-- The text of a finite double reads back as that double, negative zero included. -/
theorem read?_plain_text {x : Float} (hf : x.isFinite) :
    read? (Layout.plain.text x).toList = some x := by
  obtain ⟨⟨negative, whole, fraction, exponent⟩, htext, -, hproper, hvalue, hexp, -⟩ :=
    text_spells .plain hf
  obtain rfl : exponent = none := hexp fun _ => rfl
  have hspelling : (Json.Numeral.mk negative whole fraction none).text =
      (Lexeme.number whole fraction).spelling.toList := by
    cases fraction <;>
      simp [Json.Numeral.text, Json.Numeral.fractionText, Json.Numeral.exponentText,
        Lexeme.spelling]
  have hread := readMagnitude?_spelling hproper.numeral
  rw [htext, hspelling, ← hvalue]
  cases negative with
  | true =>
    change (readMagnitude? (Lexeme.number whole fraction).spelling.toList).map _ = _
    rw [hread]
    simp [Lexeme.value?, Json.Numeral.toFloat, Json.Numeral.magnitude]
  | false =>
    obtain ⟨c, cs, hcs, hc, -⟩ := read_numeral hproper.numeral endsWord_nil
    have hsign : ∀ ds, (Lexeme.number whole fraction).spelling.toList ≠ '-' :: ds := by
      intro ds h
      rw [List.append_nil, h] at hcs
      obtain ⟨rfl, -⟩ := List.cons.inj hcs
      exact absurd hc (by decide)
    simp only [Bool.false_eq_true, if_false, List.nil_append]
    rw [read?.eq_2 _ hsign, hread]
    simp [Lexeme.value?, Json.Numeral.toFloat, Json.Numeral.magnitude]

end Decimal

def coordinateTexts (points : List Point) : List (List Char) :=
  points.flatMap fun p =>
    [(Decimal.Layout.plain.text p.x).toList, (Decimal.Layout.plain.text p.y).toList]

theorem polylineText_toList (points : List Point) :
    (polylineText points).toList = [','].intercalate (coordinateTexts points) := by
  induction points with
  | nil => rfl
  | cons p points ih =>
    cases points with
    | nil => simp [polylineText, coordinateTexts, Point.text, List.intercalate]
    | cons q points =>
      have hsplit : (polylineText (p :: q :: points)).toList =
          p.text.toList ++ ',' :: (polylineText (q :: points)).toList := by
        simp [polylineText]
      rw [hsplit, ih]
      simp [coordinateTexts, Point.text, List.intercalate_cons_cons]

def Point.IsFinite (p : Point) : Prop :=
  p.x.isFinite ∧ p.y.isFinite

instance (p : Point) : Decidable p.IsFinite :=
  inferInstanceAs (Decidable (_ ∧ _))

theorem of_mem_coordinateTexts {points : List Point} (h : ∀ p ∈ points, p.IsFinite)
    {field : List Char} (hfield : field ∈ coordinateTexts points) :
    ∃ x : Float, x.isFinite ∧ field = (Decimal.Layout.plain.text x).toList := by
  obtain ⟨p, hp, hmem⟩ := List.mem_flatMap.mp hfield
  obtain ⟨hx, hy⟩ := h p hp
  simp only [List.mem_cons, List.not_mem_nil, or_false] at hmem
  rcases hmem with rfl | rfl
  · exact ⟨p.x, hx, rfl⟩
  · exact ⟨p.y, hy, rfl⟩

theorem comma_not_mem_plain_text {x : Float} (hf : x.isFinite) :
    ',' ∉ (Decimal.Layout.plain.text x).toList := by
  intro hc
  rcases mem_plain_text hf hc with hc | hc | hc <;> exact absurd hc (by decide)

theorem plain_text_ne_nil {x : Float} (hf : x.isFinite) :
    (Decimal.Layout.plain.text x).toList ≠ [] := by
  intro h
  have hread := Decimal.read?_plain_text hf
  rw [h] at hread
  cases hread

theorem splitOn_polylineText {points : List Point} (hne : points ≠ [])
    (h : ∀ p ∈ points, p.IsFinite) :
    (polylineText points).toList.splitOn ',' = coordinateTexts points := by
  rw [polylineText_toList]
  refine List.splitOn_intercalate ',' (fun field hfield => ?_) ?_
  · obtain ⟨x, hx, rfl⟩ := of_mem_coordinateTexts h hfield
    exact comma_not_mem_plain_text hx
  · obtain ⟨p, ps, rfl⟩ := List.exists_cons_of_ne_nil hne
    exact List.cons_ne_nil _ _

theorem length_coordinateTexts (points : List Point) :
    (coordinateTexts points).length = 2 * points.length := by
  induction points with
  | nil => rfl
  | cons p points ih =>
    rw [coordinateTexts, List.flatMap_cons, List.length_append, ← coordinateTexts, ih,
      List.length_cons]
    simp only [List.length_cons, List.length_nil]
    omega

theorem getElem?_coordinateTexts (points : List Point) (i : Nat) :
    (coordinateTexts points)[2 * i]? =
        points[i]?.map (fun p => (Decimal.Layout.plain.text p.x).toList) ∧
      (coordinateTexts points)[2 * i + 1]? =
        points[i]?.map fun p => (Decimal.Layout.plain.text p.y).toList := by
  induction points generalizing i with
  | nil => exact ⟨rfl, rfl⟩
  | cons p points ih =>
    cases i with
    | zero => exact ⟨rfl, rfl⟩
    | succ i => exact ih i

theorem eq_nil_of_polylineText {points : List Point} (h : ∀ p ∈ points, p.IsFinite)
    (htext : polylineText points = "") : points = [] := by
  by_contra hne
  have hlength := congrArg List.length (splitOn_polylineText hne h)
  have hempty : ("".toList.splitOn ',').length = 1 := rfl
  rw [htext, hempty, length_coordinateTexts] at hlength
  omega

theorem read?_fields {points : List Point} (hne : points ≠ []) (h : ∀ p ∈ points, p.IsFinite)
    {i : Nat} {p : Point} (hp : points[i]? = some p) :
    ((polylineText points).toList.splitOn ',')[2 * i]?.bind Decimal.read? = some p.x ∧
      ((polylineText points).toList.splitOn ',')[2 * i + 1]?.bind Decimal.read? = some p.y := by
  obtain ⟨hx, hy⟩ := h p (List.mem_of_getElem? hp)
  obtain ⟨hfirst, hsecond⟩ := getElem?_coordinateTexts points i
  rw [splitOn_polylineText hne h, hfirst, hsecond, hp]
  exact ⟨Decimal.read?_plain_text hx, Decimal.read?_plain_text hy⟩

theorem polylineText_inj {points others : List Point} (hp : ∀ p ∈ points, p.IsFinite)
    (ho : ∀ p ∈ others, p.IsFinite) (h : polylineText points = polylineText others) :
    points = others := by
  by_cases hpne : points = []
  · subst hpne
    exact (eq_nil_of_polylineText ho h.symm).symm
  by_cases hone : others = []
  · subst hone
    exact absurd (eq_nil_of_polylineText hp h) hpne
  have hlength : points.length = others.length := by
    have hfields := splitOn_polylineText hpne hp
    rw [h, splitOn_polylineText hone ho] at hfields
    have htwice := congrArg List.length hfields
    rw [length_coordinateTexts, length_coordinateTexts] at htwice
    omega
  refine List.ext_getElem hlength fun i hi hi' => ?_
  obtain ⟨hx, hy⟩ := read?_fields hpne hp (List.getElem?_eq_getElem hi)
  obtain ⟨hx', hy'⟩ := read?_fields hone ho (List.getElem?_eq_getElem hi')
  rw [h, hx'] at hx
  rw [h, hy'] at hy
  cases hpoint : points[i]
  cases hother : others[i]
  rw [hpoint, hother] at hx hy
  rw [Point.mk.injEq]
  exact ⟨(Option.some.inj hx).symm, (Option.some.inj hy).symm⟩

/-- The text of finite points splits at the commas into texts that read as their coordinates. -/
theorem polyline_read_back :
    (∀ points : List Point, points ≠ [] → (∀ p ∈ points, p.IsFinite) →
      let fields := (polylineText points).toList.splitOn ','
      fields.length = 2 * points.length ∧ (∀ field ∈ fields, field ≠ []) ∧
        ∀ i p, points[i]? = some p →
          fields[2 * i]?.bind Decimal.read? = some p.x ∧
            fields[2 * i + 1]?.bind Decimal.read? = some p.y) ∧
    polylineText [] = "" ∧
    ∀ points others : List Point, (∀ p ∈ points, p.IsFinite) → (∀ p ∈ others, p.IsFinite) →
      polylineText points = polylineText others → points = others := by
  refine ⟨fun points hne h => ?_, rfl, fun points others hp ho => polylineText_inj hp ho⟩
  refine ⟨?_, fun field hfield => ?_, fun i p hp => read?_fields hne h hp⟩
  · rw [splitOn_polylineText hne h, length_coordinateTexts]
  · rw [splitOn_polylineText hne h] at hfield
    obtain ⟨x, hx, rfl⟩ := of_mem_coordinateTexts h hfield
    exact plain_text_ne_nil hx

theorem polyline_read_back_of_far_points :
    let points : List Point := [⟨-0.0, 1e21⟩, ⟨0.5, -2⟩]
    let others : List Point := [⟨-0, 1000000000000000000000⟩, ⟨5e-1, -2.0⟩]
    let fields := (polylineText points).toList.splitOn ','
    polylineText points = "-0,1000000000000000000000,0.5,-2" ∧ points ≠ [] ∧
      (∀ p ∈ points, p.IsFinite) ∧ (∀ p ∈ others, p.IsFinite) ∧ fields.length = 4 ∧
      fields[0]?.bind Decimal.read? = some (-0.0) ∧ fields[1]?.bind Decimal.read? = some 1e21 ∧
      polylineText points = polylineText others ∧ points = others := by
  intro points others fields
  have htext : polylineText points = "-0,1000000000000000000000,0.5,-2" := by decide +kernel
  have hne : points ≠ [] := List.cons_ne_nil _ _
  have hpoints : ∀ p ∈ points, p.IsFinite := by decide +kernel
  have hothers : ∀ p ∈ others, p.IsFinite := by decide +kernel
  have hsame : polylineText points = polylineText others := by decide +kernel
  obtain ⟨hlength, -, hread⟩ := polyline_read_back.1 points hne hpoints
  obtain ⟨hx, hy⟩ := hread 0 ⟨-0.0, 1e21⟩ rfl
  exact ⟨htext, hne, hpoints, hothers, hlength, hx, hy, hsame,
    polyline_read_back.2.2 points others hpoints hothers hsame⟩

end BlendPlot
