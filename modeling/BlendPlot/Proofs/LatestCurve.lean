import BlendPlot.Proofs.View

namespace BlendPlot.Session

variable {σ : Type}

def Compiles (s : Session σ) : Prop :=
  ∃ curve, s.state.sources.compile s.state.names s.state.env = .ok curve

/-- The listing that was shown last in `past`, which has the latest first. -/
def lastListing? (past : List (Session σ)) : Option String :=
  past.head?.bind (·.view.listing)

/-- The listing of the latest that compiled or, if that was not sampled, what was shown before. -/
def ListingOf (past : List (Session σ)) (listing : Option String) : Prop :=
  (∀ p ∈ past, ¬p.Compiles) ∧ listing = none ∨
  ∃ later p earlier curve, past = later ++ p :: earlier ∧ (∀ q ∈ later, ¬q.Compiles) ∧
    p.state.sources.compile p.state.names p.state.env = .ok curve ∧
    listing = if p.settings.error? = none ∧ p.settings.Fits then some curve.listing
      else lastListing? earlier

theorem ListingOf.cons {past : List (Session σ)} {listing : Option String} {s : Session σ}
    (h : ListingOf past listing) (hs : ¬s.Compiles) : ListingOf (s :: past) listing := by
  rcases h with ⟨hnone, rfl⟩ | ⟨later, p, earlier, curve, rfl, hlater, hrest⟩
  · exact Or.inl ⟨List.forall_mem_cons.mpr ⟨hs, hnone⟩, rfl⟩
  · exact Or.inr ⟨s :: later, p, earlier, curve, rfl, List.forall_mem_cons.mpr ⟨hs, hlater⟩, hrest⟩

theorem listing_refresh_of_compile {s : Session σ} {curve : Curve}
    (h : s.state.sources.compile s.state.names s.state.env = .ok curve) :
    s.refresh.value.view.listing =
      if s.settings.error? = none ∧ s.settings.Fits then some curve.listing
      else s.view.listing := by
  have hnil := s.state.sources.errors_eq_nil_of_compile s.state.names s.state.env h
  change (View.refresh s.state s.settings s.view).value.listing = _
  split
  next hsettings =>
    have hdraws : View.Draws s.state s.settings := ⟨hnil, hsettings⟩
    obtain ⟨plot, ⟨shown, samples, hshown, -, rfl⟩, hview⟩ := View.refresh_of_draws hdraws
    obtain rfl := Except.ok.inj (hshown.symm.trans h)
    rw [hview, View.listing, Option.map_some]
  next hsettings =>
    rw [View.listing, View.refresh_plot_of_not_draws s.view fun hdraws => hsettings hdraws.2]
    rfl

theorem listing_refresh_of_not_compiles {s : Session σ} (h : ¬s.Compiles) :
    s.refresh.value.view.listing = s.view.listing := by
  have hkeep : ¬View.Draws s.state s.settings := fun hdraws =>
    h (s.state.sources.compile_of_errors_eq_nil s.state.names s.state.env hdraws.1)
  change (View.refresh s.state s.settings s.view).value.listing = _
  rw [View.listing, View.refresh_plot_of_not_draws s.view hkeep]
  rfl

theorem refresh_listingOf {s : Session σ} {past : List (Session σ)}
    (hshown : s.view.listing = lastListing? past) (h : ListingOf past s.view.listing) :
    ListingOf (s.refresh.value :: past) s.refresh.value.view.listing := by
  by_cases hs : s.Compiles
  · obtain ⟨curve, hc⟩ := hs
    refine Or.inr ⟨[], s.refresh.value, past, curve, rfl, by simp, hc, ?_⟩
    rw [← hshown]
    exact listing_refresh_of_compile hc
  · rw [listing_refresh_of_not_compiles hs]
    exact h.cons hs

variable [Storage σ]

theorem start_listingOf (storage : σ) (settings : Settings) :
    let opened := (start storage settings).value
    ListingOf [opened] opened.view.listing := by
  let loaded : Session σ := ⟨(State.load storage).value, settings, storage, {}⟩
  have hnone : ListingOf ([] : List (Session σ)) loaded.view.listing := Or.inl ⟨by simp, rfl⟩
  exact refresh_listingOf rfl hnone

theorem step_listingOf {s : Session σ} {past : List (Session σ)}
    (h : ListingOf (s :: past) s.view.listing) (t : Step) :
    ListingOf ((s.step t).value :: s :: past) (s.step t).value.view.listing := by
  obtain ⟨s', hview, hstep⟩ := s.step_eq_refresh t
  rw [hstep]
  rw [← hview] at h
  exact refresh_listingOf (congrArg View.listing hview) h

theorem run_listingOf {s : Session σ} {past : List (Session σ)}
    (h : ListingOf (s :: past) s.view.listing) (ts : List Step) :
    ListingOf (s.trail ts ++ past) (s.run ts).value.view.listing :=
  run_preserves (P := fun s past => ListingOf past s.view.listing)
    (fun t hs => step_listingOf hs t) h ts

/-- The listing is that of the latest curve that compiled, if it was sampled. -/
theorem listing_of_run (storage : σ) (settings : Settings) (ts : List Step) :
    let opened := (start storage settings).value
    let s := (opened.run ts).value
    (∀ p ∈ opened.trail ts, ¬p.Compiles) ∧ s.view.listing = none ∨
    ∃ later p earlier curve, opened.trail ts = later ++ p :: earlier ∧
      (∀ q ∈ later, ¬q.Compiles) ∧
      p.state.sources.compile (parameterNames p.state.sources.texts) p.state.env = .ok curve ∧
      s.view.listing =
        if p.settings.error? = none ∧ p.settings.Fits then some curve.listing
        else earlier.head?.bind (·.view.listing) := by
  intro opened s
  have h := run_listingOf (start_listingOf storage settings) ts
  rw [List.append_nil] at h
  exact h

/-- The default texts compile, but with no steps their curve is not sampled. -/
theorem listing_of_start_without_steps :
    let s := (start (⟨none⟩ : Memory) { steps := 0 }).value
    ∃ curve, s.state.sources.compile (parameterNames s.state.sources.texts) s.state.env =
      .ok curve ∧ s.view.listing ≠ some curve.listing := by
  intro s
  have herrors : s.state.sources.errors s.state.names = [] := by decide +kernel
  obtain ⟨curve, hc⟩ := s.state.sources.compile_of_errors_eq_nil s.state.names s.state.env herrors
  have hnone : s.view.listing = none := by decide +kernel
  exact ⟨curve, hc, by simp [hnone]⟩

end BlendPlot.Session
