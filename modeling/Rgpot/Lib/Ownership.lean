import Rgpot.Lib.Threads

/-! Cells of a shared store that threads take while they are free and give back. A move touches no cell but
its mover's. -/
namespace Rgpot.Threads

variable {ι σ τ μ ρ δ : Type} [DecidableEq ι] {next : σ → τ → μ → Option (σ × τ)}
variable {s t : State ι σ τ} {i : ι} {m : μ} {ms : List (ι × μ)}

theorem run_invariant (Inv : State ι σ τ → Prop)
    (hstep : ∀ s i m t, step next s i m = some t → Inv s → Inv t) (hs : Inv s)
    (h : run next s ms = some t) : Inv t := by
  induction ms generalizing s with
  | nil =>
    obtain rfl := Option.some.inj h
    exact hs
  | cons im ms ih =>
    obtain ⟨u, hstepped, hrest⟩ := run_cons_inv h
    exact ih (hstep _ _ _ _ hstepped hs) hrest

section Ownership
variable (next) (cell : σ → ρ → Option δ) (own : τ → Option ρ) (Fits : τ → δ → Prop)

/-- A cell that is `none` is free. -/
structure Guarded : Prop where
  touches : ∀ {c l m c' l'}, next c l m = some (c', l') →
    ∀ r, own l ≠ some r → own l' ≠ some r → cell c' r = cell c r
  takes : ∀ {c l m c' l'}, next c l m = some (c', l') →
    ∀ r, own l ≠ some r → own l' = some r → cell c r = none
  leaves : ∀ {c l m c' l'}, next c l m = some (c', l') →
    ∀ r, own l = some r → own l' ≠ some r → cell c' r = none
  keeps : ∀ {c l m c' l'}, next c l m = some (c', l') → ∀ r, own l' = some r →
    (own l = some r → ∃ d, cell c r = some d ∧ Fits l d) → ∃ d, cell c' r = some d ∧ Fits l' d

/-- What holds of the cells when the store was `c₀` before anyone owned one. -/
structure Owned (c₀ : σ) (s : State ι σ τ) : Prop where
  fits : ∀ i r, own (s.thread i) = some r → ∃ d, cell s.shared r = some d ∧ Fits (s.thread i) d
  once : ∀ i j r, own (s.thread i) = some r → own (s.thread j) = some r → i = j
  lent : ∀ i r, own (s.thread i) = some r → cell c₀ r = none
  rest : ∀ r, (∀ i, own (s.thread i) ≠ some r) → cell s.shared r = cell c₀ r

variable {next cell own Fits} {c₀ : σ}

omit [DecidableEq ι] in
theorem owned_initial (h : ∀ i, own (s.thread i) = none) : Owned cell own Fits s.shared s := by
  refine ⟨fun i r hi => ?_, fun i j r hi => ?_, fun i r hi => ?_, fun r _ => rfl⟩
  all_goals exact absurd (hi.symm.trans (h i)) nofun

omit [DecidableEq ι] in
/-- A free cell is nobody's. -/
theorem Owned.free (hs : Owned cell own Fits c₀ s) {r : ρ} (hr : cell s.shared r = none) (i : ι) :
    own (s.thread i) ≠ some r := by
  intro hi
  obtain ⟨d, hd, -⟩ := hs.fits i r hi
  exact absurd (hd.symm.trans hr) nofun

theorem owned_step (hg : Guarded next cell own Fits) (h : step next s i m = some t)
    (hs : Owned cell own Fits c₀ s) : Owned cell own Fits c₀ t := by
  obtain ⟨c, l, hnext, rfl⟩ := step_inv h
  -- a cell the mover ends with was its own before or nobody's
  have hmine : ∀ j r, j ≠ i → own l = some r → own (s.thread j) ≠ some r := by
    intro j r hj hl hjr
    by_cases hi : own (s.thread i) = some r
    · exact hj (hs.once j i r hjr hi)
    · exact hs.free (hg.takes hnext r hi hl) j hjr
  refine ⟨fun j r hj => ?_, fun j k r hj hk => ?_, fun j r hj => ?_, fun r hr => ?_⟩
  · by_cases hji : j = i
    · subst hji
      simp only [Function.update_self] at hj ⊢
      exact hg.keeps hnext r hj (hs.fits j r)
    · simp only [Function.update_of_ne hji] at hj ⊢
      have hi : own (s.thread i) ≠ some r := fun hi => hji (hs.once j i r hj hi)
      have hl : own l ≠ some r := fun hl => hmine j r hji hl hj
      rw [hg.touches hnext r hi hl]
      exact hs.fits j r hj
  · by_cases hji : j = i <;> by_cases hki : k = i
    · exact hji.trans hki.symm
    · subst hji
      simp only [Function.update_self, Function.update_of_ne hki] at hj hk
      exact absurd hk (hmine k r hki hj)
    · subst hki
      simp only [Function.update_self, Function.update_of_ne hji] at hj hk
      exact absurd hj (hmine j r hji hk)
    · simp only [Function.update_of_ne hji, Function.update_of_ne hki] at hj hk
      exact hs.once j k r hj hk
  · by_cases hji : j = i
    · subst hji
      simp only [Function.update_self] at hj
      by_cases hi : own (s.thread j) = some r
      · exact hs.lent j r hi
      · have hfree := hg.takes hnext r hi hj
        exact (hs.rest r (hs.free hfree)).symm.trans hfree
    · simp only [Function.update_of_ne hji] at hj
      exact hs.lent j r hj
  · have hl : own l ≠ some r := by simpa using hr i
    by_cases hi : own (s.thread i) = some r
    · exact (hg.leaves hnext r hi hl).trans (hs.lent i r hi).symm
    · rw [hg.touches hnext r hi hl]
      refine hs.rest r fun j => ?_
      by_cases hji : j = i
      · exact hji ▸ hi
      · simpa [Function.update_of_ne hji] using hr j

theorem owned_run (hg : Guarded next cell own Fits) (hs : ∀ i, own (s.thread i) = none)
    (h : run next s ms = some t) : Owned cell own Fits s.shared t :=
  run_invariant _ (fun _ _ _ _ => owned_step hg) (owned_initial hs) h

end Ownership

end Rgpot.Threads
