import Rgpot.Calculators.Binding

/-! Every order of registrations and binds: a refusal is final, and an accepted index was returned by
everyone who was asked. -/
namespace Rgpot.Calculators
namespace Process

variable {Hook Adopter : Type}
  {s t : Process Hook Adopter} {w : World} {a : Adopter} {answer : ℤ}
  {es es' : List (Event Hook Adopter)}

/-- What the registration of an adopter can do. -/
inductive Registers (a : Adopter) (answer : ℤ) (s : Process Hook Adopter) :
    Process Hook Adopter → Prop
  | again : a ∈ s.adopters → Registers a answer s s
  | late : s.bound = true → s.group.index < 0 → Registers a answer s s
  | queued : a ∉ s.adopters → s.bound = false →
      Registers a answer s { s with adopters := s.adopters ++ [a] }
  | unsplit : a ∉ s.adopters → s.bound = true →
      Registers a answer s { s with adopters := s.adopters ++ [a] }.refuse
  | rejected (c : Adoption Adopter) : a ∉ s.adopters → s.bound = true → c.callback = a →
      Registers a answer s
        { s with adopters := s.adopters ++ [a], adoptions := s.adoptions ++ [c] }.refuse
  | accepted (mpi : MpiSide) (c : ℤ) : a ∉ s.adopters → s.bound = true → s.api = some mpi →
      mpi.adopted = some c →
      Registers a answer s
        { s with adopters := s.adopters ++ [a]
                 adoptions := s.adoptions ++ [⟨a, c, mpi.group.ranks, s.group.index⟩] }

theorem Registers.mem (h : Registers a answer s t) (hge : -1 ≤ s.group.index) :
    a ∈ t.adopters ∨ Refused t := by
  cases h with
  | again ha => exact Or.inl ha
  | late hb hi => exact Or.inr ⟨hb, by omega⟩
  | queued => exact Or.inl (by simp)
  | unsplit => exact Or.inl (by simp [refuse])
  | rejected => exact Or.inl (by simp [refuse])
  | accepted => exact Or.inl (by simp)

theorem Registers.adopters_subset (h : Registers a answer s t) : s.adopters ⊆ t.adopters := by
  cases h with
  | again => exact List.Subset.refl _
  | late => exact List.Subset.refl _
  | _ => exact List.subset_append_left _ _

theorem Registers.hooks_eq (h : Registers a answer s t) :
    t.hooks = s.hooks ∧ t.hookCalls = s.hookCalls := by
  cases h <;> exact ⟨rfl, rfl⟩

variable [DecidableEq Adopter]

theorem addCalculatorCommAdopter_registers (s : Process Hook Adopter) (a : Adopter) (answer : ℤ) :
    Registers a answer s (s.addCalculatorCommAdopter (some a) answer).2 := by
  by_cases ha : a ∈ s.adopters
  · simp only [addCalculatorCommAdopter, if_pos ha]
    exact .again ha
  by_cases hlate : s.bound = true ∧ s.group.index < 0
  · simp only [addCalculatorCommAdopter, if_neg ha, if_pos hlate]
    exact .late hlate.1 hlate.2
  by_cases hb : s.bound = true
  · simp only [addCalculatorCommAdopter, if_neg ha, if_neg hlate, if_pos hb]
    cases hcomm : s.comm with
    | none =>
      have hne : (-1 : ℤ) ≠ s.group.index := fun h => hlate ⟨hb, by omega⟩
      rw [adoptCalculatorComm_of_none (by exact hcomm)]
      simp only [if_pos hne]
      exact .unsplit ha hb
    | some c =>
      obtain ⟨mpi, hapi, hc⟩ := Option.bind_eq_some_iff.mp hcomm
      rw [adoptCalculatorComm_of_some (by exact hapi) hc]
      by_cases hanswer : answer = s.group.index
      · simp only [hanswer, ne_eq, not_true_eq_false, if_false]
        exact .accepted mpi c ha hb hapi hc
      · simp only [if_pos (show answer ≠ s.group.index from hanswer)]
        exact .rejected ⟨a, c, mpi.group.ranks, answer⟩ ha hb rfl
  · simp only [addCalculatorCommAdopter, if_neg ha, if_neg hlate, if_neg hb]
    exact .queued ha (by simpa using hb)

theorem hooks_addCalculatorCommAdopter (callback : Option Adopter) :
    (s.addCalculatorCommAdopter callback answer).2.hooks = s.hooks := by
  cases callback with
  | none => rfl
  | some a => exact (addCalculatorCommAdopter_registers s a answer).hooks_eq.1

theorem hookCalls_addCalculatorCommAdopter (callback : Option Adopter) :
    (s.addCalculatorCommAdopter callback answer).2.hookCalls = s.hookCalls := by
  cases callback with
  | none => rfl
  | some a => exact (addCalculatorCommAdopter_registers s a answer).hooks_eq.2

/-- The callbacks that were called are registered; in an accepted split each adopter was called once,
with the communicator of the index it returned. -/
structure Sound (s : Process Hook Adopter) : Prop where
  index_ge : -1 ≤ s.group.index
  nodup : s.adopters.Nodup
  registered : ∀ c ∈ s.adoptions, c.callback ∈ s.adopters
  unbound : s.bound = false → s.adoptions = []
  comm : s.bound = true → s.group.index ≠ -1 → ∀ mpi c, s.api = some mpi →
    mpi.adopted = some c → c = s.group.index ∧ mpi.group.ranks = s.group.ranks
  accepted : s.bound = true → s.group.index ≠ -1 → ∀ a ∈ s.adopters,
    s.adoptions.filter (·.callback = a) = [⟨a, s.group.index, s.group.ranks, s.group.index⟩]

theorem filter_callback_eq_nil {adoptions : List (Adoption Adopter)}
    (h : ∀ c ∈ adoptions, c.callback ∈ s.adopters) (ha : a ∉ s.adopters) :
    adoptions.filter (·.callback = a) = [] := by
  rw [List.filter_eq_nil_iff]
  intro c hc hca
  exact ha (of_decide_eq_true hca ▸ h c hc)

/-- Each registered adopter is called once in a bind. -/
theorem filter_callback_map {adopters : List Adopter} (hnodup : adopters.Nodup)
    (ha : a ∈ adopters) (f : Adopter → Adoption Adopter) (hf : ∀ b, (f b).callback = b) :
    (adopters.map f).filter (·.callback = a) = [f a] := by
  have hcomp : ((fun c : Adoption Adopter => decide (c.callback = a)) ∘ f) =
      fun b => decide (b = a) := by
    funext b
    simp [hf]
  rw [List.filter_map, hcomp]
  rw [List.filter_eq, List.count_eq_one_of_mem hnodup ha]
  rfl

theorem Sound.initial : Sound ({} : Process Hook Adopter) where
  index_ge := by simp
  nodup := List.nodup_nil
  registered := by simp
  unbound _ := rfl
  comm h := by cases h
  accepted h := by cases h

theorem Sound.loadCalculatorMpi (h : Sound s) (ok : Bool) : Sound (s.loadCalculatorMpi ok) where
  index_ge := by simpa using h.index_ge
  nodup := by simpa using h.nodup
  registered := by simpa using h.registered
  unbound := by simpa using h.unbound
  comm hb hi mpi c hapi hc := by
    simp only [loadCalculatorMpi_bound, loadCalculatorMpi_group] at hb hi ⊢
    exact h.comm hb hi mpi c (loadCalculatorMpi_adopted ok hapi hc) hc
  accepted := by simpa using h.accepted

theorem Sound.nodup_concat (h : Sound s) (ha : a ∉ s.adopters) : (s.adopters ++ [a]).Nodup := by
  rw [← List.concat_eq_append]
  exact h.nodup.concat ha

theorem Sound.registers (h : Sound s) (ht : Registers a answer s t) : Sound t := by
  cases ht with
  | again => exact h
  | late => exact h
  | queued ha hb =>
    exact {
      index_ge := h.index_ge
      nodup := h.nodup_concat ha
      registered := by simp [h.unbound hb]
      unbound := h.unbound
      comm := fun hb' => by simp [hb] at hb'
      accepted := fun hb' => by simp [hb] at hb' }
  | unsplit ha hb =>
    exact {
      index_ge := le_rfl
      nodup := h.nodup_concat ha
      registered := fun c hc => List.mem_append_left _ (h.registered c hc)
      unbound := h.unbound
      comm := fun _ hi => absurd rfl hi
      accepted := fun _ hi => absurd rfl hi }
  | rejected c ha hb hca =>
    exact {
      index_ge := le_rfl
      nodup := h.nodup_concat ha
      registered := by
        intro d hd
        rcases List.mem_append.mp hd with hd | hd
        · exact List.mem_append_left _ (h.registered d hd)
        · obtain rfl := List.mem_singleton.mp hd
          simp [hca, refuse]
      unbound := fun hb' => by simp [refuse, hb] at hb'
      comm := fun _ hi => absurd rfl hi
      accepted := fun _ hi => absurd rfl hi }
  | accepted mpi c ha hb hapi hc =>
    exact {
      index_ge := h.index_ge
      nodup := h.nodup_concat ha
      registered := by
        intro d hd
        rcases List.mem_append.mp hd with hd | hd
        · exact List.mem_append_left _ (h.registered d hd)
        · obtain rfl := List.mem_singleton.mp hd
          simp
      unbound := fun hb' => by simp [hb] at hb'
      comm := h.comm
      accepted := by
        intro _ hi b hmem
        obtain ⟨hindex, hranks⟩ := h.comm hb hi mpi c hapi hc
        rcases List.mem_append.mp hmem with hmem | hmem
        · have hne : a ≠ b := fun hab => ha (hab ▸ hmem)
          simpa [List.filter_append, hne] using h.accepted hb hi b hmem
        · obtain rfl := List.mem_singleton.mp hmem
          have hnone := filter_callback_eq_nil h.registered ha
          simp [List.filter_append, hnone, hindex, hranks] }

theorem Sound.binds {r : ℤ} {loads split : Bool} {hook : Hook → ℤ} {adopter : Adopter → ℤ}
    (h : Sound s) (hb : s.bound = false) (ht : Binds w r loads split hook adopter s t) : Sound t where
  index_ge := ht.index_ge
  nodup := ht.adopters ▸ h.nodup
  registered := by
    intro c hc
    by_cases hmade : MadeSplit w r loads split s
    · obtain ⟨-, hadoptions, -⟩ := ht.asked hmade
      rw [hadoptions, h.unbound hb, List.nil_append] at hc
      obtain ⟨a, ha, rfl⟩ := List.mem_map.mp hc
      exact ht.adopters ▸ ha
    · rw [(ht.unasked hmade).1, h.unbound hb] at hc
      cases hc
  unbound hunbound := by simp [ht.bound] at hunbound
  comm _ hi mpi c hapi hc := ht.comm mpi c hapi hc hi
  accepted := by
    intro _ hi a ha
    rw [ht.adopters] at ha
    by_cases hmade : MadeSplit w r loads split s
    · obtain ⟨hranks, hadoptions, hstands⟩ := ht.asked hmade
      obtain ⟨hindex, hanswers⟩ := hstands hi
      rw [hadoptions, h.unbound hb, List.nil_append,
        filter_callback_map h.nodup ha _ fun _ => rfl, hanswers a ha, hindex, hranks]
    · rw [(ht.unasked hmade).2 hi] at ha
      cases ha

variable [DecidableEq Hook]

theorem Refused.step (h : Refused s) (e : Event Hook Adopter) : Refused (s.step w e) := by
  obtain ⟨hb, hi⟩ := h
  cases e with
  | addCalculatorHook hook =>
    cases hook with
    | none => exact ⟨hb, hi⟩
    | some h =>
      simp only [Process.step, addCalculatorHook]
      split <;> exact ⟨hb, hi⟩
  | addCalculatorCommAdopter callback answer =>
    cases callback with
    | none => exact ⟨hb, hi⟩
    | some a =>
      have hreg := addCalculatorCommAdopter_registers s a answer
      simp only [Process.step]
      generalize (s.addCalculatorCommAdopter (some a) answer).2 = t at hreg
      cases hreg <;> first | exact ⟨hb, hi⟩ | exact ⟨hb, rfl⟩
  | loadCalculatorMpi ok => simpa [Refused, Process.step] using ⟨hb, hi⟩
  | bindCalculators r loads split hook adopter =>
    simpa [Refused, Process.step, bindCalculators_of_bound hb] using ⟨hb, hi⟩

theorem run_append (es es' : List (Event Hook Adopter)) :
    run w (es ++ es') = es'.foldl (step w) (run w es) := List.foldl_append

theorem Refused.run (h : Refused s) (es : List (Event Hook Adopter)) :
    Refused (es.foldl (Process.step w) s) := by
  induction es generalizing s with
  | nil => exact h
  | cons e es ih => exact ih (h.step e)

theorem Sound.step (h : Sound s) (e : Event Hook Adopter) : Sound (s.step w e) := by
  cases e with
  | addCalculatorHook hook =>
    cases hook with
    | none => exact h
    | some k =>
      simp only [Process.step, addCalculatorHook]
      split
      · exact h
      · exact ⟨h.index_ge, h.nodup, h.registered, h.unbound, h.comm, h.accepted⟩
  | addCalculatorCommAdopter callback answer =>
    cases callback with
    | none => exact h
    | some a => exact h.registers (addCalculatorCommAdopter_registers _ a answer)
  | loadCalculatorMpi ok => exact h.loadCalculatorMpi ok
  | bindCalculators r loads split hook adopter =>
    simp only [Process.step]
    cases hb : s.bound with
    | false => exact h.binds hb (bindCalculators_binds hb w r loads split hook adopter)
    | true =>
      rw [bindCalculators_of_bound hb]
      exact h.loadCalculatorMpi loads

theorem sound_run (es : List (Event Hook Adopter)) : Sound (run w es) := by
  induction es using List.reverseRecOn with
  | nil => exact Sound.initial
  | append_singleton es e ih =>
    rw [run_append]
    exact ih.step e

theorem adopters_subset_step (e : Event Hook Adopter) : s.adopters ⊆ (s.step w e).adopters := by
  cases e with
  | addCalculatorHook hook =>
    cases hook with
    | none => exact List.Subset.refl _
    | some k =>
      simp only [Process.step, addCalculatorHook]
      split <;> exact List.Subset.refl _
  | addCalculatorCommAdopter callback answer =>
    cases callback with
    | none => exact List.Subset.refl _
    | some a => exact (addCalculatorCommAdopter_registers _ a answer).adopters_subset
  | loadCalculatorMpi ok => simp [Process.step]
  | bindCalculators r loads split hook adopter =>
    simp only [Process.step]
    cases hb : s.bound with
    | false => simp [(bindCalculators_binds hb w r loads split hook adopter).adopters]
    | true => simp [bindCalculators_of_bound hb]

theorem mem_adopters_run (h : .addCalculatorCommAdopter (some a) answer ∈ es) :
    a ∈ (run w es).adopters ∨ Refused (run w es) := by
  induction es using List.reverseRecOn with
  | nil => cases h
  | append_singleton es e ih =>
    rw [run_append]
    rcases List.mem_append.mp h with h | h
    · rcases ih h with hmem | hrefused
      · exact Or.inl (adopters_subset_step e hmem)
      · exact Or.inr (hrefused.step e)
    · obtain rfl := List.mem_singleton.mp h
      exact (addCalculatorCommAdopter_registers _ _ _).mem (sound_run es).index_ge

theorem hooks_subset_step (e : Event Hook Adopter) : s.hooks ⊆ (s.step w e).hooks := by
  cases e with
  | addCalculatorHook hook =>
    cases hook with
    | none => exact List.Subset.refl _
    | some k =>
      simp only [Process.step, addCalculatorHook]
      split
      · exact List.Subset.refl _
      · exact List.subset_append_left _ _
  | addCalculatorCommAdopter callback answer =>
    simp [Process.step, hooks_addCalculatorCommAdopter]
  | loadCalculatorMpi ok => simp [Process.step]
  | bindCalculators r loads split hook adopter =>
    simp only [Process.step]
    cases hb : s.bound with
    | false => simp [(bindCalculators_binds hb w r loads split hook adopter).hooks_eq]
    | true => simp [bindCalculators_of_bound hb]

theorem mem_hooks_run {k : Hook} (h : .addCalculatorHook (some k) ∈ es) : k ∈ (run w es).hooks := by
  induction es using List.reverseRecOn with
  | nil => cases h
  | append_singleton es e ih =>
    rw [run_append]
    rcases List.mem_append.mp h with h | h
    · exact hooks_subset_step e (ih h)
    · obtain rfl := List.mem_singleton.mp h
      simp only [List.foldl_cons, List.foldl_nil, Process.step, addCalculatorHook]
      split
      · assumption
      · simp

theorem hookCalls_subset_step (e : Event Hook Adopter) :
    s.hookCalls ⊆ (s.step w e).hookCalls := by
  cases e with
  | addCalculatorHook hook =>
    cases hook with
    | none => exact List.Subset.refl _
    | some k =>
      simp only [Process.step, addCalculatorHook]
      split <;> exact List.Subset.refl _
  | addCalculatorCommAdopter callback answer =>
    simp [Process.step, hookCalls_addCalculatorCommAdopter]
  | loadCalculatorMpi ok => simp [Process.step]
  | bindCalculators r loads split hook adopter =>
    simp only [Process.step]
    cases hb : s.bound with
    | false =>
      obtain ⟨rpc, hcalls⟩ := (bindCalculators_binds hb w r loads split hook adopter).hookCalls
      exact hcalls ▸ List.subset_append_left _ _
    | true => simp [bindCalculators_of_bound hb]

theorem hookCalls_subset_run (es : List (Event Hook Adopter)) :
    s.hookCalls ⊆ (es.foldl (Process.step w) s).hookCalls := by
  induction es generalizing s with
  | nil => exact List.Subset.refl _
  | cons e es ih => exact List.Subset.trans (hookCalls_subset_step e) ih

section Accepted
variable {r : ℤ} {loads split : Bool} {hook : Hook → ℤ} {adopter : Adopter → ℤ}

/-- Hooks registered before an accepted bind were asked and all accepted it. -/
theorem hook_nonneg_of_accepted {before after : List (Event Hook Adopter)} {k : Hook}
    (hb : (run w before).bound = false) (hk : .addCalculatorHook (some k) ∈ before)
    (hi : (run w (before ++ .bindCalculators r loads split hook adopter :: after)).group.index ≠ -1) :
    (∃ rpc, ⟨k, rpc, hook k⟩ ∈
      (run w (before ++ .bindCalculators r loads split hook adopter :: after)).hookCalls) ∧
      0 ≤ hook k := by
  have hbinds := bindCalculators_binds hb w r loads split hook adopter
  have hmem := mem_hooks_run (w := w) hk
  rw [run_append, List.foldl_cons] at hi ⊢
  refine ⟨?_, hbinds.hooks ?_ k hmem⟩
  · obtain ⟨rpc, hcalls⟩ := hbinds.hookCalls
    refine ⟨rpc, hookCalls_subset_run after ?_⟩
    rw [Process.step, hcalls]
    exact List.mem_append_right _ (List.mem_map_of_mem hmem)
  · intro hrefused
    exact hi (Refused.run ⟨hbinds.bound, hrefused⟩ after).2

/-- Every adopter registered by then is called in a bind that splits the world, whoever refuses. -/
theorem adoption_of_madeSplit {before : List (Event Hook Adopter)}
    (hb : (run w before).bound = false) (ha : .addCalculatorCommAdopter (some a) answer ∈ before)
    (hmade : MadeSplit w r loads split (run w before)) :
    (run w (before ++ [.bindCalculators r loads split hook adopter])).adoptions.filter
        (·.callback = a) =
      [⟨a, w.rank / ranksPerCalculator w.size r, ranksPerCalculator w.size r, adopter a⟩] := by
  have hbinds := bindCalculators_binds hb w r loads split hook adopter
  have hsound := sound_run (w := w) before
  have hmem : a ∈ (run w before).adopters := by
    rcases mem_adopters_run (w := w) ha with hmem | ⟨hbound, -⟩
    · exact hmem
    · simp [hb] at hbound
  rw [run_append]
  simp only [List.foldl_cons, List.foldl_nil, Process.step]
  rw [(hbinds.asked hmade).2.1, hsound.unbound hb, List.nil_append]
  exact filter_callback_map hsound.nodup hmem _ fun _ => rfl

end Accepted

/-- For every order of registrations and binds: a refusal is final; an index that stands was accepted
by every hook registered before the bind and returned, for the one call with the split, by every
adopter registered at any time; and a bind that splits the world calls every adopter registered
before it, whatever the callbacks answer. -/
theorem binding_contract (w : World) (es : List (Event Hook Adopter)) :
    ((run w es).bound = true → (run w es).group.index = -1 →
      ∀ es', (run w (es ++ es')).group.index = -1) ∧
    ((run w es).bound = true → (run w es).group.index ≠ -1 →
      (∀ before after r loads split hook adopter k,
        es = before ++ .bindCalculators r loads split hook adopter :: after →
        (run w before).bound = false → .addCalculatorHook (some k) ∈ before →
          (∃ rpc, ⟨k, rpc, hook k⟩ ∈ (run w es).hookCalls) ∧ 0 ≤ hook k) ∧
      ∀ a answer, .addCalculatorCommAdopter (some a) answer ∈ es →
        (run w es).adoptions.filter (·.callback = a) =
          [⟨a, (run w es).group.index, (run w es).group.ranks, (run w es).group.index⟩]) ∧
    ((run w es).bound = false → ∀ r loads split hook adopter,
      MadeSplit w r loads split (run w es) →
      ∀ a answer, .addCalculatorCommAdopter (some a) answer ∈ es →
        (run w (es ++ [.bindCalculators r loads split hook adopter])).adoptions.filter
            (·.callback = a) =
          [⟨a, w.rank / ranksPerCalculator w.size r, ranksPerCalculator w.size r, adopter a⟩]) := by
  refine ⟨?_, ?_, ?_⟩
  · intro hb hi es'
    rw [run_append]
    exact (Refused.run ⟨hb, hi⟩ es').2
  · intro hb hi
    refine ⟨?_, ?_⟩
    · rintro before after r loads split hook adopter k rfl hbefore hk
      exact hook_nonneg_of_accepted hbefore hk hi
    · intro a answer ha
      rcases mem_adopters_run (w := w) ha with hmem | hrefused
      · exact (sound_run es).accepted hb hi a hmem
      · exact absurd hrefused.2 hi
  · intro hb r loads split hook adopter hmade a answer ha
    exact adoption_of_madeSplit hb ha hmade

/-- Two calculators of one rank: the adopter registered before the bind returned the index. -/
theorem binding_contract_two_ranks :
    (run ⟨2, 1, by decide⟩ [.addCalculatorHook (some 7), .addCalculatorCommAdopter (some 3) 0,
        .bindCalculators 1 true true (fun _ => 0) fun _ => 1]).adoptions.filter
      (·.callback = 3) = [(⟨3, 1, 1, 1⟩ : Adoption ℕ)] := by
  have h := (binding_contract ⟨2, 1, by decide⟩
    ([.addCalculatorHook (some 7), .addCalculatorCommAdopter (some 3) 0,
      .bindCalculators 1 true true (fun _ => 0) fun _ => 1] : List (Event ℕ ℕ))).2.1
    (by decide) (by decide)
  exact h.2 3 0 (by simp)

/-- Without an MPI side there is no split to give, and an adopter is not called. -/
theorem adopter_not_called_without_mpi :
    ¬ ∀ (w : World) (es : List (Event ℕ ℕ)), (run w es).bound = false →
      ∀ r loads split hook adopter a answer, .addCalculatorCommAdopter (some a) answer ∈ es →
        ∃ c ∈ (run w (es ++ [.bindCalculators r loads split hook adopter])).adoptions,
          c.callback = a := by
  intro h
  obtain ⟨c, hc, -⟩ := h ⟨1, 0, by decide⟩ [.addCalculatorCommAdopter (some 3) 0] (by decide)
    1 false false (fun _ => 0) (fun _ => 0) 3 0 (by simp)
  simp [run, Process.step, addCalculatorCommAdopter, bindCalculators, Process.loadCalculatorMpi,
    splitWorld, askAdopter, adoptCalculatorComm, refuse] at hc

end Process
end Rgpot.Calculators
