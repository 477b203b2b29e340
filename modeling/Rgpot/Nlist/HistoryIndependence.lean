import Rgpot.Nlist.Pool

/-! Which calls see the pool's history: only a reused capture with a pair at both boundaries. -/
namespace Rgpot.Nlist
open Lattice

variable {K : Type} [Field K] [LinearOrder K] [FloorRing K] [OutwardRoot K] {σ : Type}
variable {R : Positions K} {n : ℕ} {box : Box K} {opt : Options K}

/-- The slot found holds a capture that never listed a pair which is now at the cutoff. -/
def LosesPair (hit : Option (Slot K)) (R : Positions K) (n : ℕ) (box : Box K) (opt : Options K) :
    Prop :=
  ∃ slot, hit = some slot ∧ slot.list.phantom = false ∧ ∃ i j, i < j ∧ j < n ∧
    foldedR2 slot.list.Rref box opt i j = (opt.cutoff + opt.skin) * (opt.cutoff + opt.skin) ∧
    foldedR2 R box opt i j = opt.cutoff * opt.cutoff

variable [IsStrictOrderedRing K]

/-- A hit the pool can return to a call. -/
def Served (hit : Option (Slot K)) (R : Positions K) (n : ℕ) (box : Box K) (opt : Options K) :
    Prop :=
  ∀ x, hit = some x → FromBuild x.list ∧ x.list.valid R n box opt = true

theorem Reachable.served {st : PoolState K} (h : Reachable st) (R : Positions K) (n : ℕ)
    (box : Box K) (opt : Options K) : Served (lookup st.slots R n box opt).1 R n box opt := by
  obtain ⟨hhit, -⟩ := lookup_spec st.slots R n box opt
  exact fun x hx => ⟨(sound_reachable h).slots x (hhit x hx).1, (hhit x hx).2⟩

/-- A capture the pool returns was built for this call's box and has not expired. -/
theorem captured_of_served {slot : Slot K} (hs : FromBuild slot.list)
    (hv : slot.list.valid R n box opt = true) (hp : slot.list.phantom = false) :
    rebuild slot.list.Rref n box opt = .ok slot.list ∧
      (slot.list.complete = true ∨ Within R slot.list.Rref n opt) := by
  obtain ⟨hn, ho, hb, hw⟩ := valid_facts hv
  refine ⟨?_, hw⟩
  cases hs with
  | phantom hp' _ => simp [hp] at hp'
  | captured R₀ n₀ box₀ opt₀ hmic h₀ =>
    obtain ⟨l, hl, hst, -⟩ := rebuild_eq R₀ n₀
      (not_general_of_orthorhombic (orthorhombic_of_isMic hmic))
    rw [h₀] at hl
    cases hl
    rw [hst.n_eq] at hn
    rw [hst.opt_eq] at ho
    rw [hst.boxref_eq] at hb
    rw [hst.Rref_eq, ← hn, ← ho, ← hb, h₀]

/-- Every call without a lattice search sums the brute-force records, or those a capture
listed. -/
theorem accumulateWith_eq {hit : Option (Slot K)} (hhit : Served hit R n box opt)
    (hbox : isGeneral box opt = false) (hcut : 0 ≤ opt.cutoff) (hskin : 0 < opt.skin)
    (law : PairLaw K σ) (F : ℕ → Vec3 K) (obs : σ) : ∃ calls stored,
      accumulateWith hit R n box opt law F obs = .ok (summed law F obs calls, stored) ∧
      ((∀ slot, hit = some slot → slot.list.phantom ≠ false) ∧ calls = bruteForceCalls R n box opt ∨
        ∃ slot, hit = some slot ∧ slot.list.phantom = false ∧
        calls = visitsOf R n box opt (capturedAt slot.list.Rref box opt) ∧
        ((∀ i j, i < j → j < n → capturedAt slot.list.Rref box opt i j = true) ∨
          Within R slot.list.Rref n opt)) := by
  cases hit with
  | none =>
    obtain ⟨l, hl, -, hcalls⟩ := buildForEval_eq (R := R) (n := n) hbox
    refine ⟨_, if l.mic then some l.dropPairs else none, ?_, Or.inl ⟨fun slot h => (by cases h), rfl⟩⟩
    simp only [accumulateWith, hl, bind, Except.bind, accumulate_eq, hcalls]
    rfl
  | some slot =>
    obtain ⟨hfrom, hv⟩ := hhit slot rfl
    by_cases hp : slot.list.phantom = false
    · obtain ⟨hcap, hw⟩ := captured_of_served hfrom hv hp
      obtain ⟨l, hl, -, -, hall, hcalls⟩ := rebuild_eq slot.list.Rref n hbox
      rw [hcap] at hl
      cases hl
      refine ⟨_, none, ?_, Or.inr ⟨slot, rfl, hp, rfl, hw.imp_left hall⟩⟩
      simp only [accumulateWith, if_pos hp, bind, Except.bind, accumulate_eq,
        hcalls R hw hcut hskin.le]
      rfl
    · obtain ⟨l, hl, -, -, -, hcalls⟩ := rebuild_eq R n hbox
      have hself : Within R R n opt := by
        intro a _
        have hnn : 0 ≤ opt.skin * opt.skin := mul_self_nonneg _
        simp only [sub_self, sqNorm, Pi.zero_apply, mul_zero, add_zero]
        linarith
      -- a list captured at these positions misses nothing within the cutoff
      have hcalls' : visitsOf R n box opt (capturedAt R box opt) = bruteForceCalls R n box opt := by
        rw [captured_calls_iff (Or.inr hself) hcut hskin]
        rintro ⟨i, j, -, -, hfar, hat⟩
        rw [hfar] at hat
        nlinarith
      refine ⟨_, some l, ?_, Or.inl ⟨fun slot' h => (by cases h; exact hp), hcalls'⟩⟩
      simp only [accumulateWith, if_neg hp, hl, bind, Except.bind, accumulate_eq,
        hcalls R (Or.inr hself) hcut hskin.le]
      rfl

/-- Whatever calls came before and however their steps interleaved, a call on an orthorhombic
box hands its kernel the brute-force records in their order, unless it reuses a capture that
misses a pair at both boundaries; each record carries a nearest image of `r_i - r_j`. -/
theorem accumulate_calls_iff {st : PoolState K} (hst : Reachable st)
    (hbox : orthorhombic box = true) (hskin : 0 < opt.skin) (hcut : 0 ≤ opt.cutoff)
    (law : PairLaw K σ) (F : ℕ → Vec3 K) (obs : σ) :
    (∃ sums stored, accumulateWith (lookup st.slots R n box opt).1 R n box opt law F obs =
        .ok (sums, stored) ∧
      (sums.trace = bruteForceCalls R n box opt ↔
        ¬ LosesPair (lookup st.slots R n box opt).1 R n box opt)) ∧
    ∀ v ∈ bruteForceCalls R n box opt, v.r2 = sqNorm v.d ∧
      IsNearest (Matrix.diagonal (foldWidth box)) (foldAxes box opt) (R v.i - R v.j) v.d := by
  constructor
  · obtain ⟨calls, stored, hrun, hcalls⟩ := accumulateWith_eq (hst.served R n box opt)
      (not_general_of_orthorhombic hbox) hcut hskin law F obs
    refine ⟨_, stored, hrun, ?_⟩
    rw [summed_trace]
    rcases hcalls with ⟨hfresh, rfl⟩ | ⟨slot, hslot, hp, rfl, hw⟩
    · refine iff_of_true rfl ?_
      rintro ⟨slot, hslot, hp, -⟩
      exact hfresh slot hslot hp
    · rw [captured_calls_iff hw hcut hskin]
      constructor
      · rintro h ⟨slot', hslot', -, i, j, hij, hj, hfar, hat⟩
        rw [hslot] at hslot'
        cases hslot'
        exact h ⟨i, j, hij, hj, hfar, hat⟩
      · rintro h ⟨i, j, hij, hj, hfar, hat⟩
        exact h ⟨slot, hslot, hp, i, j, hij, hj, hfar, hat⟩
  · intro v hv
    rw [bruteForceCalls_eq, visitsOf, List.mem_filter] at hv
    obtain ⟨p, -, rfl⟩ := List.mem_map.mp hv.1
    exact ⟨rfl, foldDiag_isNearest box opt _⟩

section Boundary

/-- The first store still owed. -/
def PoolState.settle (st : PoolState K) : PoolState K :=
  match st.pending with
  | [] => st
  | (fresh, hit) :: rest => ⟨store st.slots ⟨st.nextId, fresh⟩ hit, rest, st.nextId + 1⟩

omit [IsStrictOrderedRing K] in
theorem Reachable.settle {st : PoolState K} (h : Reachable st) : Reachable st.settle := by
  obtain ⟨slots, pending, nextId⟩ := st
  cases pending with
  | nil => exact h
  | cons p rest => exact h.tail (Step.store slots [] rest p.1 p.2 nextId)

def unitLaw : PairLaw ℚ Unit := ⟨fun _ _ _ => ⟨1, 0⟩, fun _ _ _ => ()⟩

def twoAtoms (x y : ℚ) : Positions ℚ := fun a => if a = 0 then ![x, 0, 0] else ![y, 0, 0]

/-- A two-atom call that runs alone. -/
def PoolState.serve (st : PoolState ℚ) (R : Positions ℚ) : PoolState ℚ :=
  (st.call R 2 cubicBox unitOptions fun hit =>
    accumulateWith hit R 2 cubicBox unitOptions unitLaw (fun _ => 0) ()).settle

theorem Reachable.serve {st : PoolState ℚ} (h : Reachable st) (R : Positions ℚ) :
    Reachable (st.serve R) :=
  Reachable.settle (h.tail (Step.accumulate st R 2 cubicBox unitOptions unitLaw (fun _ => 0) ()))

/-- Two calls capture a pair at distance 2; the third finds it at distance 1. -/
def capturedPool : PoolState ℚ := (PoolState.initial.serve (twoAtoms 0 2)).serve (twoAtoms 0 2)

theorem capturedPool_reachable : Reachable capturedPool :=
  Reachable.serve (Reachable.serve Relation.ReflTransGen.refl _) _

theorem accumulate_calls_iff_captured :
    (∃ sums stored, accumulateWith
        (lookup capturedPool.slots (twoAtoms (1 / 2) (3 / 2)) 2 cubicBox unitOptions).1
        (twoAtoms (1 / 2) (3 / 2)) 2 cubicBox unitOptions unitLaw (fun _ => 0) () =
        .ok (sums, stored) ∧
      (sums.trace = bruteForceCalls (twoAtoms (1 / 2) (3 / 2)) 2 cubicBox unitOptions ↔
        ¬ LosesPair (lookup capturedPool.slots (twoAtoms (1 / 2) (3 / 2)) 2 cubicBox unitOptions).1
          (twoAtoms (1 / 2) (3 / 2)) 2 cubicBox unitOptions)) ∧
    ∀ v ∈ bruteForceCalls (twoAtoms (1 / 2) (3 / 2)) 2 cubicBox unitOptions, v.r2 = sqNorm v.d ∧
      IsNearest (Matrix.diagonal (foldWidth cubicBox)) (foldAxes cubicBox unitOptions)
        (twoAtoms (1 / 2) (3 / 2) v.i - twoAtoms (1 / 2) (3 / 2) v.j) v.d :=
  accumulate_calls_iff capturedPool_reachable (by decide +kernel) (by decide +kernel)
    (by decide +kernel) unitLaw (fun _ => 0) ()

/-- The brute-force sequence is not reached from every pool: both atoms moved by exactly half
the skin, and the pair now at the cutoff was never listed. -/
theorem not_history_independent : ¬ ∀ st : PoolState ℚ, Reachable st →
    ∀ (R : Positions ℚ) (n : ℕ) (box : Box ℚ) (opt : Options ℚ), orthorhombic box = true →
    0 < opt.skin → ∃ sums stored,
      accumulateWith (lookup st.slots R n box opt).1 R n box opt unitLaw (fun _ => 0) () =
        .ok (sums, stored) ∧ sums.trace = bruteForceCalls R n box opt := by
  intro h
  obtain ⟨sums, stored, hrun, htrace⟩ := h capturedPool capturedPool_reachable
    (twoAtoms (1 / 2) (3 / 2)) 2 cubicBox unitOptions (by decide +kernel) (by decide +kernel)
  have hnone : (accumulateWith
      (lookup capturedPool.slots (twoAtoms (1 / 2) (3 / 2)) 2 cubicBox unitOptions).1
      (twoAtoms (1 / 2) (3 / 2)) 2 cubicBox unitOptions unitLaw (fun _ => 0) ()).toOption.map
        (fun r => r.1.trace) = some [] := by
    decide +kernel
  have hone : bruteForceCalls (twoAtoms (1 / 2) (3 / 2)) 2 cubicBox unitOptions ≠ [] := by
    decide +kernel
  rw [hrun] at hnone
  exact hone (htrace ▸ Option.some.inj hnone)

end Boundary
end Rgpot.Nlist
