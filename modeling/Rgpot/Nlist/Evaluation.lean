import Rgpot.Nlist.Rows
import Rgpot.Lib.Fallible

/-! The fused force loop as sums over the records that reach the kernel. -/
namespace Rgpot.Nlist
open Fallible

variable {K : Type} [Field K] {σ : Type}

section Sums

/-- `fscale * d` of one record. -/
def recordForce (law : PairLaw K σ) (v : Visit K) : Vec3 K := fun k =>
  (law.kernel v.i v.j v.r2).fscale * v.d k

/-- What one record adds to the force of atom `a`. -/
def pairForce (law : PairLaw K σ) (a : ℕ) (v : Visit K) : Vec3 K :=
  (if v.i = a then recordForce law v else 0) - if v.j = a then recordForce law v else 0

/-- The sums after some more records. -/
def Sums.extend (law : PairLaw K σ) (s : Sums K σ) (vs : List (Visit K)) : Sums K σ where
  energy := s.energy + (vs.map fun v => (law.kernel v.i v.j v.r2).energy).sum
  F a := s.F a + (vs.map (pairForce law a)).sum
  obs := vs.foldl (fun o v => law.observe o (law.kernel v.i v.j v.r2).fscale v.d) s.obs
  trace := s.trace ++ vs

/-- The sums of a whole evaluation. -/
def summed (law : PairLaw K σ) (F : ℕ → Vec3 K) (obs : σ) (vs : List (Visit K)) : Sums K σ :=
  Sums.extend law ⟨0, F, obs, []⟩ vs

theorem Sums.extend_nil (law : PairLaw K σ) (s : Sums K σ) : s.extend law [] = s := by
  simp [Sums.extend]

theorem Sums.extend_append (law : PairLaw K σ) (s : Sums K σ) (vs ws : List (Visit K)) :
    s.extend law (vs ++ ws) = (s.extend law vs).extend law ws := by
  simp [Sums.extend, add_assoc]

@[simp] theorem summed_trace (law : PairLaw K σ) (F : ℕ → Vec3 K) (obs : σ) (vs : List (Visit K)) :
    (summed law F obs vs).trace = vs := by
  simp [summed, Sums.extend]

@[simp] theorem summed_energy (law : PairLaw K σ) (F : ℕ → Vec3 K) (obs : σ)
    (vs : List (Visit K)) : (summed law F obs vs).energy =
      (vs.map fun v => (law.kernel v.i v.j v.r2).energy).sum := by
  simp [summed, Sums.extend]

@[simp] theorem summed_F (law : PairLaw K σ) (F : ℕ → Vec3 K) (obs : σ) (vs : List (Visit K))
    (a : ℕ) : (summed law F obs vs).F a = F a + (vs.map (pairForce law a)).sum := by
  simp [summed, Sums.extend]

@[simp] theorem summed_obs (law : PairLaw K σ) (F : ℕ → Vec3 K) (obs : σ) (vs : List (Visit K)) :
    (summed law F obs vs).obs =
      vs.foldl (fun o v => law.observe o (law.kernel v.i v.j v.r2).fscale v.d) obs := by
  simp [summed, Sums.extend]

end Sums

variable [LinearOrder K]

section Row
open CachedPairList

/-- One row before its register force is written back. -/
theorem foldl_pairStep (law : PairLaw K σ) (c2 : K) (vs : List (Visit K)) (s : Sums K σ)
    (fi : Vec3 K) :
    vs.foldl (pairStep law c2) (s, fi) =
      ({ s.extend law (vs.filter fun v => v.r2 ≤ c2) with
         F := fun a => s.F a - ((vs.filter fun v => v.r2 ≤ c2).map
          fun v => if v.j = a then recordForce law v else 0).sum },
        fi + ((vs.filter fun v => v.r2 ≤ c2).map (recordForce law)).sum) := by
  induction vs generalizing s fi with
  | nil => simp [Sums.extend]
  | cons v vs ih =>
    rw [List.foldl_cons]
    by_cases hv : v.r2 ≤ c2
    · rw [show pairStep law c2 (s, fi) v =
          ({ energy := s.energy + (law.kernel v.i v.j v.r2).energy
             F := Function.update s.F v.j (s.F v.j - recordForce law v)
             obs := law.observe s.obs (law.kernel v.i v.j v.r2).fscale v.d
             trace := s.trace ++ [v] }, fi + recordForce law v) by
        simp only [pairStep, if_pos hv]
        rfl]
      rw [ih, List.filter_cons_of_pos (by simpa using hv)]
      simp only [Sums.extend, List.map_cons, List.sum_cons, List.foldl_cons, Prod.mk.injEq,
        Sums.mk.injEq, add_assoc, List.append_assoc, List.singleton_append, and_true, true_and]
      funext a
      by_cases ha : v.j = a
      · subst ha
        simp [sub_sub]
      · rw [Function.update_of_ne (Ne.symm ha), if_neg ha, zero_add]
    · rw [show pairStep law c2 (s, fi) v = (s, fi) by simp only [pairStep, if_neg hv]]
      rw [ih, List.filter_cons_of_neg (by simpa using hv)]

omit [LinearOrder K] in
theorem sum_pairForce_row (law : PairLaw K σ) {i : ℕ} {vs : List (Visit K)}
    (hi : ∀ v ∈ vs, v.i = i) (a : ℕ) :
    (vs.map (pairForce law a)).sum = (if a = i then (vs.map (recordForce law)).sum else 0) -
      (vs.map fun v => if v.j = a then recordForce law v else 0).sum := by
  induction vs with
  | nil => simp
  | cons v vs ih =>
    have hv := hi v List.mem_cons_self
    simp only [List.map_cons, List.sum_cons, ih fun w hw => hi w (List.mem_cons_of_mem _ hw),
      pairForce, hv]
    by_cases ha : a = i
    · simp only [ha, if_true]
      abel
    · simp only [if_neg ha, if_neg (Ne.symm ha)]
      abel

/-- A whole row extends the sums by its records within the cutoff. -/
theorem row_eq_extend (law : PairLaw K σ) (c2 : K) {i : ℕ} {vs : List (Visit K)}
    (hi : ∀ v ∈ vs, v.i = i) (s : Sums K σ) :
    { (vs.foldl (pairStep law c2) (s, 0)).1 with
      F := Function.update (vs.foldl (pairStep law c2) (s, 0)).1.F i
        ((vs.foldl (pairStep law c2) (s, 0)).1.F i + (vs.foldl (pairStep law c2) (s, 0)).2) } =
      s.extend law (vs.filter fun v => v.r2 ≤ c2) := by
  rw [foldl_pairStep]
  simp only [Sums.extend, Sums.mk.injEq, true_and, and_true, zero_add]
  funext a
  rw [sum_pairForce_row law (fun v hv => hi v (List.mem_of_mem_filter hv)) a]
  by_cases ha : a = i
  · subst ha
    rw [Function.update_self, if_pos rfl]
    abel
  · rw [Function.update_of_ne ha, if_neg ha, zero_sub, sub_eq_add_neg]

end Row

section Loop
variable [FloorRing K] [OutwardRoot K] (l : CachedPairList K)

theorem candidate_i {R : Positions K} {e : ℕ × ℕ} {v : Visit K}
    (h : l.candidate R e = .ok v) : v.i = e.1 := by
  unfold CachedPairList.candidate at h
  cases hd : l.apply R e.1 e.2 with
  | error _ => simp [hd, bind, Except.bind] at h
  | ok d =>
    simp only [hd, bind, Except.bind, pure, Except.pure, Except.ok.injEq] at h
    rw [← h]

/-- The records of row `i`, in loop order. -/
def rowVisits (R : Positions K) (i : ℕ) : Except Exn (List (Visit K)) :=
  ((List.range' (l.rows i) (l.rows (i + 1) - l.rows i)).map (Prod.mk i)).mapM (l.candidate R)

theorem rowStep_eq (law : PairLaw K σ) (R : Positions K) (s : Sums K σ) (i : ℕ) :
    l.rowStep law R s i = (rowVisits l R i).map fun vs =>
      s.extend law (vs.filter fun v => v.r2 ≤ l.opt.cutoff * l.opt.cutoff) := by
  unfold CachedPairList.rowStep
  rw [foldlM_fetch (fun p => l.candidate R (i, p))]
  have hmap : (List.range' (l.rows i) (l.rows (i + 1) - l.rows i)).mapM
      (fun p => l.candidate R (i, p)) = rowVisits l R i := by
    rw [rowVisits, List.mapM_map]
    rfl
  rw [hmap]
  cases hvs : rowVisits l R i with
  | error _ => rfl
  | ok vs =>
    have hi : ∀ v ∈ vs, v.i = i := by
      intro v hv
      obtain ⟨e, he, hev⟩ := mapM_mem hvs hv
      obtain ⟨p, -, rfl⟩ := List.mem_map.mp he
      exact candidate_i l hev
    have := row_eq_extend law (l.opt.cutoff * l.opt.cutoff) hi s
    simpa [Except.map, bind, Except.bind, pure, Except.pure] using this

/-- `accumulate` sums the records `forEach` visits. -/
theorem accumulate_eq (law : PairLaw K σ) (R : Positions K) (F : ℕ → Vec3 K) (obs : σ) :
    l.accumulate law R F obs = (l.forEach R).map (summed law F obs) := by
  suffices h : ∀ m, (List.range m).foldlM (l.rowStep law R) ⟨0, F, obs, []⟩ =
      ((entries l.rows m).mapM (l.candidate R)).map fun vs => summed law F obs
        (vs.filter fun v => v.r2 ≤ l.opt.cutoff * l.opt.cutoff) by
    unfold CachedPairList.accumulate CachedPairList.forEach
    rw [h l.n]
    cases (entries l.rows l.n).mapM (l.candidate R) <;> rfl
  intro m
  induction m with
  | zero =>
    exact congrArg Except.ok (Sums.extend_nil law _).symm
  | succ m ih =>
    have hent : entries l.rows (m + 1) = entries l.rows m ++
        (List.range' (l.rows m) (l.rows (m + 1) - l.rows m)).map (Prod.mk m) := by
      simp [entries, List.range_succ]
    rw [List.range_succ, List.foldlM_append, ih, hent, List.mapM_append]
    cases (entries l.rows m).mapM (l.candidate R) with
    | error _ => rfl
    | ok vs =>
      change (List.foldlM (l.rowStep law R) _ [m]) = _
      rw [List.foldlM_cons, rowStep_eq]
      change _ = Except.map _ (do
        let ws ← rowVisits l R m
        return vs ++ ws)
      cases rowVisits l R m with
      | error _ => rfl
      | ok ws =>
        refine congrArg Except.ok ?_
        simp only [summed, List.filter_append, Sums.extend_append]

end Loop
end Rgpot.Nlist
