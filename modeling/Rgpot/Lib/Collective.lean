import Rgpot.Lib.Numerals

/-! Programs of several ranks that meet in collective operations. -/
namespace Collective

/-- What one rank does: it returns, or it calls a collective `s` with a contribution `v` and goes
on with what comes back. -/
inductive Prog (Sig V α : Type) where
  | ret (a : α)
  | call (s : Sig) (v : V) (k : V → Prog Sig V α)

variable {ι Sig V α β ε : Type}

namespace Prog

def bind : Prog Sig V α → (α → Prog Sig V β) → Prog Sig V β
  | ret a, f => f a
  | call s v k, f => call s v fun x => (k x).bind f

instance monad : Monad (Prog Sig V) where
  pure := ret
  bind := bind

@[simp] theorem pure_eq (a : α) : (pure a : Prog Sig V α) = ret a := rfl

@[simp] theorem ret_bind (a : α) (f : α → Prog Sig V β) : (ret a >>= f) = f a := rfl

@[simp] theorem call_bind (s : Sig) (v : V) (k : V → Prog Sig V α) (f : α → Prog Sig V β) :
    (call s v k >>= f) = call s v fun x => k x >>= f := rfl

end Prog

open Prog

/-- All ranks call the same collectives in the same order `t`, which takes the programs `P` to `Q`;
`c` is the value a collective gives every rank for their contributions. -/
inductive Leads (c : Sig → (ι → V) → V) :
    (ι → Prog Sig V α) → List Sig → (ι → Prog Sig V α) → Prop
  | refl (P : ι → Prog Sig V α) : Leads c P [] P
  | call (s : Sig) (v : ι → V) (k : ι → V → Prog Sig V α) {t : List Sig} {Q : ι → Prog Sig V α} :
      Leads c (fun r => k r (c s v)) t Q → Leads c (fun r => .call s (v r) (k r)) (s :: t) Q

/-- All ranks call the same collectives in the same order and return `a`. -/
def Lockstep (c : Sig → (ι → V) → V) (P : ι → Prog Sig V α) (t : List Sig) (a : ι → α) : Prop :=
  Leads c P t fun r => .ret (a r)

section Rules
variable {c : Sig → (ι → V) → V} {P Q R : ι → Prog Sig V α} {t u : List Sig} {a : ι → α} {b : ι → β}

theorem Leads.trans (h : Leads c P t Q) (hQ : Leads c Q u R) : Leads c P (t ++ u) R := by
  induction h with
  | refl => exact hQ
  | call s v k _ ih => exact .call s v k (ih hQ)

theorem Leads.bind {f : ι → α → Prog Sig V β} (h : Leads c P t Q) :
    Leads c (fun r => P r >>= f r) t (fun r => Q r >>= f r) := by
  induction h with
  | refl P => exact .refl _
  | call s v k _ ih => exact .call s v (fun r x => k r x >>= f r) ih

/-- A joint step. -/
theorem Leads.single (s : Sig) (v : ι → V) (k : ι → V → Prog Sig V α) :
    Leads c (fun r => .call s (v r) (k r)) [s] fun r => k r (c s v) :=
  .call s v k (.refl _)

theorem Lockstep.pure (a : ι → α) : Lockstep c (fun r => (Pure.pure (a r) : Prog Sig V α)) [] a :=
  .refl _

/-- Every rank goes on with what it returned. -/
theorem Lockstep.leads {f : ι → α → Prog Sig V β} (h : Lockstep c P t a) :
    Leads c (fun r => P r >>= f r) t fun r => f r (a r) := Leads.bind h

theorem Lockstep.bind {f : ι → α → Prog Sig V β} (h : Lockstep c P t a)
    (hf : Lockstep c (fun r => f r (a r)) u b) : Lockstep c (fun r => P r >>= f r) (t ++ u) b :=
  h.leads.trans hf

variable {A : ι → ExceptT ε (Prog Sig V) α} {f : ι → α → ExceptT ε (Prog Sig V) β}

/-- Every rank gets past the first part. -/
theorem Lockstep.bind_ok {b : ι → Except ε β} (h : Lockstep c A t fun r => .ok (a r))
    (hf : Lockstep c (fun r => f r (a r)) u b) :
    Lockstep c (fun r => (A r >>= f r : ExceptT ε (Prog Sig V) β)) (t ++ u) b :=
  Lockstep.bind (f := fun r x => ExceptT.bindCont (f r) x) h hf

/-- Every rank leaves with the exception of the first part. -/
theorem Lockstep.bind_error {e : ι → ε} (h : Lockstep c A t fun r => .error (e r)) :
    Lockstep c (fun r => (A r >>= f r : ExceptT ε (Prog Sig V) β)) t fun r => .error (e r) :=
  Lockstep.leads (f := fun r x => ExceptT.bindCont (f r) x) h

theorem Leads.inv (h : Leads c P t Q) : (t = [] ∧ P = Q) ∨
    ∃ (s : Sig) (v : ι → V) (k : ι → V → Prog Sig V α) (u : List Sig), t = s :: u ∧
      (P = fun r => .call s (v r) (k r)) ∧ Leads c (fun r => k r (c s v)) u Q := by
  cases h with
  | refl => exact Or.inl ⟨rfl, rfl⟩
  | call s v k h => exact Or.inr ⟨s, v, k, _, rfl, rfl, h⟩

/-- Nothing else can happen: the collectives and the results are determined. -/
theorem Lockstep.unique [Nonempty ι] {a' : ι → α} (h : Lockstep c P t a) (h' : Lockstep c P u a') :
    t = u ∧ a = a' := by
  obtain ⟨r₀⟩ := ‹Nonempty ι›
  unfold Lockstep at h
  generalize hQ : (fun r => Prog.ret (a r) : ι → Prog Sig V α) = Q at h
  induction h generalizing u with
  | refl =>
    subst hQ
    rcases h'.inv with ⟨rfl, heq⟩ | ⟨s, v, k, _, _, heq, _⟩
    · refine ⟨rfl, funext fun r => ?_⟩
      injection congrFun heq r
    · cases congrFun heq r₀
  | call s v k _ ih =>
    rcases h'.inv with ⟨_, heq⟩ | ⟨s', v', k', w, rfl, heq, h'⟩
    · cases congrFun heq r₀
    · have hcall : ∀ r, s = s' ∧ v r = v' r ∧ k r = k' r := by
        intro r
        have hr := congrFun heq r
        injection hr with hs hv hk
        exact ⟨hs, hv, hk⟩
      obtain rfl := (hcall r₀).1
      obtain rfl : v = v' := funext fun r => (hcall r).2.1
      obtain rfl : k = k' := funext fun r => (hcall r).2.2
      obtain ⟨rfl, ha⟩ := ih h' hQ
      exact ⟨rfl, ha⟩

end Rules

section Interleaving

/-- A rank in the middle of a run: whether it has entered the collective its program is at, and the
collectives it has completed. -/
structure Rank (Sig V α : Type) where
  prog : Prog Sig V α
  entered : Bool
  log : List Sig

def start (P : ι → Prog Sig V α) : ι → Rank Sig V α := fun r => ⟨P r, false, []⟩

/-- Ranks enter collectives one by one, in any order. A collective completes when all have entered
it, the least a communication layer promises. -/
inductive Step [DecidableEq ι] (c : Sig → (ι → V) → V) (σ : ι → Rank Sig V α) :
    (ι → Rank Sig V α) → Prop
  | enter (r : ι) (s : Sig) (v : V) (k : V → Prog Sig V α) : (σ r).prog = .call s v k →
      (σ r).entered = false → Step c σ (Function.update σ r { σ r with entered := true })
  | complete (s : Sig) (v : ι → V) (k : ι → V → Prog Sig V α) :
      (∀ r, (σ r).prog = .call s (v r) (k r) ∧ (σ r).entered = true) →
      Step c σ fun r => ⟨k r (c s v), false, (σ r).log ++ [s]⟩

def Reachable [DecidableEq ι] (c : Sig → (ι → V) → V) (P : ι → Prog Sig V α)
    (σ : ι → Rank Sig V α) : Prop := Relation.ReflTransGen (Step c) (start P) σ

/-- No interleaving separates the ranks: they have always completed the same collectives, a rank at
a collective has every other rank at the same one, and the run goes on until all have returned. -/
structure Together [DecidableEq ι] (c : Sig → (ι → V) → V) (P : ι → Prog Sig V α) (t : List Sig)
    (a : ι → α) : Prop where
  log : ∀ σ, Reachable c P σ → ∃ done, done <+: t ∧ ∀ r, (σ r).log = done
  meet : ∀ σ, Reachable c P σ → ∀ r r' s v k, (σ r).prog = .call s v k →
    ∃ v' k', (σ r').prog = .call s v' k'
  progress : ∀ σ, Reachable c P σ → (∀ r, (σ r).prog = .ret (a r)) ∨ ∃ σ', Step c σ σ'

variable {c : Sig → (ι → V) → V} {P : ι → Prog Sig V α} {t : List Sig} {a : ι → α}
  {σ σ' : ι → Rank Sig V α}

/-- The ranks are where some lockstep program is, with the rest of the trace ahead. -/
def InStep (c : Sig → (ι → V) → V) (t : List Sig) (a : ι → α) (σ : ι → Rank Sig V α) : Prop :=
  ∃ done ahead Q, t = done ++ ahead ∧ Lockstep c Q ahead a ∧
    ∀ r, (σ r).prog = Q r ∧ (σ r).log = done

/-- Ranks in step are all at one collective or have all returned. -/
theorem InStep.ret_or_call (h : InStep c t a σ) :
    (∀ r, (σ r).prog = .ret (a r)) ∨ ∃ (s : Sig) (v : ι → V) (k : ι → V → Prog Sig V α),
      ∀ r, (σ r).prog = .call s (v r) (k r) := by
  obtain ⟨done, ahead, Q, _, hQ, hσ⟩ := h
  cases hQ with
  | refl => exact Or.inl fun r => (hσ r).1
  | call s v k _ => exact Or.inr ⟨s, v, k, fun r => (hσ r).1⟩

variable [DecidableEq ι] [Nonempty ι]

theorem InStep.step (h : InStep c t a σ) (hs : Step c σ σ') : InStep c t a σ' := by
  obtain ⟨done, ahead, Q, ht, hQ, hσ⟩ := h
  cases hs with
  | enter r s v k hprog hentered =>
    refine ⟨done, ahead, Q, ht, hQ, fun r' => ?_⟩
    by_cases hr : r' = r
    · subst hr
      simpa using hσ r'
    · simpa [Function.update_of_ne hr] using hσ r'
  | complete s v k hall =>
    have hprog : Q = fun r => .call s (v r) (k r) := by
      funext r
      exact (hσ r).1.symm.trans (hall r).1
    cases hQ with
    | refl =>
      obtain ⟨r⟩ := ‹Nonempty ι›
      cases congrFun hprog r
    | @call s' v' k' ahead' a hrest =>
      have hcall : ∀ r, s' = s ∧ v' r = v r ∧ k' r = k r := by
        intro r
        have heq := congrFun hprog r
        injection heq with hs' hv' hk'
        exact ⟨hs', hv', hk'⟩
      obtain rfl : v' = v := funext fun r => (hcall r).2.1
      obtain rfl : k' = k := funext fun r => (hcall r).2.2
      obtain ⟨r₀⟩ := ‹Nonempty ι›
      obtain rfl := (hcall r₀).1
      refine ⟨done ++ [s'], ahead', _, by simp [ht], hrest, fun r => ⟨rfl, ?_⟩⟩
      exact congrArg (· ++ [s']) (hσ r).2

theorem Lockstep.inStep (h : Lockstep c P t a) (hσ : Reachable c P σ) : InStep c t a σ := by
  induction hσ with
  | refl => exact ⟨[], t, P, rfl, h, fun r => ⟨rfl, rfl⟩⟩
  | tail _ hs ih => exact ih.step hs

/-- Programs in lockstep stay together under every interleaving. -/
theorem Lockstep.together (h : Lockstep c P t a) : Together c P t a where
  log σ hσ := by
    obtain ⟨done, ahead, Q, ht, _, hall⟩ := h.inStep hσ
    exact ⟨done, ht ▸ List.prefix_append done ahead, fun r => (hall r).2⟩
  meet σ hσ r r' s v k hprog := by
    rcases (h.inStep hσ).ret_or_call with hret | ⟨s', v', k', hcall⟩
    · rw [hret r] at hprog
      cases hprog
    · rw [hcall r] at hprog
      injection hprog with hs
      exact ⟨v' r', k' r', hs ▸ hcall r'⟩
  progress σ hσ := by
    rcases (h.inStep hσ).ret_or_call with hret | ⟨s, v, k, hcall⟩
    · exact Or.inl hret
    · right
      by_cases hall : ∀ r, (σ r).entered = true
      · exact ⟨_, .complete s v k fun r => ⟨hcall r, hall r⟩⟩
      · obtain ⟨r, hr⟩ := not_forall.mp hall
        exact ⟨_, .enter r s (v r) (k r) (hcall r) (by simpa using hr)⟩

end Interleaving

end Collective
