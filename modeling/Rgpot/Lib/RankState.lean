import Rgpot.Lib.Collective

/-! Ranks with a state of their own and exceptions: parts that a rank runs alone, and parts that all
ranks run together. -/
namespace Collective
open Prog

/-- A part of what one rank does, on its own state. -/
abbrev RankPart (Sig V σ ε α : Type) := ExceptT ε (StateT σ (Prog Sig V)) α

variable {ι Sig V σ ε α β γ : Type}

namespace RankPart

/-- A collective. -/
def joint (s : Sig) (v : V) : RankPart Sig V σ ε V := fun state => .call s v fun x => .ret (.ok x, state)

/-- A computation of the rank itself. -/
def compute (x : Except ε α) : RankPart Sig V σ ε α := fun state => .ret (x, state)

/-- What the rank reads from its state. -/
def read (f : σ → α) : RankPart Sig V σ ε α := fun state => .ret (.ok (f state), state)

def write (f : σ → σ) : RankPart Sig V σ ε Unit := fun state => .ret (.ok (), f state)

/-- One part for each element, in order. -/
def each (f : α → RankPart Sig V σ ε β) : List α → RankPart Sig V σ ε (List β)
  | [] => pure []
  | x :: xs => do
    let y ← f x
    let ys ← each f xs
    return y :: ys

end RankPart

open RankPart

/-- A rank runs a part without a collective, keeps `Inv` of its state, and returns where `T` holds. -/
def Alone (Inv : σ → Prop) (T : Prop) (x : RankPart Sig V σ ε α) (post : α → Prop) : Prop :=
  ∀ s, Inv s → ∃ a s', x s = .ret (a, s') ∧ Inv s' ∧ (∀ b, a = .ok b → post b) ∧
    (T → ∃ b, a = .ok b)

/-- The ranks run a part in lockstep, keep `Inv` of their states and return. -/
def Jointly (c : Sig → (ι → V) → V) (Inv : σ → Prop) (x : ι → RankPart Sig V σ ε α)
    (post : (ι → α) → Prop) : Prop :=
  ∀ s : ι → σ, (∀ r, Inv (s r)) → ∃ (t : List Sig) (a : ι → α) (s' : ι → σ),
    Lockstep c (fun r => x r (s r)) t (fun r => (Except.ok (a r), s' r)) ∧ (∀ r, Inv (s' r)) ∧ post a

section Alone
variable {Inv : σ → Prop} {T : Prop} {x : RankPart Sig V σ ε α} {f : α → RankPart Sig V σ ε β}
  {post : α → Prop} {last : β → Prop}

theorem Alone.pure {a : α} (h : post a) : Alone Inv T (Pure.pure a : RankPart Sig V σ ε α) post := by
  intro s hs
  refine ⟨.ok a, s, rfl, hs, ?_, fun _ => ⟨a, rfl⟩⟩
  intro b hb
  cases hb
  exact h

theorem Alone.compute {x : Except ε α} (hpost : ∀ a, x = .ok a → post a) (hT : T → ∃ a, x = .ok a) :
    Alone Inv T (RankPart.compute x : RankPart Sig V σ ε α) post :=
  fun s hs => ⟨x, s, rfl, hs, hpost, hT⟩

theorem Alone.compute_ok {a : α} {x : Except ε α} (hx : x = .ok a) :
    Alone Inv T (RankPart.compute x : RankPart Sig V σ ε α) fun b => b = a := by
  subst hx
  exact Alone.compute (fun b hb => (Except.ok.inj hb).symm) fun _ => ⟨a, rfl⟩

theorem Alone.read {g : σ → α} {P : α → Prop} (h : ∀ s, Inv s → P (g s)) :
    Alone Inv T (RankPart.read g : RankPart Sig V σ ε α) P := by
  intro s hs
  refine ⟨.ok (g s), s, rfl, hs, ?_, fun _ => ⟨g s, rfl⟩⟩
  intro b hb
  cases hb
  exact h s hs

theorem Alone.write {g : σ → σ} (h : ∀ s, Inv s → Inv (g s)) :
    Alone Inv T (RankPart.write g : RankPart Sig V σ ε Unit) fun _ => True :=
  fun s hs => ⟨.ok (), g s, rfl, h s hs, fun _ _ => trivial, fun _ => ⟨(), rfl⟩⟩

theorem Alone.mono {post' : α → Prop} (h : Alone Inv T x post) (hpost : ∀ a, post a → post' a) :
    Alone Inv T x post' := by
  intro s hs
  obtain ⟨a, s', hrun, hs', ha, hreturns⟩ := h s hs
  exact ⟨a, s', hrun, hs', fun b hb => hpost b (ha b hb), hreturns⟩

theorem Alone.bind (hx : Alone Inv T x post) (hf : ∀ a, post a → Alone Inv T (f a) last) :
    Alone Inv T (x >>= f) last := by
  intro s hs
  obtain ⟨a, s', hrun, hs', hpost, hreturns⟩ := hx s hs
  have hbind : (x >>= f) s = ExceptT.bindCont f a s' := by
    change (x s >>= fun p => ExceptT.bindCont f p.1 p.2) = _
    rw [hrun]
    rfl
  rw [hbind]
  cases a with
  | error e =>
    refine ⟨.error e, s', rfl, hs', fun b hb => ?_, fun hT => ?_⟩
    · cases hb
    · obtain ⟨b, hb⟩ := hreturns hT
      cases hb
  | ok a => exact hf a (hpost a rfl) s' hs'

theorem Alone.each {f : α → RankPart Sig V σ ε β} {R : α → β → Prop} {xs : List α}
    (h : ∀ x ∈ xs, Alone Inv T (f x) (R x)) :
    Alone Inv T (RankPart.each f xs) (List.Forall₂ R xs) := by
  induction xs with
  | nil => exact Alone.pure .nil
  | cons x xs ih =>
    apply (h x List.mem_cons_self).bind
    intro y hy
    apply (ih fun z hz => h z (List.mem_cons_of_mem x hz)).bind
    intro ys hys
    exact Alone.pure (.cons hy hys)

end Alone

section Jointly
variable {c : Sig → (ι → V) → V} {Inv : σ → Prop} {x : ι → RankPart Sig V σ ε α}
  {f : ι → α → RankPart Sig V σ ε β} {post : (ι → α) → Prop} {last : (ι → β) → Prop}

theorem Jointly.pure {a : ι → α} (h : post a) :
    Jointly c Inv (fun r => (Pure.pure (a r) : RankPart Sig V σ ε α)) post :=
  fun s hs => ⟨[], a, s, .refl _, hs, h⟩

/-- Ranks that run a part alone and return are together again after it. -/
theorem Jointly.of_alone {P : ι → α → Prop} (h : ∀ r, Alone Inv True (x r) (P r)) :
    Jointly c Inv x fun a => ∀ r, P r (a r) := by
  intro s hs
  choose b s' hrun hs' hpost hreturns using fun r => h r (s r) (hs r)
  choose a ha using fun r => hreturns r trivial
  refine ⟨[], a, s', ?_, hs', fun r => hpost r (a r) (ha r)⟩
  have hret : (fun r => x r (s r)) = fun r => .ret (.ok (a r), s' r) := by
    funext r
    rw [hrun r, ha r]
  rw [hret]
  exact .refl _

theorem Jointly.joint (sig : Sig) (v : ι → V) :
    Jointly c Inv (fun r => (RankPart.joint sig (v r) : RankPart Sig V σ ε V))
      fun a => ∀ r, a r = c sig v :=
  fun s hs => ⟨[sig], fun _ => c sig v, s,
    Leads.single sig v fun r x => (.ret (.ok x, s r) : Prog Sig V (Except ε V × σ)), hs, fun _ => rfl⟩

theorem Jointly.bind (hx : Jointly c Inv x post)
    (hf : ∀ a, post a → Jointly c Inv (fun r => f r (a r)) last) :
    Jointly c Inv (fun r => x r >>= f r) last := by
  intro s hs
  obtain ⟨t, a, s', hrun, hs', hpost⟩ := hx s hs
  obtain ⟨u, b, s'', hnext, hs'', hlast⟩ := hf a hpost s' hs'
  have hboth : Lockstep c (fun r => x r (s r) >>= fun p : Except ε α × σ =>
      (ExceptT.bindCont (f r) p.1 p.2 : Prog Sig V (Except ε β × σ))) (t ++ u)
      fun r => (Except.ok (b r), s'' r) := hrun.bind hnext
  exact ⟨t ++ u, b, s'', hboth, hs'', hlast⟩

theorem Jointly.mono {post' : (ι → α) → Prop} (h : Jointly c Inv x post)
    (hpost : ∀ a, post a → post' a) : Jointly c Inv x post' := by
  intro s hs
  obtain ⟨t, a, s', hrun, hs', ha⟩ := h s hs
  exact ⟨t, a, s', hrun, hs', hpost a ha⟩

/-- Loops over lists that are alike on all ranks: induction on what they have in common. -/
theorem Jointly.each {f : ι → α → RankPart Sig V σ ε β} {R : ι → α → β → Prop} {Q : ι → α → Prop}
    {t : α → γ} {tags : List γ} {xs : ι → List α} (htags : ∀ r, (xs r).map t = tags)
    (hQ : ∀ r, ∀ x ∈ xs r, Q r x)
    (h : ∀ g, ∀ x : ι → α, (∀ r, t (x r) = g ∧ Q r (x r)) →
      Jointly c Inv (fun r => f r (x r)) fun b => ∀ r, R r (x r) (b r)) :
    Jointly c Inv (fun r => RankPart.each (f r) (xs r)) fun bs => ∀ r, List.Forall₂ (R r) (xs r) (bs r) := by
  induction tags generalizing xs with
  | nil =>
    have hnil : xs = fun _ => [] := funext fun r => List.map_eq_nil_iff.mp (htags r)
    subst hnil
    exact Jointly.pure fun r => .nil
  | cons g tags ih =>
    have hcons : ∀ r, ∃ y ys, xs r = y :: ys ∧ t y = g ∧ ys.map t = tags := by
      intro r
      have hr := htags r
      cases hxs : xs r with
      | nil => simp [hxs] at hr
      | cons y ys =>
        rw [hxs, List.map_cons, List.cons.injEq] at hr
        exact ⟨y, ys, rfl, hr.1, hr.2⟩
    choose y ys hxs hy hys using hcons
    obtain rfl : xs = fun r => y r :: ys r := funext hxs
    have hhead := h g y fun r => ⟨hy r, hQ r (y r) List.mem_cons_self⟩
    have htail := ih hys fun r x hx => hQ r x (List.mem_cons_of_mem (y r) hx)
    apply hhead.bind
    intro b hb
    apply htail.bind
    intro bs hbs
    exact Jointly.pure fun r => .cons (hb r) (hbs r)

end Jointly
end Collective
