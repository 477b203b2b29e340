import Mathlib.Tactic.Common

/-! Components that keep a state between calls, and calls that answer as on a fresh one. -/

/-- A component answers each call from its state, and may fail and still leave another state. -/
structure Component (σ ι : Type) (ω : ι → Type) (ε : Type) where
  fresh : σ
  call : σ → (i : ι) → Except ε (ω i) × σ

namespace Component
variable {σ ι ε α β : Type} {ω : ι → Type}

/-- The second part runs on the state the first leaves, unless that failed. -/
def andThen (x : Except ε α × σ) (f : α → σ → Except ε β × σ) : Except ε β × σ :=
  match x with
  | (.error e, s) => (.error e, s)
  | (.ok a, s) => f a s

theorem andThen_eq_ok {x : Except ε α × σ} {f : α → σ → Except ε β × σ} {b : β} :
    (andThen x f).1 = .ok b ↔ ∃ a, x.1 = .ok a ∧ (f a x.2).1 = .ok b := by
  obtain ⟨e | a, s⟩ := x <;> simp [andThen]

/-- A part of a call has no fault, and where it returns it leaves `post`. -/
def Ends (Fault : ε → Prop) (post : α → σ → Prop) (x : Except ε α × σ) : Prop :=
  (∀ e, x.1 = .error e → ¬ Fault e) ∧ ∀ a, x.1 = .ok a → post a x.2

section Ends
variable {Fault : ε → Prop} {post : α → σ → Prop}

theorem ends_ok {a : α} {s : σ} (h : post a s) : Ends Fault post (.ok a, s) := by
  constructor
  · intro e he
    cases he
  · intro a' ha
    cases ha
    exact h

theorem ends_error {e : ε} {s : σ} (h : ¬ Fault e) :
    Ends Fault post ((.error e, s) : Except ε α × σ) := by
  constructor
  · intro e' he
    cases he
    exact h
  · intro a ha
    cases ha

theorem Ends.andThen {x : Except ε α × σ} {f : α → σ → Except ε β × σ} {last : β → σ → Prop}
    (hx : Ends Fault post x) (hf : ∀ a s, post a s → Ends Fault last (f a s)) :
    Ends Fault last (Component.andThen x f) := by
  obtain ⟨e | a, s⟩ := x
  · exact ends_error (hx.1 e rfl)
  · exact hf a s (hx.2 a rfl)

end Ends

variable (m : Component σ ι ω ε)

/-- The state after a run of calls. -/
def after (s : σ) (calls : List ι) : σ := calls.foldl (fun s i => (m.call s i).2) s

/-- Every call of the run meets `P`, a condition on the state before it. -/
def Along (P : σ → ι → Prop) : σ → List ι → Prop
  | _, [] => True
  | s, i :: calls => P s i ∧ Along P (m.call s i).2 calls

/-- A call that returns gives what it gives on a fresh component, and it has no fault. -/
def Forgets (Fault : ε → Prop) (s : σ) (i : ι) : Prop :=
  Ends Fault (fun o _ => (m.call m.fresh i).1 = .ok o) (m.call s i)

/-- A loop of calls; the first failure ends it. -/
def loop : σ → List ι → Except ε (List (Σ i, ω i)) × σ
  | s, [] => (.ok [], s)
  | s, i :: calls => andThen (m.call s i) fun o s =>
    andThen (loop s calls) fun os s => (.ok (⟨i, o⟩ :: os), s)

/-- What the calls of a run return, nothing where one fails. -/
def answers : σ → List ι → List (Σ i, Option (ω i))
  | _, [] => []
  | s, i :: calls => ⟨i, (m.call s i).1.toOption⟩ :: answers (m.call s i).2 calls

/-- What a fresh component answers to each call. -/
def independent (i : ι) : Except ε (Σ i, ω i) := (m.call m.fresh i).1.map (Sigma.mk i)

variable {m} {P : σ → ι → Prop} {Fault : ε → Prop} {s : σ}

@[simp] theorem after_nil : m.after s [] = s := rfl

@[simp] theorem after_cons (i : ι) (calls : List ι) :
    m.after s (i :: calls) = m.after (m.call s i).2 calls := rfl

theorem along_append {first second : List ι} :
    m.Along P s (first ++ second) ↔ m.Along P s first ∧ m.Along P (m.after s first) second := by
  induction first generalizing s with
  | nil => simp [Along]
  | cons i first ih => simp [Along, ih, and_assoc]

/-- Components that answer each call alike answer every run alike. -/
theorem answers_congr {ε' : Type} {m' : Component σ ι ω ε'} {Q : ι → Prop}
    (h : ∀ s i, Q i → (m.call s i).2 = (m'.call s i).2 ∧
      (m.call s i).1.toOption = (m'.call s i).1.toOption) {calls : List ι}
    (hcalls : ∀ i ∈ calls, Q i) : m.answers s calls = m'.answers s calls := by
  induction calls generalizing s with
  | nil => rfl
  | cons i calls ih =>
    obtain ⟨hi, hrest⟩ := List.forall_mem_cons.mp hcalls
    obtain ⟨hstate, hanswer⟩ := h s i hi
    rw [answers, answers, hanswer, hstate, ih hrest]

/-- If a call that meets the condition forgets, then so does every call of a run along which all do. -/
theorem forgets_of_along (hstep : ∀ s i, P s i → m.Forgets Fault s i) {calls before rest : List ι}
    {i : ι} (h : m.Along P s calls) (hcalls : calls = before ++ i :: rest) :
    m.Forgets Fault (m.after s before) i := by
  rw [hcalls, along_append] at h
  exact hstep _ _ h.2.1

/-- A loop along which all calls forget answers as independent calls do: induction on the loop. -/
theorem loop_independent (hstep : ∀ s i, P s i → m.Forgets Fault s i) {calls : List ι}
    (h : m.Along P s calls) {os : List (Σ i, ω i)} (hloop : (m.loop s calls).1 = .ok os) :
    calls.mapM m.independent = .ok os := by
  induction calls generalizing s os with
  | nil =>
    cases hloop
    rfl
  | cons i calls ih =>
    obtain ⟨hi, hcalls⟩ := h
    obtain ⟨o, ho, hrest⟩ := andThen_eq_ok.mp hloop
    obtain ⟨os', hos', hlist⟩ := andThen_eq_ok.mp hrest
    cases hlist
    have hhead : m.independent i = .ok ⟨i, o⟩ := by
      rw [independent, (hstep s i hi).2 o ho]
      rfl
    rw [List.mapM_cons, hhead, ih hcalls hos']
    rfl

end Component
