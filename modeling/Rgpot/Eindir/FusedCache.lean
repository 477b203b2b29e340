import Mathlib.Data.Fintype.Basic
import Rgpot.ForceStructs
import Rgpot.Lib.Threads

/-! The energy and gradient entry points of a potential taken as an objective, and the evaluation one
leaves for the other. -/
namespace Rgpot.Eindir
open Threads

inductive RgpotStatus where
  | SUCCESS | INVALID_PARAMETER | INTERNAL_ERROR | RPC_ERROR | BUFFER_SIZE_ERROR
  deriving DecidableEq

/-- The two codes the entry points return. -/
inductive EindirStatus where
  | SUCCESS | INTERNAL_ERROR
  deriving DecidableEq

section Doubles

def isNaN (a : Double) : Bool := a &&& 0x7FFFFFFFFFFFFFFF > 0x7FF0000000000000

def isZero (a : Double) : Bool := a &&& 0x7FFFFFFFFFFFFFFF = 0

/-- `==` on `f64`: a NaN equals nothing, and the two zeros are equal. -/
def f64Eq (a b : Double) : Bool := !isNaN a && !isNaN b && (a == b || (isZero a && isZero b))

/-- `-force`. -/
def f64Neg (a : Double) : Double := a ^^^ 0x8000000000000000

@[simp] theorem f64Eq_self (a : Double) : f64Eq a a = !isNaN a := by
  simp [f64Eq]

theorem eq_or_zeros_of_f64Eq {a b : Double} (h : f64Eq a b = true) :
    a = b ∨ (isZero a = true ∧ isZero b = true) := by
  simp only [f64Eq, Bool.and_eq_true, Bool.or_eq_true, beq_iff_eq] at h
  exact h.2

end Doubles

/-- The `n_atoms * 3` values of a tensor. -/
abbrev Coords (n : ℕ) := Fin (n * 3) → Double

structure ForceInput (n : ℕ) where
  positions : Coords n
  atomic_numbers : Fin n → UInt32
  box_matrix : Fin 9 → Double

/-- `forces` is null or a tensor of the shape of the positions. -/
structure ForceOut (n : ℕ) where
  forces : Option (Coords n)
  energy : Double
  variance : Double
  deriving DecidableEq

/-- A pure callback: the answer depends on the input alone. -/
structure Potential (n : ℕ) where
  callback : ForceInput n → RgpotStatus × ForceOut n
  atomic_numbers : Fin n → UInt32
  box_matrix : Fin 9 → Double

structure FusedEvaluation (n : ℕ) where
  positions : Coords n
  gradient : Coords n
  deriving DecidableEq

/-- Where a call of `rgpot_eval_cb` or `rgpot_grad_cb` stands, with the buffer it writes to. A thread
has run the callback in `evalAnswered`, and has found no use for the cache in `gradMissed`. -/
inductive Call (n : ℕ) where
  | idle
  | evalEntered (x : Coords n) (value_out : Double)
  | evalAnswered (x : Coords n) (value_out : Double) (answer : RgpotStatus × ForceOut n)
  | evalReturned (x : Coords n) (value_out : Double) (status : EindirStatus)
  | gradEntered (x : Coords n) (grad_out : Coords n)
  | gradMissed (x : Coords n) (grad_out : Coords n)
  | gradReturned (x : Coords n) (grad_out : Coords n) (status : EindirStatus)
  deriving DecidableEq

/-- A thread enters a call, or takes the call it is in to its next section. -/
inductive Move (n : ℕ) where
  | eval (x : Coords n) (value_out : Double)
  | grad (x : Coords n) (grad_out : Coords n)
  | advance

variable {n : ℕ}

def Potential.answer (pot : Potential n) (x : Coords n) : RgpotStatus × ForceOut n :=
  pot.callback ⟨x, pot.atomic_numbers, pot.box_matrix⟩

/-- `status == RGPOT_SUCCESS && !output.forces.is_null()`, with the forces. -/
def supplied (answer : RgpotStatus × ForceOut n) : Option (Coords n) :=
  if answer.1 = .SUCCESS then answer.2.forces else none

def Potential.forces (pot : Potential n) (x : Coords n) : Option (Coords n) :=
  supplied (pot.answer x)

def negate (forces : Coords n) : Coords n := fun i => f64Neg (forces i)

/-- `cached.positions == x_data`. -/
def samePositions (p x : Coords n) : Bool := ∀ i, f64Eq (p i) (x i) = true

/-- `fused`. -/
def fused (x : Coords n) (answer : RgpotStatus × ForceOut n) : Option (FusedEvaluation n) :=
  (supplied answer).map fun forces => ⟨x, negate forces⟩

/-- The last section of `rgpot_eval_cb`: the store under the lock, and the return. -/
def evalStore (x : Coords n) (value_out : Double) (answer : RgpotStatus × ForceOut n) :
    Option (FusedEvaluation n) × Call n :=
  if answer.1 ≠ .SUCCESS then (none, .evalReturned x value_out .INTERNAL_ERROR)
  else (fused x answer, .evalReturned x answer.2.energy .SUCCESS)

/-- `take` under the lock, and the comparison. -/
def gradTake (cached : Option (FusedEvaluation n)) (x grad_out : Coords n) :
    Option (FusedEvaluation n) × Call n :=
  match cached with
  | some c =>
    if samePositions c.positions x then (none, .gradReturned x c.gradient .SUCCESS)
    else (none, .gradMissed x grad_out)
  | none => (none, .gradMissed x grad_out)

/-- The rest of `rgpot_grad_cb`: the callback, and the return. -/
def gradCallback (pot : Potential n) (x grad_out : Coords n) : Call n :=
  let dst := match supplied (pot.answer x) with
    | some forces => negate forces
    | none => grad_out
  if (pot.answer x).1 ≠ .SUCCESS then .gradReturned x dst .INTERNAL_ERROR
  else .gradReturned x dst .SUCCESS

/-- What a gradient request comes to when it takes `cached`: the rest of the call is its own. -/
def gradRest (pot : Potential n) (cached : Option (FusedEvaluation n)) (x grad_out : Coords n) :
    Call n :=
  match (gradTake cached x grad_out).2 with
  | .gradMissed x grad_out => gradCallback pot x grad_out
  | call => call

/-- One atomic section of one thread. -/
def next (pot : Potential n) (cache : Option (FusedEvaluation n)) :
    Call n → Move n → Option (Option (FusedEvaluation n) × Call n)
  | .idle, .eval x value_out => some (cache, .evalEntered x value_out)
  | .idle, .grad x grad_out => some (cache, .gradEntered x grad_out)
  | .evalEntered x value_out, .advance => some (cache, .evalAnswered x value_out (pot.answer x))
  | .evalAnswered x value_out answer, .advance => some (evalStore x value_out answer)
  | .gradEntered x grad_out, .advance => some (gradTake cache x grad_out)
  | .gradMissed x grad_out, .advance => some (cache, gradCallback pot x grad_out)
  | .evalReturned _ _ _, .advance => some (cache, .idle)
  | .gradReturned _ _ _, .advance => some (cache, .idle)
  | _, _ => none

/-- The call has the lock of the cache to take next. -/
def Call.locks : Call n → Bool
  | .evalAnswered _ _ _ | .gradEntered _ _ => true
  | _ => false

/-- A successful return wrote what the callback says at the call's own `x`. -/
def Call.Right (pot : Potential n) : Call n → Prop
  | .evalReturned x value_out .SUCCESS =>
    (pot.answer x).1 = .SUCCESS ∧ value_out = (pot.answer x).2.energy
  | .gradReturned x grad_out .SUCCESS => ∃ forces, pot.forces x = some forces ∧
      grad_out = negate forces
  | _ => True

/-- A gradient request at `x` is served right: by an evaluation that compares equal to `x` and has the
forces of `x`, or by a callback that fails at `x` or supplies forces there. -/
def Served (pot : Potential n) (cached : Option (FusedEvaluation n)) (x : Coords n) : Prop :=
  match cached with
  | some c =>
    if samePositions c.positions x then
      ∃ forces, pot.forces x = some forces ∧ pot.forces c.positions = some forces
    else (pot.answer x).1 = .SUCCESS → (pot.answer x).2.forces ≠ none
  | none => (pot.answer x).1 = .SUCCESS → (pot.answer x).2.forces ≠ none

/-- Every gradient request that takes the lock is served right. -/
def Serves (pot : Potential n) (cached : Option (FusedEvaluation n)) (call : Call n) (_ : Move n) :
    Prop :=
  ∀ x grad_out, call = .gradEntered x grad_out → Served pot cached x

/-- The move leaves the lock alone. -/
def Unlocked (_ : Option (FusedEvaluation n)) (call : Call n) (_ : Move n) : Prop :=
  call.locks = false

def initial (ι : Type) (n : ℕ) : State ι (Option (FusedEvaluation n)) (Call n) :=
  ⟨none, fun _ => .idle⟩

variable {pot : Potential n} {cached : Option (FusedEvaluation n)} {x p grad_out forces : Coords n}
variable {value_out : Double} {call : Call n}

/-- The cached gradient is that of the callback at the cached positions. -/
def Coherent (pot : Potential n) (cached : Option (FusedEvaluation n)) : Prop :=
  ∀ c, cached = some c → ∃ forces, pot.forces c.positions = some forces ∧ c.gradient = negate forces

/-- An answer a thread holds is that of the callback at the thread's own `x`. -/
def Call.Answered (pot : Potential n) : Call n → Prop
  | .evalAnswered x _ answer => answer = pot.answer x
  | _ => True

/-- A call that has returned is right, and one that is left to the callback will be. -/
def Call.Served (pot : Potential n) : Call n → Prop
  | .gradMissed x _ => (pot.answer x).1 = .SUCCESS → (pot.answer x).2.forces ≠ none
  | call => call.Right pot

/-- The eight sections. -/
inductive Section (pot : Potential n) :
    Option (FusedEvaluation n) → Call n → Move n → Option (FusedEvaluation n) → Call n → Prop
  | enterEval (c x v) : Section pot c .idle (.eval x v) c (.evalEntered x v)
  | enterGrad (c x g) : Section pot c .idle (.grad x g) c (.gradEntered x g)
  | evalCallback (c x v) :
    Section pot c (.evalEntered x v) .advance c (.evalAnswered x v (pot.answer x))
  | store (c x v a) : Section pot c (.evalAnswered x v a) .advance
      (evalStore x v a).1 (evalStore x v a).2
  | take (c x g) : Section pot c (.gradEntered x g) .advance (gradTake c x g).1 (gradTake c x g).2
  | gradCallback (c x g) : Section pot c (.gradMissed x g) .advance c (gradCallback pot x g)
  | leaveEval (c x v r) : Section pot c (.evalReturned x v r) .advance c .idle
  | leaveGrad (c x g r) : Section pot c (.gradReturned x g r) .advance c .idle

section Data

theorem f64Neg_f64Neg (a : Double) : f64Neg (f64Neg a) = a := by
  simp [f64Neg]

theorem negate_injective : Function.Injective (negate (n := n)) := by
  intro f g h
  funext i
  have hi : f64Neg (f i) = f64Neg (g i) := congrFun h i
  rw [← f64Neg_f64Neg (f i), hi, f64Neg_f64Neg]

/-- A position is found again exactly when it has no NaN. -/
theorem samePositions_self_iff : samePositions x x = true ↔ ∀ i, isNaN (x i) = false := by
  simp [samePositions]

/-- Positions that compare equal differ in the signs of their zeros only. -/
theorem eq_or_zeros_of_samePositions (h : samePositions p x = true) (i : Fin (n * 3)) :
    p i = x i ∨ (isZero (p i) = true ∧ isZero (x i) = true) := by
  simp only [samePositions, decide_eq_true_eq] at h
  exact eq_or_zeros_of_f64Eq (h i)

/-- What an evaluation leaves is what the callback says at its positions. -/
theorem coherent_fused : Coherent pot (fused x (pot.answer x)) := by
  intro c hc
  obtain ⟨forces, hforces, rfl⟩ := Option.map_eq_some_iff.mp hc
  exact ⟨forces, hforces, rfl⟩

theorem coherent_none : Coherent pot none := by
  intro c hc
  cases hc

end Data

section Requests

theorem gradCallback_right_iff : (gradCallback pot x grad_out).Right pot ↔
    ((pot.answer x).1 = .SUCCESS → (pot.answer x).2.forces ≠ none) := by
  by_cases hstatus : (pot.answer x).1 = .SUCCESS
  · cases hforces : (pot.answer x).2.forces with
    | none => simp [gradCallback, Call.Right, Potential.forces, supplied, hstatus, hforces]
    | some forces => simp [gradCallback, Call.Right, Potential.forces, supplied, hstatus, hforces]
  · simp [gradCallback, Call.Right, hstatus]

theorem evalStore_right (h : (evalStore x value_out (pot.answer x)).2 = call) : call.Right pot := by
  subst h
  by_cases hstatus : (pot.answer x).1 = .SUCCESS
  · simp [evalStore, Call.Right, hstatus]
  · simp [evalStore, Call.Right, hstatus]

theorem evalStore_coherent : Coherent pot (evalStore x value_out (pot.answer x)).1 := by
  by_cases hstatus : (pot.answer x).1 = .SUCCESS
  · simpa [evalStore, hstatus] using coherent_fused
  · simpa [evalStore, hstatus] using coherent_none

/-- The cache serves a request or leaves it to the callback; it is empty after either. -/
theorem gradTake_cases (cached : Option (FusedEvaluation n)) (x grad_out : Coords n) :
    (∃ c, cached = some c ∧ samePositions c.positions x = true ∧
        gradTake cached x grad_out = (none, .gradReturned x c.gradient .SUCCESS)) ∨
      ((∀ c, cached = some c → samePositions c.positions x = false) ∧
        gradTake cached x grad_out = (none, .gradMissed x grad_out)) := by
  cases cached with
  | none =>
    right
    refine ⟨fun c hc => ?_, rfl⟩
    cases hc
  | some c =>
    by_cases h : samePositions c.positions x = true
    · left
      exact ⟨c, rfl, h, by simp [gradTake, h]⟩
    · right
      refine ⟨fun d hd => ?_, by simp [gradTake, h]⟩
      obtain rfl := Option.some.inj hd
      simpa using h

theorem served_iff_of_miss (h : ∀ c, cached = some c → samePositions c.positions x = false) :
    Served pot cached x ↔ ((pot.answer x).1 = .SUCCESS → (pot.answer x).2.forces ≠ none) := by
  cases cached with
  | none => rfl
  | some c => simp [Served, h c rfl]

/-- A cached gradient is right for the request exactly when the forces at both positions agree. -/
theorem gradReturned_right_iff {c : FusedEvaluation n} (hc : Coherent pot (some c))
    (h : samePositions c.positions x = true) :
    (Call.gradReturned x c.gradient .SUCCESS).Right pot ↔ Served pot (some c) x := by
  obtain ⟨forces, hforces, hgradient⟩ := hc c rfl
  simp only [Served, if_pos h, Call.Right]
  constructor
  · rintro ⟨own, hown, heq⟩
    obtain rfl : own = forces := negate_injective (heq.symm.trans hgradient)
    exact ⟨own, hown, hforces⟩
  · rintro ⟨own, hown, hcached⟩
    obtain rfl : forces = own := Option.some.inj (hforces.symm.trans hcached)
    exact ⟨forces, hown, hgradient⟩

theorem gradRest_right_iff (hc : Coherent pot cached) :
    (gradRest pot cached x grad_out).Right pot ↔ Served pot cached x := by
  rcases gradTake_cases cached x grad_out with ⟨c, rfl, hsame, htake⟩ | ⟨hmiss, htake⟩
  · simp only [gradRest, htake]
    exact gradReturned_right_iff hc hsame
  · simp only [gradRest, htake]
    exact gradCallback_right_iff.trans (served_iff_of_miss hmiss).symm

end Requests

section Runs
variable {ι : Type} [DecidableEq ι] {cached' : Option (FusedEvaluation n)} {call' : Call n}
variable {i j : ι} {m : Move n} {ms : List (ι × Move n)}
variable {s t u v : State ι (Option (FusedEvaluation n)) (Call n)}

theorem next_section (h : next pot cached call m = some (cached', call')) :
    Section pot cached call m cached' call' := by
  cases call <;> cases m <;> simp only [next, Option.some.injEq, Prod.mk.injEq, reduceCtorEq] at h
  case idle.eval x v =>
    obtain ⟨rfl, rfl⟩ := h
    exact .enterEval cached x v
  case idle.grad x g =>
    obtain ⟨rfl, rfl⟩ := h
    exact .enterGrad cached x g
  case evalEntered.advance x v =>
    obtain ⟨rfl, rfl⟩ := h
    exact .evalCallback cached x v
  case evalAnswered.advance x v a =>
    obtain ⟨rfl, rfl⟩ := Prod.mk.inj h
    exact .store cached x v a
  case gradEntered.advance x g =>
    obtain ⟨rfl, rfl⟩ := Prod.mk.inj h
    exact .take cached x g
  case gradMissed.advance x g =>
    obtain ⟨rfl, rfl⟩ := h
    exact .gradCallback cached x g
  case evalReturned.advance x v r =>
    obtain ⟨rfl, rfl⟩ := h
    exact .leaveEval cached x v r
  case gradReturned.advance x g r =>
    obtain ⟨rfl, rfl⟩ := h
    exact .leaveGrad cached x g r

/-- One section keeps the cache coherent, whatever is requested. -/
theorem next_coherent (h : next pot cached call m = some (cached', call'))
    (hcached : Coherent pot cached) (hcall : call.Answered pot) :
    Coherent pot cached' ∧ call'.Answered pot := by
  cases next_section h with
  | evalCallback x v => exact ⟨hcached, rfl⟩
  | store x v a =>
    obtain rfl : a = pot.answer x := hcall
    refine ⟨evalStore_coherent, ?_⟩
    by_cases hstatus : (pot.answer x).1 = .SUCCESS <;> simp [evalStore, Call.Answered, hstatus]
  | take x g =>
    rcases gradTake_cases cached x g with ⟨c, rfl, -, htake⟩ | ⟨-, htake⟩
    · rw [htake]
      exact ⟨coherent_none, trivial⟩
    · rw [htake]
      exact ⟨coherent_none, trivial⟩
  | gradCallback x g =>
    refine ⟨hcached, ?_⟩
    by_cases hstatus : (pot.answer x).1 = .SUCCESS <;> simp [gradCallback, Call.Answered, hstatus]
  | _ => exact ⟨hcached, trivial⟩

/-- With the cache coherent, a section whose request is served keeps every call right. -/
theorem next_served (h : next pot cached call m = some (cached', call'))
    (hserves : Serves pot cached call m) (hcached : Coherent pot cached)
    (hcall : call.Answered pot ∧ call.Served pot) : call'.Served pot := by
  cases next_section h with
  | store x v a =>
    obtain rfl : a = pot.answer x := hcall.1
    have hright : (evalStore x v (pot.answer x)).2.Right pot := evalStore_right rfl
    by_cases hstatus : (pot.answer x).1 = .SUCCESS
    · simpa [evalStore, hstatus, Call.Served] using hright
    · simpa [evalStore, hstatus, Call.Served] using hright
  | take x g =>
    have hserved := hserves x g rfl
    rcases gradTake_cases cached x g with ⟨c, rfl, hsame, htake⟩ | ⟨hmiss, htake⟩
    · rw [htake]
      exact (gradReturned_right_iff hcached hsame).mpr hserved
    · rw [htake]
      exact (served_iff_of_miss hmiss).mp hserved
  | gradCallback x g =>
    have hright : (gradCallback pot x g).Right pot := gradCallback_right_iff.mpr hcall.2
    by_cases hstatus : (pot.answer x).1 = .SUCCESS
    · simpa [gradCallback, hstatus, Call.Served] using hright
    · simpa [gradCallback, hstatus, Call.Served] using hright
  | _ => trivial

theorem Call.Served.right (h : call.Served pot) : call.Right pot := by
  cases call with
  | gradMissed x g => trivial
  | _ => exact h

/-- The cache of every reachable state is coherent, whatever was requested on the way. -/
theorem run_coherent (h : run (next pot) (initial ι n) ms = some s) :
    Coherent pot s.shared ∧ ∀ i, (s.thread i).Answered pot := by
  have hinit : Coherent pot (initial ι n).shared ∧ ∀ i, ((initial ι n).thread i).Answered pot :=
    ⟨coherent_none, fun i => trivial⟩
  refine invariant _ _ ?_ hinit (along_true (initial ι n) ms) h
  intro c l m c' l' hmove _ hc hl
  exact next_coherent hmove hc hl

/-- In a run that serves every gradient request, every call returns right. -/
theorem run_right (h : run (next pot) (initial ι n) ms = some s)
    (hserves : Along (next pot) (Serves pot) (initial ι n) ms) (i : ι) :
    (s.thread i).Right pot := by
  have hinv := invariant (Coherent pot) (fun call => call.Answered pot ∧ call.Served pot) ?_
    ⟨coherent_none, fun i => ⟨trivial, trivial⟩⟩ hserves h
  · exact (hinv.2 i).2.right
  intro c l m c' l' hmove hp hc hl
  have hnext := next_coherent hmove hc hl.1
  exact ⟨hnext.1, hnext.2, next_served hmove hp hc hl⟩

/-- Only the two sections that take the lock change the cache. -/
theorem next_frame (h : next pot cached call m = some (cached', call'))
    (hunlocked : Unlocked cached call m) : cached' = cached := by
  cases next_section h with
  | store x v a => cases hunlocked
  | take x g => cases hunlocked
  | _ => rfl

/-- A gradient request that is the next to take the lock after the store of an evaluation that was
supplied forces, at the same `x`. -/
theorem take_after_store {forces : Coords n} {a : RgpotStatus × ForceOut n}
    (hstore : s.thread i = .evalAnswered x value_out a) (ha : supplied a = some forces)
    (hstep : step (next pot) s i .advance = some t)
    (hunlocked : Along (next pot) Unlocked t ms) (hrun : run (next pot) t ms = some u)
    (htake : u.thread j = .gradEntered x grad_out)
    (hnext : step (next pot) u j .advance = some v) :
    v.thread j = if samePositions x x then .gradReturned x (negate forces) .SUCCESS
      else .gradMissed x grad_out := by
  have hcache : u.shared = some ⟨x, negate forces⟩ := by
    rw [shared_frame (fun c l m c' l' => next_frame) hunlocked hrun]
    obtain ⟨c, l, hmove, rfl⟩ := step_inv hstep
    rw [hstore] at hmove
    cases next_section hmove
    have hstatus : a.1 = .SUCCESS := by
      by_contra hfailed
      simp [supplied, hfailed] at ha
    simp [evalStore, fused, hstatus, ha]
  obtain ⟨c, l, hmove, rfl⟩ := step_inv hnext
  rw [htake, hcache] at hmove
  cases next_section hmove
  by_cases hsame : samePositions x x <;> simp [gradTake, hsame]

/-- The requests of every run that are served are answered right, a request is answered right only
if it is served, and an evaluation that was supplied forces saves the next request at the same
position its callback, if the position has no NaN. -/
theorem fused_cache_serves (pot : Potential n) (h : run (next pot) (initial ι n) ms = some s) :
    (Along (next pot) (Serves pot) (initial ι n) ms → ∀ i, (s.thread i).Right pot) ∧
    (∀ x grad_out, (gradRest pot s.shared x grad_out).Right pot ↔ Served pot s.shared x) ∧
    ∀ i x value_out a forces t ms' u j grad_out v,
      s.thread i = .evalAnswered x value_out a → pot.forces x = some forces →
      step (next pot) s i .advance = some t →
      Along (next pot) Unlocked t ms' → run (next pot) t ms' = some u →
      u.thread j = .gradEntered x grad_out → step (next pot) u j .advance = some v →
      v.thread j = if ∀ k, isNaN (x k) = false then .gradReturned x (negate forces) .SUCCESS
        else .gradMissed x grad_out := by
  have hcoherent := run_coherent h
  refine ⟨run_right h, fun x g => gradRest_right_iff hcoherent.1, ?_⟩
  intro i x value_out a forces t ms' u j g v hstore hforces hstep hunlocked hrun htake hnext
  have ha : a = pot.answer x := by
    have hanswered := hcoherent.2 i
    rw [hstore] at hanswered
    exact hanswered
  have hsupplied : supplied a = some forces := by
    rw [ha]
    exact hforces
  rw [take_after_store hstore hsupplied hstep hunlocked hrun htake hnext]
  simp only [samePositions_self_iff]

end Runs

section Instances

/-- One atom; the callback answers with an energy and no forces, as a counting callback does. -/
def counting : Potential 1 where
  callback _ := (.SUCCESS, ⟨none, 1, 0⟩)
  atomic_numbers _ := 1
  box_matrix _ := 0

/-- The gradient request succeeds and leaves the caller's buffer as it was. -/
theorem counting_gradient_untouched : ∃ s, run (next counting) (initial Unit 1)
      [((), .grad (fun _ => 0) (fun _ => 7)), ((), .advance), ((), .advance)] = some s ∧
    s.thread () = .gradReturned (fun _ => 0) (fun _ => 7) .SUCCESS ∧
    ¬ (s.thread ()).Right counting := by
  refine ⟨_, rfl, rfl, ?_⟩
  rintro ⟨forces, hforces, -⟩
  cases hforces

/-- One atom on a spring at the origin. -/
def spring : Potential 1 where
  callback i := (.SUCCESS, ⟨some fun k => f64Neg (i.positions k), 1, 0⟩)
  atomic_numbers _ := 1
  box_matrix _ := 0

/-- One thread evaluates, and then another asks for the gradient. -/
def springRun : List (Bool × Move 1) :=
  [(false, .eval (fun _ => 2) 0), (false, .advance), (false, .advance),
    (true, .grad (fun _ => 2) (fun _ => 7)), (true, .advance)]

theorem fused_cache_serves_spring :
    (∃ s, run (next spring) (initial Bool 1) springRun = some s ∧
      ∀ i, (s.thread i).Right spring) ∧
    ∃ s t u v, run (next spring) (initial Bool 1) (springRun.take 2) = some s ∧
      step (next spring) s false .advance = some t ∧
      run (next spring) t [(true, .grad (fun _ => 2) (fun _ => 7))] = some u ∧
      step (next spring) u true .advance = some v ∧
      v.thread true = .gradReturned (fun _ => 2) (negate fun _ => f64Neg 2) .SUCCESS := by
  have hsupplied : spring.forces (fun _ => 2) = some fun _ => f64Neg 2 := rfl
  constructor
  · obtain ⟨s, hs⟩ : ∃ s, run (next spring) (initial Bool 1) springRun = some s := ⟨_, rfl⟩
    refine ⟨s, hs, (fused_cache_serves spring hs).1 ?_⟩
    refine along_cons (fun x g h => by cases h) rfl ?_
    refine along_cons (fun x g h => by cases h) rfl ?_
    refine along_cons (fun x g h => by cases h) rfl ?_
    refine along_cons (fun x g h => by cases h) rfl ?_
    refine along_cons (fun x g h => ?_) rfl trivial
    obtain ⟨rfl, -⟩ := Call.gradEntered.inj h
    exact ⟨_, hsupplied, hsupplied⟩
  · have hrun : run (next spring) (initial Bool 1) (springRun.take 2) = some _ := rfl
    have htake := (fused_cache_serves spring hrun).2.2 false (fun _ => 2) 0 _ _ _
      [(true, .grad (fun _ => 2) fun _ => 7)] _ true (fun _ => 7) _ rfl hsupplied rfl (along_cons rfl rfl trivial) rfl rfl rfl
    exact ⟨_, _, _, _, hrun, rfl, rfl, rfl, htake.trans (if_pos fun k => rfl)⟩

end Instances

end Rgpot.Eindir
