import Mathlib.Data.UInt
import Rgpot.Lib.LinkedNodes

/-! `registry<T>`: the instances of a class of potentials in a list that they carry themselves. -/
namespace Rgpot.Registry
open LinkedNodes

/-- The statics of the class, with the `prev` and `next` of every address. -/
structure State (A : Type) where
  count : UInt64
  forceCalls : UInt64
  links : Links A

variable {A : Type} [DecidableEq A]

def State.construct (s : State A) (this : A) : State A :=
  { s with count := s.count + 1, links := s.links.pushFront this }

/-- The copy constructor does not look at the instance it copies. -/
def State.copy (s : State A) (this _other : A) : State A :=
  { s with count := s.count + 1, links := s.links.pushFront this }

def State.destroy (s : State A) (this : A) : State A :=
  { s with count := s.count - 1, links := s.links.unlink this }

def State.incrementForceCalls (s : State A) : State A := { s with forceCalls := s.forceCalls + 1 }

/-- The assignment operator that the compiler supplies. -/
def State.assign (s : State A) (this other : A) : State A :=
  { s with links := s.links.copyLinks this other }

inductive Event (A : Type) where
  | construct (this : A)
  | copy (this other : A)
  | destroy (this : A)
  | evaluate (this : A)
  | assign (this other : A)

def step (s : State A) : Event A → State A
  | .construct this => s.construct this
  | .copy this other => s.copy this other
  | .destroy this => s.destroy this
  | .evaluate _ => s.incrementForceCalls
  | .assign this other => s.assign this other

/-- The instances after an event, the youngest first. -/
def alive (live : List A) : Event A → List A
  | .construct this | .copy this _ => this :: live
  | .destroy this => live.erase this
  | .evaluate _ | .assign _ _ => live

/-- An address holds one instance at a time, and only instances are used. -/
def Allowed (live : List A) : Event A → Prop
  | .construct this => this ∉ live
  | .copy this other => this ∉ live ∧ other ∈ live
  | .destroy this | .evaluate this => this ∈ live
  | .assign this other => this ∈ live ∧ other ∈ live

def Valid : List A → List (Event A) → Prop
  | _, [] => True
  | live, e :: es => Allowed live e ∧ Valid (alive live e) es

instance (live : List A) : (e : Event A) → Decidable (Allowed live e)
  | .construct this => inferInstanceAs (Decidable (this ∉ live))
  | .copy this other => inferInstanceAs (Decidable (this ∉ live ∧ other ∈ live))
  | .destroy this | .evaluate this => inferInstanceAs (Decidable (this ∈ live))
  | .assign this other => inferInstanceAs (Decidable (this ∈ live ∧ other ∈ live))

instance decidableValid : (live : List A) → (es : List (Event A)) → Decidable (Valid live es)
  | _, [] => inferInstanceAs (Decidable True)
  | live, e :: es => @instDecidableAnd _ _ _ (decidableValid (alive live e) es)

def evaluations (es : List (Event A)) : ℕ := es.countP fun e => e matches .evaluate _

/-- No instance is assigned from another one. -/
def Unassigned (es : List (Event A)) : Prop := ∀ this other, Event.assign this other ∈ es → this = other

/-- The registry as it is when no instance exists; the addresses hold anything. -/
def fresh (prev next : A → Option A) : State A := ⟨0, 0, ⟨none, prev, next⟩⟩

/-- The list has the live instances, the counters their number and that of the evaluations. -/
structure Tracks (s : State A) (live : List A) (calls : ℕ) : Prop where
  links : Chained s.links live
  count : s.count = UInt64.ofNat live.length
  forceCalls : s.forceCalls = UInt64.ofNat calls

variable {s : State A} {live : List A} {calls : ℕ} {es : List (Event A)}

/-- One event. -/
theorem tracks_step {e : Event A} (h : Tracks s live calls) (hallowed : Allowed live e)
    (hassign : ∀ this other, e = .assign this other → this = other) :
    Tracks (step s e) (alive live e) (calls + evaluations [e]) := by
  cases e with
  | construct this =>
    refine ⟨chained_pushFront h.links hallowed, ?_, h.forceCalls⟩
    simp [step, State.construct, alive, h.count]
  | copy this other =>
    refine ⟨chained_pushFront h.links hallowed.1, ?_, h.forceCalls⟩
    simp [step, State.copy, alive, h.count]
  | destroy this =>
    have hlive : 0 < live.length := List.length_pos_of_mem hallowed
    refine ⟨chained_unlink h.links hallowed, ?_, h.forceCalls⟩
    have hcount : s.count = UInt64.ofNat (live.length - 1) + 1 := by
      rw [h.count, ← UInt64.ofNat_one, ← UInt64.ofNat_add]
      congr 1
      omega
    simp [step, State.destroy, alive, hcount, List.length_erase_of_mem hallowed]
  | evaluate this =>
    refine ⟨h.links, h.count, ?_⟩
    simp [step, State.incrementForceCalls, evaluations, h.forceCalls]
  | assign this other =>
    obtain rfl := hassign this other rfl
    have hcopy : s.links.copyLinks this this = s.links := by
      simp [Links.copyLinks, Links.setNext, Links.setPrev]
    refine ⟨?_, h.count, h.forceCalls⟩
    rw [step, State.assign, hcopy]
    exact h.links

omit [DecidableEq A] in
theorem evaluations_cons (e : Event A) (es : List (Event A)) :
    evaluations (e :: es) = evaluations [e] + evaluations es := by
  simp only [evaluations, List.countP_cons, List.countP_nil]
  omega

theorem tracks_run (h : Tracks s live calls) (hvalid : Valid live es) (hassign : Unassigned es) :
    Tracks (es.foldl step s) (es.foldl alive live) (calls + evaluations es) := by
  induction es generalizing s live calls with
  | nil => exact h
  | cons e es ih =>
    have he : ∀ this other, e = .assign this other → this = other := by
      rintro this other rfl
      exact hassign this other List.mem_cons_self
    rw [evaluations_cons, ← Nat.add_assoc]
    exact ih (tracks_step h hvalid.1 he) hvalid.2 fun this other hmem =>
      hassign this other (List.mem_cons_of_mem e hmem)

omit [DecidableEq A] in
theorem tracks_fresh (prev next : A → Option A) : Tracks (fresh prev next) [] 0 :=
  ⟨chained_nil prev next, rfl, rfl⟩

/-- However instances are constructed, copied, evaluated and destroyed, a walk from the head meets exactly the
live ones, the youngest first, and the counters are exact up to their width. -/
theorem registry_run (prev next : A → Option A) (hvalid : Valid [] es) (hassign : Unassigned es) :
    let s := es.foldl step (fresh prev next)
    let live := es.foldl alive []
    (∀ i, (fun o => o.bind s.links.next)^[i] s.links.head = live[i]?) ∧ s.count = UInt64.ofNat live.length ∧
      s.forceCalls = UInt64.ofNat (evaluations es) := by
  have h := tracks_run (tracks_fresh prev next) hvalid hassign
  rw [Nat.zero_add] at h
  exact ⟨h.links.walk, h.count, h.forceCalls⟩

theorem registry_run_example : let es : List (Event ℕ) := [.construct 1, .copy 2 1, .evaluate 2, .destroy 1]
    let s := es.foldl step (fresh some some)
    let live := es.foldl alive []
    (∀ i, (fun o => o.bind s.links.next)^[i] s.links.head = live[i]?) ∧ s.count = UInt64.ofNat live.length ∧
      s.forceCalls = UInt64.ofNat (evaluations es) :=
  registry_run some some (by decide) (by simp [Unassigned])

/-- The links are those of a list of the live instances, in any order. -/
def Linked (s : State A) (live : List A) : Prop := ∃ bs, bs.Perm live ∧ Chained s.links bs

theorem unassigned_of_linked (h : Tracks s live calls) (hvalid : Valid live es)
    (hlinked : ∀ k, Linked ((es.take k).foldl step s) ((es.take k).foldl alive live)) : Unassigned es := by
  induction es generalizing s live calls with
  | nil => exact fun _ _ => nofun
  | cons e es ih =>
    have he : ∀ this other, e = .assign this other → this = other := by
      rintro this other rfl
      obtain ⟨hthis, hother⟩ := hvalid.1
      exact (chained_copyLinks_iff h.links hthis hother).mp (hlinked 1)
    have hes := ih (tracks_step h hvalid.1 he) hvalid.2 fun k => hlinked (k + 1)
    intro this other hmem
    rcases List.mem_cons.mp hmem with heq | hmem
    · exact he this other heq.symm
    · exact hes this other hmem

theorem valid_take (hvalid : Valid live es) (k : ℕ) : Valid live (es.take k) := by
  induction es generalizing live k with
  | nil => rw [List.take_nil]; trivial
  | cons e es ih =>
    cases k with
    | zero => trivial
    | succ k => exact ⟨hvalid.1, ih hvalid.2 k⟩

/-- The supplied assignment copies the links along. In a run the links are those of a list of the live
instances at every moment exactly when no instance is ever assigned from another one. -/
theorem linked_iff_unassigned (prev next : A → Option A) (hvalid : Valid [] es) :
    (∀ k, Linked ((es.take k).foldl step (fresh prev next)) ((es.take k).foldl alive [])) ↔ Unassigned es := by
  constructor
  · exact unassigned_of_linked (tracks_fresh prev next) hvalid
  · intro hassign k
    have htake : Unassigned (es.take k) := fun this other hmem => hassign this other (List.mem_of_mem_take hmem)
    exact ⟨_, List.Perm.refl _, (tracks_run (tracks_fresh prev next) (valid_take hvalid k) htake).links⟩

theorem linked_iff_unassigned_example : let es : List (Event ℕ) := [.construct 1, .construct 2, .assign 1 2]
    (∀ k, Linked ((es.take k).foldl step (fresh some some)) ((es.take k).foldl alive [])) ↔ Unassigned es :=
  linked_iff_unassigned some some (by decide)

end Rgpot.Registry
