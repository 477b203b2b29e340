import Rgpot.Lib.Formula

/-! `ExprPot`: energies and forces over named children, through the slots their energies are stored
in. -/
namespace Rgpot.ExprPot

variable {K : Type}

structure ForceInput (K : Type) where
  nAtoms : ℕ
  pos : Fin (3 * nAtoms) → K
  atmnrs : Fin nAtoms → Int32
  box : Fin 9 → K

/-- A result slot; `F` is none for a null buffer, and a variance is none when it is not finite. -/
structure ForceOut (K : Type) (n : ℕ) where
  F : Option (Fin (3 * n) → K)
  energy : K
  variance : Option K
  stress : Fin 9 → K
  has_stress : Int32

/-- A potential of another class: what it answers depends on the input alone. -/
structure Leaf (K : Type) where
  energy : ForceInput K → K
  force : (input : ForceInput K) → Fin (3 * input.nAtoms) → K
  variance : ForceInput K → Option K

/-- A parsed expression over `n` terms: the names are distinct and cover its variables. -/
structure Compiled (K : Type) (n : ℕ) where
  name : Fin n → String
  expression : Formula K String
  name_injective : Function.Injective name
  vars_subset : expression.vars ⊆ Set.range name

inductive Pot (K : Type) where
  | leaf (leaf : Leaf K)
  | expr {n : ℕ} (compiled : Compiled K n) (terms : Fin n → Pot K)

/-- The slots `energyValue` of a potential and of the potentials under it. -/
def Slots : Pot K → Type
  | .leaf _ => Unit
  | .expr (n := n) _ terms => (Fin n → K) × ((i : Fin n) → Slots (terms i))

namespace Compiled
variable [CommRing K] {n : ℕ} (c : Compiled K n)

/-- The variable locations `bindVars` sets: the slot of the term of a name. -/
def locs (slots : Fin n → K) (x : String) : K :=
  match (List.finRange n).find? fun i => c.name i = x with
  | some i => slots i
  | none => 0

/-- `energy.evaluate()`. -/
def evaluate (slots : Fin n → K) : K := c.expression.eval (c.locs slots)

/-- `dEnergy.evaluate()` of a term. -/
def dEnergy (slots : Fin n → K) (i : Fin n) : K := c.expression.deriv (c.name i) (c.locs slots)

theorem locs_name (slots : Fin n → K) (i : Fin n) : c.locs slots (c.name i) = slots i := by
  have hfind : (List.finRange n).find? (fun j => c.name j = c.name i) = some i := by
    rw [List.find?_eq_some_iff_append]
    obtain ⟨before, after, hsplit⟩ := List.append_of_mem (List.mem_finRange i)
    refine ⟨by simp, before, after, hsplit, ?_⟩
    intro j hj
    have hnodup := List.nodup_finRange n
    rw [hsplit, List.nodup_append] at hnodup
    have hne : j ≠ i := hnodup.2.2 j hj i List.mem_cons_self
    simp [c.name_injective.ne hne]
  simp [locs, hfind]

end Compiled

/-- What `forceBatch` resets before it calls a kernel. -/
def ForceOut.cleared [Zero K] {n : ℕ} (out : ForceOut K n) : ForceOut K n :=
  { out with variance := some 0, has_stress := 0, stress := fun _ => 0 }

/-- The buffers a composite hands to one child. -/
def childOut [Zero K] (n : ℕ) : ForceOut K n where
  F := if 3 * n = 0 then none else some fun _ => 0
  energy := 0
  variance := some 0
  stress := fun _ => 0
  has_stress := 0

/-- What the loop over the terms has filled in. -/
structure Loop {n : ℕ} (terms : Fin n → Pot K) (nAtoms : ℕ) where
  slots : Fin n → K
  children : (i : Fin n) → Slots (terms i)
  childForces : Fin n → Fin (3 * nAtoms) → K
  childVars : Fin n → Option K

section Loop
variable [Zero K] {n nAtoms : ℕ} {terms : Fin n → Pot K}
  (run : (i : Fin n) → Slots (terms i) → ForceOut K nAtoms × Slots (terms i))

/-- One turn of the loop: a child runs, and its answer is stored. -/
def Loop.visit (l : Loop terms nAtoms) (i : Fin n) : Loop terms nAtoms :=
  let r := run i (l.children i)
  { slots := Function.update l.slots i r.1.energy
    children := Function.update l.children i r.2
    childForces := Function.update l.childForces i (r.1.F.getD fun _ => 0)
    childVars := Function.update l.childVars i r.1.variance }

/-- The loop over all terms, from the slots an earlier call has left. -/
def Loop.all (slots : Fin n → K) (children : (i : Fin n) → Slots (terms i)) :
    Loop terms nAtoms :=
  (List.finRange n).foldl (Loop.visit run)
    { slots := slots, children := children, childForces := fun _ _ => 0, childVars := fun _ => some 0 }

/-- A term that is visited once is stored from its own slots, and the others keep what they had. -/
theorem Loop.foldl_visit {order : List (Fin n)} (hnodup : order.Nodup) (l : Loop terms nAtoms) :
    (∀ i ∈ order, (order.foldl (Loop.visit run) l).slots i = (run i (l.children i)).1.energy ∧
      (order.foldl (Loop.visit run) l).childForces i =
        ((run i (l.children i)).1.F.getD fun _ => 0) ∧
      (order.foldl (Loop.visit run) l).childVars i = (run i (l.children i)).1.variance) ∧
    ∀ i, i ∉ order → (order.foldl (Loop.visit run) l).slots i = l.slots i ∧
      (order.foldl (Loop.visit run) l).childForces i = l.childForces i ∧
      (order.foldl (Loop.visit run) l).childVars i = l.childVars i := by
  induction order generalizing l with
  | nil => simp
  | cons j order ih =>
    obtain ⟨hj, hnodup⟩ := List.nodup_cons.mp hnodup
    obtain ⟨hvisited, hkept⟩ := ih hnodup (Loop.visit run l j)
    have hother : ∀ i, i ≠ j → (Loop.visit run l j).children i = l.children i ∧
        (Loop.visit run l j).slots i = l.slots i ∧
        (Loop.visit run l j).childForces i = l.childForces i ∧
        (Loop.visit run l j).childVars i = l.childVars i := by
      intro i hi
      simp [Loop.visit, hi]
    simp only [List.foldl_cons]
    constructor
    · intro i hi
      by_cases hij : i = j
      · rw [hij]
        obtain ⟨hslots, hforces, hvars⟩ := hkept j hj
        refine ⟨hslots.trans ?_, hforces.trans ?_, hvars.trans ?_⟩ <;> simp [Loop.visit]
      · have hmem : i ∈ order := (List.mem_cons.mp hi).resolve_left hij
        have hv := hvisited i hmem
        rw [(hother i hij).1] at hv
        exact hv
    · intro i hi
      rw [List.mem_cons, not_or] at hi
      obtain ⟨hslots, hforces, hvars⟩ := hkept i hi.2
      obtain ⟨-, hslots', hforces', hvars'⟩ := hother i hi.1
      exact ⟨hslots.trans hslots', hforces.trans hforces', hvars.trans hvars'⟩

/-- After the loop every slot holds what its child has answered now. -/
theorem Loop.all_eq (slots : Fin n → K) (children : (i : Fin n) → Slots (terms i)) (i : Fin n) :
    (Loop.all run slots children).slots i = (run i (children i)).1.energy ∧
      (Loop.all run slots children).childForces i = ((run i (children i)).1.F.getD fun _ => 0) ∧
      (Loop.all run slots children).childVars i = (run i (children i)).1.variance :=
  (Loop.foldl_visit run (List.nodup_finRange n) _).1 i (List.mem_finRange i)

end Loop

namespace Pot
variable [CommRing K]

/-- The kernels: a leaf answers, an `ExprPot` lets its children answer, stores their energies and then
evaluates its expression and the weights on what is stored. -/
def forceImpl : (p : Pot K) → Slots p → (input : ForceInput K) → ForceOut K input.nAtoms →
    ForceOut K input.nAtoms × Slots p
  | .leaf l, s, input, out =>
    ({ out with
        F := out.F.map fun _ => l.force input
        energy := l.energy input
        variance := l.variance input }, s)
  | .expr c terms, s, input, out =>
    let loop := Loop.all (fun i si => (terms i).forceImpl si input (childOut input.nAtoms).cleared)
      s.1 s.2
    ({ out with
        F := out.F.map fun _ k => ∑ i, c.dEnergy loop.slots i * loop.childForces i k
        energy := c.evaluate loop.slots
        variance :=
          if ∀ i, (loop.childVars i).isSome then
            some (∑ i, c.dEnergy loop.slots i * (loop.childVars i).getD 0)
          else some 0 }, (loop.slots, loop.children))

/-- `forceBatch` of one system, without a cache. -/
def forceBatch (p : Pot K) (s : Slots p) (input : ForceInput K) (out : ForceOut K input.nAtoms) :
    ForceOut K input.nAtoms × Slots p :=
  p.forceImpl s input out.cleared

/-- The energy of a tree at a geometry. -/
def energy : Pot K → ForceInput K → K
  | .leaf l, input => l.energy input
  | .expr c terms, input => c.evaluate fun i => (terms i).energy input

/-- The forces of a tree at a geometry: the weights at the children's energies. -/
def force : Pot K → (input : ForceInput K) → Fin (3 * input.nAtoms) → K
  | .leaf l, input => l.force input
  | .expr c terms, input => fun k =>
    ∑ i, c.dEnergy (fun j => (terms j).energy input) i * (terms i).force input k

/-- Whatever the slots hold from earlier calls, a call answers with the energy and the forces of its own
geometry: induction over the tree, with the loop storing every child before a weight is read. -/
theorem forceImpl_spec (p : Pot K) (s : Slots p) (input : ForceInput K)
    (out : ForceOut K input.nAtoms) :
    (p.forceImpl s input out).1.energy = p.energy input ∧
      (p.forceImpl s input out).1.F = out.F.map fun _ => p.force input := by
  induction p generalizing out with
  | leaf l => exact ⟨rfl, rfl⟩
  | expr c terms ih =>
    have hloop := Loop.all_eq
      (fun i si => (terms i).forceImpl si input (childOut input.nAtoms).cleared) s.1 s.2
    have hslots : (Loop.all (fun i si => (terms i).forceImpl si input
        (childOut input.nAtoms).cleared) s.1 s.2).slots = fun i => (terms i).energy input := by
      funext i
      rw [(hloop i).1, (ih i _ _).1]
    have hforces : ∀ i, (Loop.all (fun i si => (terms i).forceImpl si input
        (childOut input.nAtoms).cleared) s.1 s.2).childForces i = (terms i).force input := by
      intro i
      rw [(hloop i).2.1, (ih i _ _).2]
      funext k
      have hpos : ¬ 3 * input.nAtoms = 0 := by
        have := k.isLt
        omega
      simp [childOut, ForceOut.cleared, hpos]
    refine ⟨?_, ?_⟩
    · simp only [forceImpl, energy, hslots]
    · simp only [forceImpl, force, hslots, hforces]

theorem forceBatch_spec (p : Pot K) (s : Slots p) (input : ForceInput K)
    (out : ForceOut K input.nAtoms) :
    (p.forceBatch s input out).1.energy = p.energy input ∧
      (p.forceBatch s input out).1.F = out.F.map fun _ => p.force input :=
  p.forceImpl_spec s input out.cleared

end Pot
end Rgpot.ExprPot
