import Rgpot.Engines.Reuse
import Rgpot.Metatomic.CachedTypes

/-! Runs of force calls on the kernels over native engines. -/
namespace Rgpot.Engines
open Component Metatomic

variable {K : Type} [Field K] [LinearOrder K]

/-- The kernels that keep something of an engine between calls, each with its engine and its
configuration. -/
inductive Kernel (K : Type) where
  | XTB (E : Engine K (XTBConfig K)) (m_config : XTBConfig K)
  | TBLite (E : Engine K (TBLiteConfig K)) (m_config : TBLiteConfig K)
  | D3 (E : Engine K D3Config) (m_config : D3Config)
  | D4 (E : Engine K (D4Config K)) (m_config : D4Config K)
  | Metatomic (M : AtomisticModel K) (random_so3 : ℕ → Rows K 3) (m_config : MetatomicConfig)

namespace Kernel

/-- What an instance keeps. -/
def State : Kernel K → Type
  | .XTB .. | .TBLite .. | .D3 .. | .D4 .. => Handles K
  | .Metatomic .. => CachedTypes

/-- A freshly constructed instance, and its force calls. -/
def component : (k : Kernel K) →
    Component k.State (Call K) (fun call => ForceOut K call.1.nAtoms) Failure
  | .XTB E c => ⟨Engines.fresh, fun s call => XTBPot.forceImpl call s E c⟩
  | .TBLite E c => ⟨Engines.fresh, fun s call => TBLitePot.forceImpl call s E c⟩
  | .D3 E c => ⟨Engines.fresh, fun s call => D3Pot.forceImpl call s E c⟩
  | .D4 E c => ⟨Engines.fresh, fun s call => D4Pot.forceImpl call s E c⟩
  | .Metatomic M random_so3 c => ⟨.fresh, fun s call => MetatomicPot.forceImpl M random_so3 c call s⟩

/-- Whenever the reuse test passes, what is reused was made for the atoms of the call. -/
def Matches : (k : Kernel K) → k.State → Call K → Prop
  | .XTB .. | .TBLite .. => fun (s : Handles K) call => s.m_initialized = true → s.Fits call.1
  | .D3 .. | .D4 .. => fun (s : Handles K) call =>
    s.m_initialized = true → s.m_natoms = intN call.1 → s.Fits call.1
  | .Metatomic .. => fun (s : CachedTypes) call => s.Fits call.1

/-- `forceBatch` without a cache: the slots are cleared, and the systems are evaluated in order. -/
def forceBatch (k : Kernel K) (s : k.State) (systems : List (Call K)) :=
  k.component.loop s (systems.map fun call => ⟨call.1, call.2.cleared⟩)

end Kernel

section Prepare
variable {C : Type} {call : Call K} {s : Handles K} {what : String}

theorem XTBPot.forceImpl_ends {E : Engine K (XTBConfig K)} {c : XTBConfig K}
    (h : s.m_initialized = true → s.Fits call.1) :
    Ends Overruns (fun o _ => (forceImpl call fresh E c).1 = .ok o) (forceImpl call s E c) := by
  apply ends_of_prepare (p := fun s => XTBPot.prepare call s E c) (i := call.1)
    (w := fun a => publishVirial call.1 a.2 (publish call.1 call.2 a.2))
  · unfold XTBPot.prepare
    split
    · exact ends_ok (newModel_current (newStructure_holds (s := s)))
    · rename_i hinit
      exact update_ends (h (not_not.mp hinit))
  · intro b hb
    refine ⟨_, rfl, ?_⟩
    rw [newStructure_eq hb, newModel_eq hb rfl]
    exact ⟨rfl, rfl, rfl⟩

theorem TBLitePot.forceImpl_ends {E : Engine K (TBLiteConfig K)} {c : TBLiteConfig K}
    (h : s.m_initialized = true → s.Fits call.1) :
    Ends Overruns (fun o _ => (forceImpl call fresh E c).1 = .ok o) (forceImpl call s E c) := by
  apply ends_of_prepare (p := fun s => TBLitePot.prepare call s E c) (i := call.1)
    (w := fun a => publishVirial call.1 a.2 (publish call.1 call.2 a.2))
  · unfold TBLitePot.prepare
    split
    · have hstructure : Ends Overruns (fun _ t => t.Holds call.1)
          (ownError E s "tblite structure error" fun s => (.ok (), newStructure E c call.1 s)) := by
        apply ownError_ends
        · exact fun t messages ht => ht
        · exact ends_ok newStructure_holds
      apply hstructure.andThen
      intro _ t ht
      apply (throwIfError_ends (P := (·.Current call.1)) (newModel_current ht)).andThen
      intro _ u hu
      exact ends_ok hu
    · rename_i hinit
      have hfits := h (not_not.mp hinit)
      apply ownError_ends
      · exact fun t messages ht => ht
      · exact update_ends ⟨hfits.in_bounds, hfits.same⟩
  · intro b hb
    have hprepare : TBLitePot.prepare call fresh E c = (.ok (),
        { newModel E c (newStructure E c call.1 fresh) with m_initialized := true }) := by
      have hstructure : ownError E fresh "tblite structure error"
          (fun s => (.ok (), newStructure E c call.1 s)) = (.ok (), newStructure E c call.1 fresh) := by
        simp [ownError, andThen, newStructure_eq hb, fresh]
      have hmodel : (newModel E c (newStructure E c call.1 fresh)).messages = [] := by
        rw [newStructure_eq hb, newModel_eq hb rfl]
        rfl
      have huninitialized : ¬ (fresh (K := K)).m_initialized = true := Bool.false_ne_true
      simp only [TBLitePot.prepare, if_pos huninitialized, hstructure, andThen,
        throwIfError_nil hmodel]
    refine ⟨_, hprepare, ?_⟩
    rw [newStructure_eq hb, newModel_eq hb rfl]
    exact ⟨rfl, rfl, rfl⟩

omit [LinearOrder K] in
theorem dispersionForceImpl_ends {texts : Texts} {E : Engine K C} {c : C}
    (h : s.m_initialized = true → s.m_natoms = intN call.1 → s.Fits call.1) :
    Ends Overruns (fun o _ => (dispersionForceImpl call fresh texts E c).1 = .ok o)
      (dispersionForceImpl call s texts E c) := by
  apply ends_of_prepare (p := fun s => dispersionPrepare call s texts E c) (i := call.1)
    (w := fun a => publish call.1 call.2 a.2)
  · unfold dispersionPrepare
    split
    · apply (throwIfError_ends (P := (·.Holds call.1)) newStructure_holds).andThen
      intro _ t ht
      apply (throwIfError_ends (P := (·.Current call.1)) (newModel_current ht)).andThen
      intro _ u hu
      exact ends_ok hu
    · rename_i hreuse
      rw [not_or, not_not, not_not] at hreuse
      apply (update_ends (h hreuse.1 hreuse.2)).andThen
      intro _ t ht
      exact throwIfError_ends ht
  · intro b hb
    have hprepare : dispersionPrepare call fresh texts E c = (.ok (),
        { newModel E c (newStructure E c call.1 fresh) with
          m_natoms := intN call.1
          m_initialized := true }) := by
      have hstructure : (newStructure E c call.1 fresh).messages = [] := by
        rw [newStructure_eq hb]
        rfl
      have hmodel : (newModel E c (newStructure E c call.1 fresh)).messages = [] := by
        rw [newStructure_eq hb, newModel_eq hb rfl]
        rfl
      have huninitialized : ¬ (fresh (K := K)).m_initialized = true := Bool.false_ne_true
      simp only [dispersionPrepare, if_pos (Or.inl huninitialized), throwIfError_nil hstructure,
        andThen, throwIfError_nil hmodel]
    refine ⟨_, hprepare, ?_⟩
    rw [newStructure_eq hb, newModel_eq hb rfl]
    exact ⟨rfl, rfl, rfl⟩

end Prepare

/-- One force call. -/
theorem Kernel.forgets {k : Kernel K} {s : k.State} {call : Call K} (h : k.Matches s call) :
    k.component.Forgets Overruns s call := by
  cases k with
  | XTB E c => exact XTBPot.forceImpl_ends h
  | TBLite E c => exact TBLitePot.forceImpl_ends h
  | D3 E c => exact dispersionForceImpl_ends h
  | D4 E c => exact dispersionForceImpl_ends h
  | Metatomic M random_so3 c => exact MetatomicPot.forceImpl_ends h

/-- Along every run in which what is reused was made for the atoms of the call, each force call that
returns gives what it gives on a freshly constructed instance, and so does each batch. -/
theorem engines_forget (k : Kernel K) (calls : List (Call K))
    (h : k.component.Along k.Matches k.component.fresh calls) :
    (∀ before call rest, calls = before ++ call :: rest →
      k.component.Forgets Overruns (k.component.after k.component.fresh before) call) ∧
    ∀ before systems rest,
      calls = before ++ (systems.map fun call => ⟨call.1, call.2.cleared⟩) ++ rest →
      ∀ outs, (k.forceBatch (k.component.after k.component.fresh before) systems).1 = .ok outs →
        (systems.map fun call => ⟨call.1, call.2.cleared⟩).mapM k.component.independent =
          .ok outs := by
  constructor
  · intro before call rest hcalls
    exact forgets_of_along (fun _ _ => Kernel.forgets) h hcalls
  · intro before systems rest hcalls outs houts
    rw [hcalls, along_append, along_append] at h
    exact loop_independent (fun _ _ => Kernel.forgets) h.1.2 houts

section Species

/-- An engine whose energy is the first atomic number. -/
def numbersEngine (C : Type) : Engine ℚ C where
  newStructure _ _ := (true, [])
  update _ := []
  newModel _ _ := []
  result _ m := .ok ⟨if h : 0 < m.comp.1.toNatClampNeg then ((m.comp.2 ⟨0, h⟩).toInt : ℚ) else 0,
    fun _ => 0, fun _ => 0⟩
  missing := "Molecular structure data is missing"
  getError messages := (messages.headD "", [])
  result_new _ _ _ _ := ⟨rfl, rfl⟩

/-- One atom at the origin, without a cell. -/
def atom (z : Int32) : Call ℚ := ⟨⟨1, fun _ => 0, fun _ => z, fun _ => 0⟩, ExprPot.childOut 1⟩

def gfn2 : XTBConfig ℚ := ⟨.GFN2xTB, 1, 300, 250, 0, 0⟩

def afterHydrogen : Handles ℚ := ⟨some (molecule (atom 1).1), true, true, 0, []⟩

theorem publishVirial_energy {c : Composition} (input : ForceInput K) (a : Answer K c)
    (out : ForceOut K input.nAtoms) : (publishVirial input a out).energy = out.energy := by
  simp only [publishVirial]
  split <;> rfl

/-- Whatever the call asks for, the handles made for hydrogen answer for hydrogen. -/
theorem forceImpl_afterHydrogen : ∃ o,
    (XTBPot.forceImpl (atom 8) afterHydrogen (numbersEngine _) gfn2).1 = .ok o ∧
      o.energy = 1 * HARTREE_TO_EV := by
  refine ⟨_, rfl, ?_⟩
  rw [publishVirial_energy]
  rfl

theorem forceImpl_oxygen : ∃ o,
    (XTBPot.forceImpl (atom 8) fresh (numbersEngine _) gfn2).1 = .ok o ∧
      o.energy = 8 * HARTREE_TO_EV := by
  refine ⟨_, rfl, ?_⟩
  rw [publishVirial_energy]
  rfl

/-- Oxygen after hydrogen gives the energy of hydrogen. -/
theorem not_engines_forget : ¬ ∀ (k : Kernel ℚ) (before : List (Call ℚ)) (call : Call ℚ),
    k.component.Forgets Overruns (k.component.after k.component.fresh before) call := by
  intro h
  obtain ⟨o, ho, henergy⟩ := forceImpl_afterHydrogen
  obtain ⟨o', ho', henergy'⟩ := forceImpl_oxygen
  have hsame := (h (.XTB (numbersEngine _) gfn2) [atom 1] (atom 8)).2 o ho
  have heq : o = o' := Except.ok.inj (hsame.symm.trans ho')
  rw [heq, henergy'] at henergy
  norm_num [HARTREE_TO_EV] at henergy

/-- Three calls for oxygen on one instance. -/
theorem engines_forget_oxygen :
    (Kernel.XTB (numbersEngine _) gfn2).component.Forgets Overruns
      ((Kernel.XTB (numbersEngine _) gfn2).component.after
        (Kernel.XTB (numbersEngine _) gfn2).component.fresh [atom 8, atom 8]) (atom 8) := by
  refine (engines_forget (.XTB (numbersEngine _) gfn2) [atom 8, atom 8, atom 8] ?_).1
    [atom 8, atom 8] (atom 8) [] rfl
  have hfits : Handles.Fits (⟨some (molecule (atom 8).1), true, true, 0, []⟩ : Handles ℚ)
      (atom 8).1 := by
    constructor
    · intro mol hmol
      cases hmol
      exact intN_le _
    · intro mol hmol _
      cases hmol
      rfl
  refine ⟨?_, fun _ => hfits, fun _ => hfits, trivial⟩
  intro hinit
  cases hinit

end Species

end Rgpot.Engines
