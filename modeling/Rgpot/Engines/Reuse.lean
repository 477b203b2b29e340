import Rgpot.Engines.Handles
import Rgpot.Lib.Fallible

/-! When a force call over native handles answers as on fresh ones. -/
namespace Rgpot.Engines
open Component

variable {K C : Type} [Field K]
variable {E : Engine K C} {c : C} {input : ForceInput K} {s : Handles K} {what : String}

/-- The handles fit an input: an update stays within the buffer, and a complete set was made for the
same atoms. -/
structure Handles.Fits (s : Handles K) (input : ForceInput K) : Prop where
  in_bounds : ∀ mol, s.m_mol = some mol → mol.comp.1.toNatClampNeg ≤ input.nAtoms
  same : ∀ mol, s.m_mol = some mol → s.m_model = true → mol.comp = composition input

/-- A complete set of handles holds the structure of the input. -/
def Handles.Current (s : Handles K) (input : ForceInput K) : Prop :=
  ∀ mol, s.m_mol = some mol → s.m_model = true → mol = molecule input

theorem updated_eq {mol : Molecule K} (h : mol.comp = composition input) :
    updated input mol = some (molecule input) := by
  obtain ⟨comp, positions, lattice⟩ := mol
  obtain rfl : comp = composition input := h
  exact dif_pos (intN_le input)

/-- The structure handle, if there is one, is that of the input. -/
def Handles.Holds (s : Handles K) (input : ForceInput K) : Prop :=
  ∀ mol, s.m_mol = some mol → mol = molecule input

theorem newStructure_holds : (newStructure E c input s).Holds input := by
  intro mol hmol
  have hheld : (if (E.newStructure c (molecule input)).1 then some (molecule input) else none) =
      some mol := hmol
  split at hheld
  · exact (Option.some.inj hheld).symm
  · cases hheld

theorem newModel_current (h : s.Holds input) : (newModel E c s).Current input :=
  fun mol hmol _ => h mol hmol

/-- Accesses past the end of a buffer are the faults. -/
def Overruns (e : Failure) : Prop := e = .overrun

omit [Field K] in
theorem throwPending_ends {α : Type} {post : α → Handles K → Prop} :
    Ends Overruns post (throwPending E s what) := by
  apply ends_error
  intro h
  cases h

omit [Field K] in
theorem throwIfError_ends {P : Handles K → Prop} (h : P s) :
    Ends Overruns (fun _ t => P t) (throwIfError E s what) := by
  unfold throwIfError
  split
  · exact ends_ok h
  · exact throwPending_ends

omit [Field K] in
theorem throwIfError_nil (h : s.messages = []) : throwIfError E s what = (.ok (), s) := if_pos h

omit [Field K] in
/-- A step with an error handle of its own leaves what the step does, where that is about the handles. -/
theorem ownError_ends {P : Handles K → Prop} {step : Handles K → Step K Unit}
    (hP : ∀ t messages, P t → P { t with messages := messages })
    (h : Ends Overruns (fun _ t => P t) (step { s with messages := [] })) :
    Ends Overruns (fun _ t => P t) (ownError E s what step) := by
  apply h.andThen
  intro _ t ht
  split
  · exact ends_ok (hP t _ ht)
  · apply ends_error
    intro hover
    cases hover

/-- An update of handles that fit stays within the buffer and leaves the structure of the input. -/
theorem update_ends (hfits : s.Fits input) :
    Ends Overruns (fun _ t => t.Current input) (update E input s) := by
  unfold update
  cases hmol : s.m_mol with
  | none =>
    apply ends_ok
    intro mol hheld
    cases hheld
  | some mol =>
    have hin := hfits.in_bounds mol hmol
    have hupdated : updated input mol = some (place input mol.comp hin) := dif_pos hin
    simp only [hupdated]
    apply ends_ok
    intro mol' hheld hmodel
    have hplaced := updated_eq (hfits.same mol hmol hmodel)
    rw [hupdated] at hplaced
    exact (Option.some.inj hheld).symm.trans (Option.some.inj hplaced)

/-- A single point of current handles is the result of the input's structure. -/
theorem evaluate_ends (hs : s.Current input) :
    Ends Overruns (fun a _ => ∃ b, E.result c (molecule input) = .ok b ∧ a = ⟨composition input, b⟩)
      (evaluate E c s what) := by
  unfold evaluate
  split
  · exact throwPending_ends
  · rename_i a hpoint
    split
    · apply ends_ok
      unfold singlepoint at hpoint
      cases hmol : s.m_mol with
      | none =>
        rw [hmol] at hpoint
        cases hpoint
      | some mol =>
        by_cases hmodel : s.m_model = true
        · obtain rfl := hs mol hmol hmodel
          simp only [hmol, hmodel, if_true] at hpoint
          obtain ⟨b, hb, rfl⟩ := Fallible.map_eq_ok.mp hpoint
          exact ⟨b, hb, rfl⟩
        · simp [hmol, hmodel] at hpoint
    · exact throwPending_ends

section Fresh
variable {b : Answer K (composition input)} (hb : E.result c (molecule input) = .ok b)
include hb

/-- A structure with a result can be made, and its model loaded. -/
theorem newStructure_eq : newStructure E c input s =
    { s with m_mol := some (molecule input), m_model := false } := by
  obtain ⟨hstructure, -⟩ := E.result_new c (molecule input) b hb
  simp [newStructure, hstructure]

theorem newModel_eq (hmol : s.m_mol = some (molecule input)) :
    newModel E c s = { s with m_model := true } := by
  obtain ⟨-, hmodel⟩ := E.result_new c (molecule input) b hb
  simp [newModel, hmol, hmodel]

theorem evaluate_ready (hmol : s.m_mol = some (molecule input)) (hmodel : s.m_model = true)
    (hmessages : s.messages = []) :
    evaluate E c s what = (.ok ⟨composition input, b⟩, s) := by
  have hpoint : singlepoint E c s = .ok ⟨composition input, b⟩ := by
    simp only [singlepoint, hmol, hmodel, if_true, hb]
    rfl
  simp only [evaluate, hpoint, hmessages, if_true]

end Fresh

/-- Handles of the input's structure, with nothing pending. -/
structure Handles.Ready (s : Handles K) (input : ForceInput K) : Prop where
  m_mol : s.m_mol = some (molecule input)
  m_model : s.m_model = true
  messages : s.messages = []

/-- A kernel that brings its handles up to date and then evaluates them answers as on fresh handles. -/
theorem ends_of_prepare {β : Type} {p : Handles K → Step K Unit} {i : ForceInput K}
    {w : (comp : Composition) × Answer K comp → β}
    (hstep : Ends Overruns (fun _ t => t.Current i) (p s))
    (hfresh : ∀ b, E.result c (molecule i) = .ok b →
      ∃ t, p fresh = (.ok (), t) ∧ t.Ready i) :
    let answer := fun s => andThen (p s) fun _ s =>
      andThen (evaluate E c s what) fun a s => (.ok (w a), s)
    Ends Overruns (fun o _ => (answer fresh).1 = .ok o) (answer s) := by
  intro answer
  apply hstep.andThen
  intro _ t ht
  apply (evaluate_ends ht).andThen
  rintro a u ⟨b, hb, rfl⟩
  apply ends_ok
  obtain ⟨v, hv, hready⟩ := hfresh b hb
  have hpoint : evaluate E c v what = (.ok ⟨composition i, b⟩, v) :=
    evaluate_ready hb hready.m_mol hready.m_model hready.messages
  simp only [answer, hv, andThen, hpoint]

end Rgpot.Engines
