import Rgpot.Rpc.Server
import Rgpot.Lib.Logged

/-! Which requests reach a potential, and what the two servers touch of them. -/
namespace Rgpot.Rpc
open Fallible Rgpot.Units

inductive Field where
  | pos
  | atmnrs
  | box
  deriving DecidableEq

/-- What a server does up to the call of its potential. -/
inductive Access where
  | read (field : Field) (i : ℕ)
  /-- Hands on the buffer of a list as `count` numbers. -/
  | view (field : Field) (count : ℕ)
  | run
  deriving DecidableEq

/-- The element access of a list reader: what an index past the end gives is up to the library. -/
structure ListReader where
  get : {α : Type} → [Inhabited α] → List α → ℕ → Except Exn α
  get_of_lt : ∀ {α : Type} [Inhabited α] (values : List α) (i : ℕ) (h : i < values.length),
    get values i = .ok values[i]

/-- A program of a server, with its accesses. -/
abbrev Served := Logged Exn Access

/-- Copies the first `count` entries of a list. -/
def readField {α : Type} [Inhabited α] (reader : ListReader) (field : Field) (values : List α)
    (count : ℕ) : Served (List α) :=
  (List.range count).mapM fun i => do
    Logged.tell (.read field i)
    Logged.lift (reader.get values i)

variable {K : Type}

/-- The copies of `capnp_adapter.hpp`, and the evaluation on them. -/
def GenericPotImpl.evaluate [MulOneClass K] [Div K] [DecidableEq K] [Inhabited K]
    (reader : ListReader) (pot : Potential K) (fip : ForceInput K) (numAtoms : ℕ)
    (len_to_angstrom ev_to_caller : K) : Served (PotentialResult K) := do
  let force_to_caller := ev_to_caller / len_to_angstrom
  let nativePositions ← readField reader .pos fip.pos (3 * numAtoms)
  let nativeAtomTypes ← readField reader .atmnrs fip.atmnrs fip.atmnrs.length
  let nativeBoxMatrix ← readField reader .box fip.box 9
  Logged.tell .run
  let res ← Logged.lift (pot.eval (scale len_to_angstrom nativePositions) nativeAtomTypes
    (scale len_to_angstrom nativeBoxMatrix))
  return { energy := res.energy * ev_to_caller, forces := scale force_to_caller res.forces }

/-- `GenericPotImpl::calculate` with its accesses. -/
def GenericPotImpl.calculate [Add K] [Sub K] [MulOneClass K] [Div K] [Zero K] [DecidableEq K]
    [Number K] [Inhabited K] (reader : ListReader) (pot : Potential K) (fip : ForceInput K) :
    Served (PotentialResult K) :=
  let numAtoms := fip.pos.length / 3
  if fip.atmnrs.length ≠ numAtoms then
    Logged.lift (.error (.runtimeError "AtomNumbers size mismatch"))
  else do
    let len_to_angstrom ← Logged.lift (unit_conversion_factor fip.lengthUnit "angstrom".toList)
    let ev_to_caller ← Logged.lift (unit_conversion_factor "eV".toList fip.energyUnit)
    GenericPotImpl.evaluate reader pot fip numAtoms len_to_angstrom ev_to_caller

/-- `PotentialServer::calculate` with its accesses: three owned copies, handed on as tensors of
`n_atoms` rows of positions, `n_atoms` species and a 3x3 box. -/
def PotentialServer.serve [Inhabited K] (reader : ListReader)
    (callback : List K → List Int32 → List K → CallbackReply K) (fip : ForceInput K) :
    Served (PotentialResult K) := do
  let n_atoms := fip.atmnrs.length
  let _ ← readField reader .pos fip.pos fip.pos.length
  let _ ← readField reader .atmnrs fip.atmnrs fip.atmnrs.length
  let _ ← readField reader .box fip.box fip.box.length
  Logged.tell (.view .pos (3 * n_atoms))
  Logged.tell (.view .atmnrs n_atoms)
  Logged.tell (.view .box 9)
  Logged.tell .run
  Logged.lift (PotentialServer.calculate callback fip)

def ForceInput.size (fip : ForceInput K) : Field → ℕ
  | .pos => fip.pos.length
  | .atmnrs => fip.atmnrs.length
  | .box => fip.box.length

/-- No list is used past its length. -/
def Access.InRange (fip : ForceInput K) : Access → Prop
  | .read field i => i < fip.size field
  | .view field count => count ≤ fip.size field
  | .run => True

/-- Only a well-formed request runs the potential, any other is replied to with an error, and no list
is used past its length. -/
structure Handled (fip : ForceInput K) (served : Served (PotentialResult K)) : Prop where
  wellFormed_of_run : .run ∈ served.log → WellFormed fip
  error_of_malformed : ¬ WellFormed fip → ∃ e, served.result = .error e
  inRange : ∀ access ∈ served.log, access.InRange fip

section Copies
variable {α : Type} [Inhabited α] {reader : ListReader} {field : Field} {values : List α} {count : ℕ}

theorem mem_log_readField {access : Access}
    (h : access ∈ (readField reader field values count).log) :
    ∃ i < count, access = .read field i := by
  obtain ⟨i, hi, haccess⟩ := Logged.mem_log_mapM h
  rw [Logged.mem_log_bind] at haccess
  rcases haccess with haccess | ⟨_, _, haccess⟩
  · exact ⟨i, List.mem_range.mp hi, List.mem_singleton.mp haccess⟩
  · cases haccess

/-- A copy inside the list returns its entries. -/
theorem readField_ok (h : count ≤ values.length) :
    (readField reader field values count).result = .ok (values.take count) := by
  rw [readField, Logged.result_mapM, mapM_eq_ok (g := fun i => values.getD i default)]
  · congr 1
    apply List.ext_getElem
    · simp [h]
    · intro i hi _
      have hlt : i < values.length := by
        have : i < count := by simpa using hi
        omega
      simp [hlt]
  · intro i hi
    have hlt : i < values.length := (List.mem_range.mp hi).trans_le h
    change reader.get values i = _
    rw [reader.get_of_lt values i hlt]
    simp [hlt]

/-- A copy longer than the list reads the first entry past it. -/
theorem overrun_mem_log (h : values.length < count) :
    .read field values.length ∈ (readField reader field values count).log := by
  have hsplit : List.range count = List.range values.length ++ values.length ::
      (List.range (count - values.length - 1)).map (values.length + 1 + ·) := by
    have hcount : count = values.length + 1 + (count - values.length - 1) := by omega
    conv_lhs => rw [hcount, List.range_add, List.range_succ]
    simp
  rw [readField, hsplit]
  apply Logged.mem_log_mapM_of_reached
  · intro i hi
    have hlt := List.mem_range.mp hi
    exact ⟨values[i], reader.get_of_lt values i hlt⟩
  · rw [Logged.mem_log_bind]
    exact Or.inl List.mem_cons_self

end Copies

section Servers
variable [Inhabited K] {reader : ListReader} {fip : ForceInput K}

omit [Inhabited K] in
/-- A copied list is in range when the copy is no longer than it. -/
theorem inRange_of_mem_readField {α : Type} [Inhabited α] {field : Field} {values : List α}
    {count : ℕ} {access : Access} (h : access ∈ (readField reader field values count).log)
    (hcount : count ≤ fip.size field) : access.InRange fip := by
  obtain ⟨i, hi, rfl⟩ := mem_log_readField h
  exact hi.trans_le hcount

section Cpp
variable [MulOneClass K] [Div K] [DecidableEq K] {pot : Potential K} {n : ℕ} {a e : K}

/-- What an evaluation touches. -/
theorem mem_log_evaluate {access : Access}
    (h : access ∈ (GenericPotImpl.evaluate reader pot fip n a e).log) :
    access ∈ (readField reader .pos fip.pos (3 * n)).log ∨
      access ∈ (readField reader .atmnrs fip.atmnrs fip.atmnrs.length).log ∨
      access ∈ (readField reader .box fip.box 9).log ∨ access = .run := by
  rw [GenericPotImpl.evaluate, Logged.mem_log_bind] at h
  rcases h with h | ⟨_, _, h⟩
  · exact Or.inl h
  rw [Logged.mem_log_bind] at h
  rcases h with h | ⟨_, _, h⟩
  · exact Or.inr (Or.inl h)
  rw [Logged.mem_log_bind] at h
  rcases h with h | ⟨_, _, h⟩
  · exact Or.inr (Or.inr (Or.inl h))
  rw [Logged.mem_log_bind] at h
  rcases h with h | ⟨_, _, h⟩
  · exact Or.inr (Or.inr (Or.inr (List.mem_singleton.mp h)))
  rw [Logged.mem_log_bind] at h
  rcases h with h | ⟨_, _, h⟩ <;> cases h

/-- The box is copied whatever its length, once the positions cover the atoms. -/
theorem mem_log_evaluate_of_box {access : Access} (hpos : 3 * n ≤ fip.pos.length)
    (h : access ∈ (readField reader .box fip.box 9).log ∨
      9 ≤ fip.box.length ∧ access = .run) :
    access ∈ (GenericPotImpl.evaluate reader pot fip n a e).log := by
  rw [GenericPotImpl.evaluate, Logged.mem_log_bind]
  refine Or.inr ⟨_, readField_ok hpos, ?_⟩
  rw [Logged.mem_log_bind]
  refine Or.inr ⟨_, readField_ok le_rfl, ?_⟩
  rw [Logged.mem_log_bind]
  rcases h with h | ⟨hbox, rfl⟩
  · exact Or.inl h
  · refine Or.inr ⟨_, readField_ok hbox, ?_⟩
    rw [Logged.mem_log_bind]
    exact Or.inl List.mem_cons_self

/-- Only a well-formed request is evaluated as it should be. -/
theorem evaluate_handled_iff :
    Handled fip (GenericPotImpl.evaluate reader pot fip (fip.pos.length / 3) a e) ↔
      WellFormed fip := by
  have hpos : 3 * (fip.pos.length / 3) ≤ fip.pos.length := by omega
  constructor
  · intro h
    rcases Nat.lt_or_ge fip.box.length 9 with hbox | hbox
    · have hread := h.inRange _ (mem_log_evaluate_of_box hpos (Or.inl (overrun_mem_log hbox)))
      exact absurd hread (lt_irrefl _)
    · exact h.wellFormed_of_run (mem_log_evaluate_of_box hpos (Or.inr ⟨hbox, rfl⟩))
  · intro h
    refine ⟨fun _ => h, fun hnot => (hnot h).elim, ?_⟩
    intro access haccess
    rcases mem_log_evaluate haccess with hread | hread | hread | rfl
    · exact inRange_of_mem_readField hread hpos
    · exact inRange_of_mem_readField hread le_rfl
    · exact inRange_of_mem_readField hread h.length_box.ge
    · trivial

end Cpp

/-- One of the two unit strings does not convert. -/
def UnitsRejected [Add K] [Sub K] [MulOneClass K] [Div K] [Zero K] [Number K]
    (fip : ForceInput K) : Prop :=
  (∃ e, (unit_conversion_factor fip.lengthUnit "angstrom".toList : Except Exn K) = .error e) ∨
    ∃ e, (unit_conversion_factor "eV".toList fip.energyUnit : Except Exn K) = .error e

omit [Inhabited K] in
/-- A reply with an error before anything was touched. -/
theorem handled_of_error {served : Served (PotentialResult K)} {e : Exn}
    (hresult : served.result = .error e) (hlog : served.log = []) : Handled fip served where
  wellFormed_of_run h := by
    rw [hlog] at h
    cases h
  error_of_malformed _ := ⟨e, hresult⟩
  inRange access h := by
    rw [hlog] at h
    cases h

/-- The C++ server tests the species count and the units, and nothing else. -/
theorem cpp_handled_iff [Add K] [Sub K] [MulOneClass K] [Div K] [Zero K] [DecidableEq K] [Number K]
    (pot : Potential K) : Handled fip (GenericPotImpl.calculate reader pot fip) ↔
      WellFormed fip ∨ fip.atmnrs.length ≠ fip.pos.length / 3 ∨ UnitsRejected fip := by
  by_cases hatoms : fip.atmnrs.length = fip.pos.length / 3
  · simp only [GenericPotImpl.calculate, hatoms, ne_eq, not_true_eq_false, if_false, false_or]
    cases ha : (unit_conversion_factor fip.lengthUnit "angstrom".toList : Except Exn K) with
    | error what =>
      rw [Logged.bind_of_error (x := Logged.lift (.error what)) rfl]
      exact iff_of_true (handled_of_error rfl rfl) (Or.inr (Or.inl ⟨what, ha⟩))
    | ok a =>
      cases he : (unit_conversion_factor "eV".toList fip.energyUnit : Except Exn K) with
      | error what =>
        rw [Logged.bind_of_ok (x := Logged.lift (.ok a)) rfl,
          Logged.bind_of_error (x := Logged.lift (.error what)) rfl]
        exact iff_of_true (handled_of_error rfl rfl) (Or.inr (Or.inr ⟨what, he⟩))
      | ok e =>
        have hunits : ¬ UnitsRejected fip := by
          rintro (⟨what, h⟩ | ⟨what, h⟩)
          · rw [ha] at h
            cases h
          · rw [he] at h
            cases h
        rw [or_iff_left hunits, ← evaluate_handled_iff]
        rfl
  · refine iff_of_true ?_ (Or.inr (Or.inl hatoms))
    rw [GenericPotImpl.calculate]
    simp only [ne_eq, hatoms, not_false_eq_true, if_true]
    exact handled_of_error rfl rfl

/-- With a box of nine entries to copy, the reply is the one of `calculate`. -/
theorem calculate_result [Add K] [Sub K] [MulOneClass K] [Div K] [Zero K] [DecidableEq K]
    [Number K] (pot : Potential K) (hbox : 9 ≤ fip.box.length) :
    (GenericPotImpl.calculate reader pot fip).result = calculate pot fip := by
  by_cases hatoms : fip.atmnrs.length = fip.pos.length / 3
  · have hpos : 3 * (fip.pos.length / 3) ≤ fip.pos.length := by omega
    have hspecies : (readField reader .atmnrs fip.atmnrs (fip.pos.length / 3)).result =
        .ok fip.atmnrs := by
      rw [readField_ok hatoms.ge, ← hatoms, List.take_length]
    simp only [GenericPotImpl.calculate, calculate, hatoms, ne_eq, not_true_eq_false, if_false,
      Logged.result_bind, Logged.result_lift, GenericPotImpl.evaluate, readField_ok hpos,
      readField_ok hbox, hspecies]
    rfl
  · simp only [GenericPotImpl.calculate, calculate, hatoms, ne_eq, not_false_eq_true, if_true]
    rfl

/-- The Rust server tests nothing: every request runs the callback. -/
theorem rust_handled_iff [Zero K] (callback : List K → List Int32 → List K → CallbackReply K) :
    Handled fip (PotentialServer.serve reader callback fip) ↔ WellFormed fip := by
  have hserve : PotentialServer.serve reader callback fip =
      { result := PotentialServer.calculate callback fip
        log := (readField reader .pos fip.pos fip.pos.length).log ++
          ((readField reader .atmnrs fip.atmnrs fip.atmnrs.length).log ++
            ((readField reader .box fip.box fip.box.length).log ++
              [.view .pos (3 * fip.atmnrs.length), .view .atmnrs fip.atmnrs.length,
                .view .box 9, .run])) } := by
    rw [PotentialServer.serve, Logged.bind_of_ok (readField_ok le_rfl),
      Logged.bind_of_ok (readField_ok le_rfl), Logged.bind_of_ok (readField_ok le_rfl)]
    rfl
  constructor
  · intro h
    refine h.wellFormed_of_run ?_
    simp [hserve]
  · intro h
    refine ⟨fun _ => h, fun hnot => (hnot h).elim, ?_⟩
    intro access haccess
    rw [hserve] at haccess
    simp only [List.mem_append, List.mem_cons, List.not_mem_nil, or_false] at haccess
    rcases haccess with hread | hread | hread | rfl | rfl | rfl | rfl
    · exact inRange_of_mem_readField hread le_rfl
    · exact inRange_of_mem_readField hread le_rfl
    · exact inRange_of_mem_readField hread le_rfl
    · exact h.length_pos.ge
    · exact le_refl fip.atmnrs.length
    · exact h.length_box.ge
    · trivial

/-- Both servers handle exactly the well-formed requests as they should; the C++ server alone also
those it rejects for their species count or their units. -/
theorem requests_handled_iff [Add K] [Sub K] [MulOneClass K] [Div K] [Zero K] [DecidableEq K]
    [Number K] (reader : ListReader) (pot : Potential K)
    (callback : List K → List Int32 → List K → CallbackReply K) (fip : ForceInput K) :
    (Handled fip (GenericPotImpl.calculate reader pot fip) ∧
        Handled fip (PotentialServer.serve reader callback fip) ↔ WellFormed fip) ∧
      (Handled fip (GenericPotImpl.calculate reader pot fip) ↔
        WellFormed fip ∨ fip.atmnrs.length ≠ fip.pos.length / 3 ∨ UnitsRejected fip) := by
  refine ⟨?_, cpp_handled_iff pot⟩
  rw [cpp_handled_iff, rust_handled_iff]
  constructor
  · intro h
    exact h.2
  · intro h
    exact ⟨Or.inl h, h⟩

/-- Throws past the end of a list. -/
def checkedReader : ListReader where
  get values i :=
    match values[i]? with
    | some v => .ok v
    | none => .error (.runtimeError "list index out of bounds")
  get_of_lt values i h := by simp [h]

/-- One hydrogen atom and an empty box, as a molecule is sent. -/
def molecule : ForceInput ℝ where
  pos := [0, 0, 0]
  atmnrs := [1]
  box := []

/-- An empty box reaches the potential of the Rust server, and the C++ server reads past it. -/
theorem not_requests_handled : ¬ ∀ (reader : ListReader) (pot : Potential ℝ)
    (callback : List ℝ → List Int32 → List ℝ → CallbackReply ℝ) (fip : ForceInput ℝ),
    Handled fip (GenericPotImpl.calculate reader pot fip) ∧
      Handled fip (PotentialServer.serve reader callback fip) := by
  intro h
  have hrust := (h checkedReader (uniform 1) (uniform 1).callback molecule).2
  have hwf := (rust_handled_iff (uniform (1 : ℝ)).callback).mp hrust
  exact absurd hwf.length_box (by decide)

end Servers
end Rgpot.Rpc
