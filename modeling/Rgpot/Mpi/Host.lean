import Rgpot.Mpi.Comm
import Rgpot.ForceStructs

/-! `MpiHost`: local work whose failure on any rank is raised on all of them. -/
namespace Rgpot.Mpi
open Collective Words

/-- Characters of a message, one a byte. -/
abbrev Text := List Char

/-- What leaves a function: a `std::exception` with its text, or something else. -/
inductive Failure where
  | exception (what : Text)
  | unknown

def Failure.what : Failure → Text
  | exception what => what
  | unknown => "unknown host exception".toList

/-- `snprintf` into a buffer of so many characters, the last of them for the end of the string. -/
def clip (size : ℕ) (s : Text) : Text := s.take (size - 1)

/-- The error every rank throws. -/
def hostError (first : ℕ) (e : Failure) : Text :=
  clip 1088 ("MPI host rank ".toList ++ (toString first).toList ++ ": ".toList ++ clip 1024 e.what)

/-- What a rank does that takes part in collectives and may throw. -/
abbrev Host (α : Type) := ExceptT Text (Prog Call Buffer) α

variable {n : ℕ} {α β : Type}

/-- The least of one `int` a rank. -/
def allreduceMin (z : ℤ) : Host ℤ :=
  Buffer.toInt <$> joint ⟨.AllreduceMin, 1, .INT⟩ (.ints [z])

/-- One integer of rank 0. -/
def bcastInt (type : Datatype) (z : ℤ) : Host ℤ :=
  Buffer.toInt <$> joint ⟨.Bcast 0, 1, type⟩ (.ints [z])

/-- The 1024 characters of an error buffer. -/
def bcastText (root : ℕ) (s : Text) : Host Text :=
  Buffer.toChars <$> joint ⟨.Bcast root, 1024, .CHAR⟩ (.chars s)

/-- `MpiHost::collective` on rank `r`, given how the function ends there. The rank prints its own
error into the buffer that it may have to broadcast. -/
def collective (r : Fin (n + 1)) (function : Except Failure α) : Host α := do
  let failed : ℤ := match function with
    | .ok _ => n + 1
    | .error _ => r.val
  let error : Text := match function with
    | .ok _ => []
    | .error e => clip 1024 e.what
  let first ← allreduceMin failed
  if first = n + 1 then
    match function with
    | .ok a => return a
    -- not reached: a rank that failed is above the minimum
    | .error _ => throw error
  else
    let text ← bcastText first.toNat error
    throw (clip 1088
      ("MPI host rank ".toList ++ (toString first.toNat).toList ++ ": ".toList ++ text))

/-- The error of the lowest rank whose function fails. -/
def lowestFailure (functions : Fin (n + 1) → Except Failure α) : Option Text :=
  (List.finRange (n + 1)).findSome? fun r =>
    match functions r with
    | .ok _ => none
    | .error e => some (hostError r e)

/-- The outcome a rank gets: the error of the lowest failing rank, or its own result. -/
def agreed (functions : Fin (n + 1) → Except Failure α) (r : Fin (n + 1)) : Except Text α :=
  match lowestFailure functions with
  | some e => .error e
  | none =>
    match functions r with
    | .ok a => .ok a
    | .error e => .error (hostError r e)

section Lowest
variable {functions : Fin (n + 1) → Except Failure α}

theorem lowestFailure_eq_none : lowestFailure functions = none ↔ ∀ r, ∃ a, functions r = .ok a := by
  unfold lowestFailure
  rw [List.findSome?_eq_none_iff]
  constructor
  · intro h r
    have hr := h r (List.mem_finRange r)
    cases hf : functions r with
    | ok a => exact ⟨a, rfl⟩
    | error e => simp [hf] at hr
  · intro h r _
    obtain ⟨a, ha⟩ := h r
    simp [ha]

/-- The ranks below the one whose error is raised have not failed. -/
theorem lowestFailure_of_first {r : Fin (n + 1)} {e : Failure} (hr : functions r = .error e)
    (hbelow : ∀ q < r, ∃ a, functions q = .ok a) : lowestFailure functions = some (hostError r e) := by
  unfold lowestFailure
  rw [List.findSome?_eq_some_iff]
  have hsplit : List.finRange (n + 1) = (List.finRange (n + 1)).take r ++ r ::
      (List.finRange (n + 1)).drop (r + 1) := by
    conv_lhs => rw [← List.take_append_drop r.val (List.finRange (n + 1))]
    rw [List.drop_eq_getElem_cons (by simp [Nat.lt_succ_of_le r.is_le])]
    simp
  refine ⟨_, r, _, hsplit, by simp [hr], ?_⟩
  intro q hq
  obtain ⟨k, hk, hget⟩ := List.mem_take_iff_getElem.mp hq
  have hlt : q < r := by
    rw [← hget]
    simp only [List.getElem_finRange]
    exact Fin.lt_def.mpr (by simpa using (lt_min_iff.mp hk).1)
  obtain ⟨a, ha⟩ := hbelow q hlt
  simp [ha]

theorem agreed_of_ok {a : Fin (n + 1) → α} (h : ∀ r, functions r = .ok (a r)) (r : Fin (n + 1)) :
    agreed functions r = .ok (a r) := by
  simp [agreed, lowestFailure_eq_none.mpr fun q => ⟨a q, h q⟩, h r]

theorem agreed_of_first {r : Fin (n + 1)} {e : Failure} (hr : functions r = .error e)
    (hbelow : ∀ q < r, ∃ a, functions q = .ok a) (q : Fin (n + 1)) :
    agreed functions q = .error (hostError r e) := by
  simp [agreed, lowestFailure_of_first hr hbelow]

/-- Either no rank fails, or one is the first to. -/
theorem ok_or_first (functions : Fin (n + 1) → Except Failure α) :
    (∃ a : Fin (n + 1) → α, ∀ r, functions r = .ok (a r)) ∨
      ∃ r e, functions r = .error e ∧ ∀ q < r, ∃ a, functions q = .ok a := by
  by_cases h : ∀ r, ∃ a, functions r = .ok a
  · exact Or.inl (Classical.skolem.mp h)
  · right
    obtain ⟨r, hr⟩ := not_forall.mp h
    obtain ⟨p, hp, hmin⟩ := (wellFounded_lt (α := Fin (n + 1))).has_min
      {q | ¬ ∃ a, functions q = .ok a} ⟨r, hr⟩
    cases hf : functions p with
    | ok a => exact absurd ⟨a, hf⟩ hp
    | error e =>
      refine ⟨p, e, hf, fun q hq => ?_⟩
      by_contra hno
      exact hmin q hno hq

end Lowest

/-- All ranks go through the same collectives and get the outcomes `x`. -/
def Agrees (P : Fin (n + 1) → Host α) (x : Fin (n + 1) → Except Text α) : Prop :=
  ∃ t, Lockstep Call.value P t x

section Agrees
variable {A : Fin (n + 1) → Host α} {f : Fin (n + 1) → α → Host β} {a : Fin (n + 1) → α}
  {x : Fin (n + 1) → Except Text α} {y : Fin (n + 1) → Except Text β} {e : Text}

theorem Agrees.pure (x : Fin (n + 1) → Except Text α) :
    Agrees (fun r => ExceptT.mk (Pure.pure (x r))) x := ⟨[], Lockstep.pure _⟩

theorem Agrees.bind_ok (h : Agrees A fun r => .ok (a r)) (hf : Agrees (fun r => f r (a r)) y) :
    Agrees (fun r => A r >>= f r) y := by
  obtain ⟨t, ht⟩ := h
  obtain ⟨u, hu⟩ := hf
  exact ⟨t ++ u, ht.bind_ok hu⟩

theorem Agrees.bind_error (h : Agrees A fun _ => .error e) :
    Agrees (fun r => A r >>= f r) fun _ => .error e := by
  obtain ⟨t, ht⟩ := h
  exact ⟨t, ht.bind_error⟩

/-- All ranks return, or all throw the same error. -/
def Uniform (x : Fin (n + 1) → Except Text α) : Prop :=
  (∃ a : Fin (n + 1) → α, x = fun r => .ok (a r)) ∨ ∃ e, x = fun _ => .error e

theorem uniform_agreed (functions : Fin (n + 1) → Except Failure α) : Uniform (agreed functions) := by
  rcases ok_or_first functions with ⟨a, ha⟩ | ⟨r, e, hr, hbelow⟩
  · exact Or.inl ⟨a, funext (agreed_of_ok ha)⟩
  · exact Or.inr ⟨_, funext (agreed_of_first hr hbelow)⟩

theorem Uniform.bind {g : Fin (n + 1) → α → Except Text β} (h : Uniform x)
    (hg : ∀ a : Fin (n + 1) → α, Uniform fun r => g r (a r)) : Uniform fun r => x r >>= g r := by
  rcases h with ⟨a, rfl⟩ | ⟨e, rfl⟩
  · exact hg a
  · exact Or.inr ⟨e, rfl⟩

/-- Parts of a function one after the other; an error of the first ends it on every rank. -/
theorem Agrees.bind {g : Fin (n + 1) → α → Except Text β} (h : Agrees A x) (hx : Uniform x)
    (hf : ∀ a : Fin (n + 1) → α, x = (fun r => .ok (a r)) → Agrees (fun r => f r (a r)) fun r => g r (a r)) :
    Agrees (fun r => A r >>= f r) fun r => x r >>= g r := by
  rcases hx with ⟨a, rfl⟩ | ⟨e, rfl⟩
  · exact h.bind_ok (hf a rfl)
  · exact h.bind_error

theorem joint_agrees (s : Call) (v : Fin (n + 1) → Buffer) (g : Buffer → α) :
    Agrees (fun r => g <$> joint s (v r)) fun _ => .ok (g (s.value v)) := by
  refine ⟨[s], ?_⟩
  exact Leads.single s v fun _ x => (.ret (.ok (g x)) : Prog Call Buffer (Except Text α))

theorem allreduceMin_agrees (z : Fin (n + 1) → ℤ) : ∃ m,
    Agrees (fun r => allreduceMin (z r)) (fun _ => .ok m) ∧ (∀ r, m ≤ z r) ∧ ∃ r, m = z r := by
  obtain ⟨m, hm, hleast⟩ := value_AllreduceMin z
  have hagrees := joint_agrees ⟨.AllreduceMin, 1, .INT⟩ (fun r => .ints [z r]) Buffer.toInt
  rw [hm] at hagrees
  exact ⟨m, hagrees, hleast⟩

theorem bcastInt_agrees (type : Datatype) (z : Fin (n + 1) → ℤ) :
    Agrees (fun r => bcastInt type (z r)) fun _ => .ok (z 0) := by
  have hagrees := joint_agrees ⟨.Bcast (0 : Fin (n + 1)), 1, type⟩ (fun r => .ints [z r]) Buffer.toInt
  rwa [value_Bcast] at hagrees

theorem bcastText_agrees (root : Fin (n + 1)) (s : Fin (n + 1) → Text) :
    Agrees (fun r => bcastText root (s r)) fun _ => .ok (s root) := by
  have hagrees := joint_agrees ⟨.Bcast root, 1024, .CHAR⟩ (fun r => .chars (s r)) Buffer.toChars
  rwa [value_Bcast] at hagrees

/-- A function that may throw on any rank: all ranks throw what the lowest of them did, or none. -/
theorem collective_agrees (functions : Fin (n + 1) → Except Failure α) :
    Agrees (fun r => collective r (functions r)) (agreed functions) := by
  obtain ⟨m, hstep, hle, q, hq⟩ := allreduceMin_agrees fun r => match functions r with
    | .ok _ => (n + 1 : ℤ)
    | .error _ => r.val
  refine hstep.bind_ok ?_
  rcases ok_or_first functions with ⟨a, ha⟩ | ⟨r, e, hr, hbelow⟩
  · have hmax : m = n + 1 := by simp [hq, ha q]
    have hall : agreed functions = fun r => .ok (a r) := funext (agreed_of_ok ha)
    simp only [if_pos hmax, ha, hall]
    exact Agrees.pure _
  · -- the minimum is the lowest rank that failed
    have hmin : m = r.val := by
      have hmr := hle r
      simp only [hr] at hmr
      rcases lt_trichotomy q r with hlt | rfl | hgt
      · obtain ⟨b, hb⟩ := hbelow q hlt
        simp only [hb] at hq
        omega
      · simpa [hr] using hq
      · have hqr := Fin.lt_def.mp hgt
        cases hb : functions q <;> simp only [hb] at hq <;> omega
    have hnot : ¬ m = n + 1 := by omega
    have htext : agreed functions = fun _ => .error (hostError r e) :=
      funext (agreed_of_first hr hbelow)
    have hsend := bcastText_agrees r fun q : Fin (n + 1) => match functions q with
      | .ok _ => []
      | .error e => clip 1024 e.what
    simp only [hr] at hsend
    have hroot : m.toNat = r.val := by omega
    simp only [if_neg hnot, htext, hroot]
    exact hsend.bind_ok (Agrees.pure _)

end Agrees

section Broadcast
variable [Word α]

/-- `std::numeric_limits<std::size_t>::max()` and `PTRDIFF_MAX`, which bounds a vector. -/
def SIZE_MAX : ℕ := 2 ^ 64 - 1

def PTRDIFF_MAX : ℕ := 2 ^ 63 - 1

/-- The storage for a payload of `count` elements; `allocation` is the exception of the resize. -/
def resize (α : Type) [Word α] (count : ℕ) (allocation : Option Failure) : Except Failure Unit :=
  if count > PTRDIFF_MAX / Word.width α ∨ count > SIZE_MAX / Word.width α then
    .error (.exception "MPI host payload exceeds addressable storage".toList)
  else
    match allocation with
    | some e => .error e
    | none => .ok ()

/-- The memory of a vector after its resize. -/
def resized (count : ℕ) (values : List α) : List UInt8 :=
  let data := (arrayBytes values).take (count * Word.width α)
  data ++ List.replicate (count * Word.width α - data.length) 0

/-- `MpiHost::broadcast` on rank `r`: the elements of rank 0, in place of its own. -/
def broadcast (r : Fin (n + 1)) (allocation : Option Failure) (values : List α) :
    Host (List α) := do
  let count := (← bcastInt .UINT64_T values.length).toNat
  collective r (resize α count allocation)
  let data ← broadcastChunks 0 (resized count values)
  return readArray α count data

theorem length_resized (count : ℕ) (values : List α) :
    (resized count values).length = count * Word.width α := by
  simp only [resized, List.length_append, List.length_take, List.length_replicate]
  omega

theorem resized_self (values : List α) : resized values.length values = arrayBytes values := by
  have hlength : (arrayBytes values).length = values.length * Word.width α := by
    rw [length_arrayBytes, Nat.mul_comm]
  simp [resized, ← hlength]

theorem broadcast_agrees (allocation : Fin (n + 1) → Option Failure)
    (values : Fin (n + 1) → List α) :
    Agrees (fun r => broadcast r (allocation r) (values r)) fun r =>
      (agreed (fun q => resize α (values 0).length (allocation q)) r).map fun _ => values 0 := by
  have hcount := bcastInt_agrees .UINT64_T fun r => (values r).length
  refine hcount.bind_ok ?_
  simp only [Int.toNat_natCast]
  have hresize := collective_agrees fun q => resize α (values 0).length (allocation q)
  have hall := uniform_agreed fun q => resize α (values 0).length (allocation q)
  have hmap : (fun r => (agreed (fun q => resize α (values 0).length (allocation q)) r).map
      fun _ => values 0) =
      fun r => agreed (fun q => resize α (values 0).length (allocation q)) r >>=
        fun _ => .ok (values 0) := by
    funext r
    cases agreed (fun q => resize α (values 0).length (allocation q)) r <;> rfl
  rw [hmap]
  refine hresize.bind hall fun _ _ => ?_
  have hchunks : Agrees (fun r => broadcastChunks 0 (resized (values 0).length (values r)))
      fun _ : Fin (n + 1) => .ok (resized (values 0).length (values 0)) :=
    ⟨_, broadcastChunks_lockstep 0 _ _ fun r => length_resized _ _⟩
  refine hchunks.bind_ok ?_
  have hread : readArray α (values 0).length (resized (values 0).length (values 0)) = values 0 := by
    rw [resized_self]
    simpa using readArray_arrayBytes (values 0) []
  rw [hread]
  exact Agrees.pure _

end Broadcast

end Rgpot.Mpi
