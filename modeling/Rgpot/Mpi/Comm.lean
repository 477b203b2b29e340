import Rgpot.Lib.Collective
import Mathlib.Tactic

/-! MPI collectives on one communicator: what they are told and what they give back. -/
namespace Rgpot.Mpi
open Collective

inductive Datatype where
  | INT | UINT64_T | BYTE | CHAR | LONG_LONG | UNSIGNED_CHAR
  deriving DecidableEq

inductive Kind where
  | Bcast (root : ℕ)
  | AllreduceMin
  | AllreduceLand
  | Allgather
  deriving DecidableEq

/-- A collective as every rank of the communicator has to call it. -/
structure Call where
  kind : Kind
  count : ℕ
  type : Datatype
  deriving DecidableEq

/-- The memory handed to a collective: integers, raw bytes or characters. -/
inductive Buffer where
  | ints (v : List ℤ)
  | bytes (v : List UInt8)
  | chars (v : List Char)
  deriving DecidableEq

namespace Buffer

def toInts : Buffer → List ℤ
  | ints v => v
  | _ => []

def toBytes : Buffer → List UInt8
  | bytes v => v
  | _ => []

def toChars : Buffer → List Char
  | chars v => v
  | _ => []

/-- The first integer. -/
def toInt (b : Buffer) : ℤ := b.toInts.headD 0

@[simp] theorem toInt_ints (z : ℤ) (v : List ℤ) : (ints (z :: v)).toInt = z := rfl

@[simp] theorem toInts_ints (v : List ℤ) : (ints v).toInts = v := rfl

@[simp] theorem toBytes_bytes (v : List UInt8) : (bytes v).toBytes = v := rfl

@[simp] theorem toChars_chars (v : List Char) : (chars v).toChars = v := rfl

end Buffer

variable {n : ℕ}

/-- What a collective leaves in the receive buffer of every rank. A root that is not a rank is an
error of the caller. -/
def Call.value (s : Call) (v : Fin (n + 1) → Buffer) : Buffer :=
  match s.kind with
  | .Bcast root => if h : root < n + 1 then v ⟨root, h⟩ else .ints []
  | .AllreduceMin =>
    .ints [(List.finRange (n + 1)).foldl (fun m r => min m (v r).toInt) (v 0).toInt]
  | .AllreduceLand =>
    .bytes ((List.range s.count).map fun k =>
      if ∀ r, (v r).toBytes.getD k 0 ≠ 0 then 1 else 0)
  | .Allgather => .ints ((List.finRange (n + 1)).flatMap fun r => (v r).toInts)

@[simp] theorem value_Bcast (count : ℕ) (type : Datatype) (root : Fin (n + 1))
    (v : Fin (n + 1) → Buffer) : Call.value ⟨.Bcast root, count, type⟩ v = v root :=
  dif_pos root.isLt

theorem foldl_min_le (f : Fin (n + 1) → ℤ) (l : List (Fin (n + 1))) (z : ℤ) :
    l.foldl (fun m r => min m (f r)) z ≤ z ∧
      ∀ r ∈ l, l.foldl (fun m r => min m (f r)) z ≤ f r := by
  induction l generalizing z with
  | nil => simp
  | cons q l ih =>
    obtain ⟨hz, hl⟩ := ih (min z (f q))
    refine ⟨hz.trans (min_le_left _ _), ?_⟩
    intro r hr
    rcases List.mem_cons.mp hr with rfl | hr
    · exact hz.trans (min_le_right _ _)
    · exact hl r hr

theorem foldl_min_mem (f : Fin (n + 1) → ℤ) (l : List (Fin (n + 1))) (z : ℤ) :
    l.foldl (fun m r => min m (f r)) z = z ∨
      ∃ r ∈ l, l.foldl (fun m r => min m (f r)) z = f r := by
  induction l generalizing z with
  | nil => exact Or.inl rfl
  | cons q l ih =>
    rcases ih (min z (f q)) with h | ⟨r, hr, h⟩
    · rcases min_choice z (f q) with hmin | hmin
      · exact Or.inl (h.trans hmin)
      · exact Or.inr ⟨q, List.mem_cons_self, h.trans hmin⟩
    · exact Or.inr ⟨r, List.mem_cons_of_mem _ hr, h⟩

/-- The minimum of one integer a rank. -/
theorem value_AllreduceMin (f : Fin (n + 1) → ℤ) : ∃ m,
    Call.value ⟨.AllreduceMin, 1, .INT⟩ (fun r => .ints [f r]) = .ints [m] ∧
      (∀ r, m ≤ f r) ∧ ∃ r, m = f r := by
  refine ⟨_, rfl, fun r => (foldl_min_le f _ _).2 r (List.mem_finRange r), ?_⟩
  rcases foldl_min_mem f (List.finRange (n + 1)) (f 0) with h | ⟨r, -, h⟩
  · exact ⟨0, h⟩
  · exact ⟨r, h⟩

/-- A collective as a step of a function that may throw. -/
def joint {ε : Type} (s : Call) (v : Buffer) : ExceptT ε (Prog Call Buffer) Buffer :=
  ExceptT.lift (Prog.call s v Prog.ret)

theorem joint_lockstep {ε : Type} (s : Call) (v : Fin (n + 1) → Buffer) :
    Lockstep Call.value (fun r => (joint s (v r) : ExceptT ε (Prog Call Buffer) Buffer)) [s]
      fun _ => .ok (s.value v) :=
  Leads.single s v fun _ x => (.ret (.ok x) : Prog Call Buffer (Except ε Buffer))

/-- `INT_MAX`: a count of elements is an `int`. -/
def INT_MAX : ℕ := 2147483647

/-- The bytes of `data` from the root, in chunks an `int` can count. -/
def broadcastChunks {ε : Type} (root : ℕ) (data : List UInt8) :
    ExceptT ε (Prog Call Buffer) (List UInt8) :=
  if _ : data = [] then return []
  else do
    let chunk := min data.length INT_MAX
    let got ← joint ⟨.Bcast root, chunk, .BYTE⟩ (.bytes (data.take chunk))
    let rest ← broadcastChunks root (data.drop chunk)
    return got.toBytes ++ rest
  termination_by data.length
  decreasing_by
    have hpos := List.length_pos_iff.mpr ‹¬ data = []›
    simp only [List.length_drop, INT_MAX]
    omega

/-- The chunks of a payload of so many bytes. -/
def chunkCalls (root : ℕ) (bytes : ℕ) : List Call :=
  if _ : bytes = 0 then []
  else ⟨.Bcast root, min bytes INT_MAX, .BYTE⟩ :: chunkCalls root (bytes - min bytes INT_MAX)
  termination_by bytes
  decreasing_by
    simp only [INT_MAX]
    omega

/-- Every byte belongs to one chunk. -/
theorem sum_chunkCalls (root bytes : ℕ) : ((chunkCalls root bytes).map Call.count).sum = bytes := by
  induction bytes using Nat.strong_induction_on with
  | _ bytes ih =>
    unfold chunkCalls
    by_cases h : bytes = 0
    · simp [h]
    · have hlt : bytes - min bytes INT_MAX < bytes := by
        simp only [INT_MAX]
        omega
      simp only [h, dif_neg, not_false_eq_true, List.map_cons, List.sum_cons, ih _ hlt]
      omega

/-- Buffers of one size all end as the root's. -/
theorem broadcastChunks_lockstep {ε : Type} (root : Fin (n + 1)) (bytes : ℕ)
    (data : Fin (n + 1) → List UInt8) (hlength : ∀ r, (data r).length = bytes) :
    Lockstep Call.value
      (fun r => (broadcastChunks root (data r) : ExceptT ε (Prog Call Buffer) (List UInt8)))
      (chunkCalls root bytes) fun _ => .ok (data root) := by
  induction bytes using Nat.strong_induction_on generalizing data with
  | _ bytes ih =>
    unfold chunkCalls
    by_cases h : bytes = 0
    · have hnil : ∀ r, data r = [] := fun r => List.length_eq_zero_iff.mp ((hlength r).trans h)
      simp only [h, hnil, dif_pos]
      unfold broadcastChunks
      exact Lockstep.pure _
    · have hcons : ∀ r, data r ≠ [] := by
        intro r hr
        have := hlength r
        rw [hr] at this
        exact h this.symm
      rw [dif_neg h]
      have hunfold : ∀ r, (broadcastChunks root (data r) : ExceptT ε (Prog Call Buffer) _) = do
          let got ← joint ⟨.Bcast root, min bytes INT_MAX, .BYTE⟩
            (.bytes ((data r).take (min bytes INT_MAX)))
          let rest ← broadcastChunks root ((data r).drop (min bytes INT_MAX))
          return got.toBytes ++ rest := by
        intro r
        rw [broadcastChunks, dif_neg (hcons r), hlength r]
      simp only [hunfold]
      have hrest := ih (bytes - min bytes INT_MAX) (by simp only [INT_MAX]; omega)
        (fun r => (data r).drop (min bytes INT_MAX)) (by simp [hlength])
      have hreturn : Lockstep Call.value
          (fun r => (pure ((data root).take (min bytes INT_MAX) ++
            (data root).drop (min bytes INT_MAX)) : ExceptT ε (Prog Call Buffer) (List UInt8)))
          [] fun _ : Fin (n + 1) => .ok (data root) := by
        simp only [List.take_append_drop]
        exact Lockstep.pure _
      have hgo := hrest.bind_ok (f := fun r rest =>
        (pure ((data root).take (min bytes INT_MAX) ++ rest) :
          ExceptT ε (Prog Call Buffer) (List UInt8))) hreturn
      rw [List.append_nil] at hgo
      have hstep := joint_lockstep (ε := ε) ⟨.Bcast root, min bytes INT_MAX, .BYTE⟩
        fun r => .bytes ((data r).take (min bytes INT_MAX))
      rw [value_Bcast] at hstep
      exact hstep.bind_ok hgo

end Rgpot.Mpi
