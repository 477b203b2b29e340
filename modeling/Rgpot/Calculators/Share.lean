import Rgpot.Calculators.Binding
import Rgpot.Mpi.Comm

/-! `shareFromCalculator`: a broadcast from one calculator, or the end of the world. -/
namespace Rgpot.Calculators
open Collective Rgpot.Mpi

/-- `LLONG_MAX`. -/
def LLONG_MAX : ℕ := 2 ^ 63 - 1

/-- The arguments of one rank; a buffer that is given has room for its bytes. -/
structure ShareArgs where
  owner : ℤ
  bytes : ℕ
  data : Option (List UInt8)
  bytes_lt : bytes < 2 ^ 64
  length_data : ∀ buffer, data = some buffer → buffer.length = bytes

/-- The bytes a rank has at `data`. -/
def ShareArgs.buffer (a : ShareArgs) : List UInt8 := a.data.getD []

/-- `MPI_Abort`, after the lines printed. -/
structure Abort where
  printed : List (ℕ × String)
  deriving DecidableEq

def calculatorCount (m : MpiSide) : ℤ :=
  if ¬ m.bound ∨ m.group.index < 0 ∨ m.group.ranks ≤ 0 then 1
  else m.group.world_size / m.group.ranks

def broadcastFromOwner (m : MpiSide) (owner : ℤ) (data : List UInt8) :
    ExceptT Abort (Prog Call Buffer) (List UInt8) :=
  broadcastChunks (owner * m.group.ranks).toNat data

/-- The reason of a rank that cannot take part, 0 if it can. -/
def shareReason (m : MpiSide) (a : ShareArgs) : ℤ :=
  if a.bytes > LLONG_MAX then 1
  else if ¬ m.bound ∨ m.group.index < 0 ∨ (a.bytes > 0 ∧ a.data = none) then 1
  else if a.owner < 0 ∨ a.owner ≥ calculatorCount m then 2
  else 0

/-- `local`: what a rank tells the others. -/
def shareLocal (m : MpiSide) (a : ShareArgs) : List ℤ :=
  [shareReason m a, a.owner, min a.bytes LLONG_MAX]

/-- Rank `src` is fit and says the same as rank 0. -/
def agrees (all : List ℤ) (src : ℕ) : Bool :=
  all.getD (src * 3) 0 = 0 ∧ all.getD (src * 3 + 1) 0 = all.getD 1 0 ∧
    all.getD (src * 3 + 2) 0 = all.getD 2 0

def shareError (all : List ℤ) (src : ℕ) : String :=
  if all.getD (src * 3) 0 = 2 then "shareFromCalculator owner out of range"
  else if all.getD (src * 3) 0 = 1 then "shareFromCalculator missing buffer or group"
  else if all.getD (src * 3 + 1) 0 ≠ all.getD 1 0 then "shareFromCalculator owner disagrees"
  else "shareFromCalculator byte count disagrees"

/-- What every rank prints, one line for each rank that does not agree. -/
def shareErrors (size : ℕ) (all : List ℤ) : List (ℕ × String) :=
  ((List.range size).filter fun src => ¬ agrees all src).map fun src => (src, shareError all src)

/-- `share` on a rank of a world of `size`, after its `bind`: the value returned and the buffer. -/
def share (size : ℕ) (m : MpiSide) (a : ShareArgs) :
    ExceptT Abort (Prog Call Buffer) (ℤ × List UInt8) := do
  if ¬ (size > 1 ∧ m.bound ∧ m.group.index ≥ 0 ∧ m.group.world_size > 1) then
    if ¬ m.bound ∨ m.group.index < 0 ∨ (a.bytes > 0 ∧ a.data = none) then return (0, a.buffer)
    else if a.owner < 0 ∨ a.owner ≥ calculatorCount m then return (0, a.buffer)
    else return (1, ← broadcastFromOwner m a.owner a.buffer)
  else
    let all := (← joint ⟨.Allgather, 3, .LONG_LONG⟩ (.ints (shareLocal m a))).toInts
    if (List.range size).all (agrees all) then
      return (1, ← broadcastFromOwner m a.owner a.buffer)
    else throw ⟨shareErrors size all⟩

variable {n : ℕ} {r : ℤ} {args : Fin (n + 1) → ShareArgs} {m : Fin (n + 1) → MpiSide}

/-- Rank `q` of a world of `n + 1`. -/
def world (q : Fin (n + 1)) : World := ⟨n + 1, q, q.isLt⟩

/-- Every rank has completed the same bind, and it divided the world. -/
def Bound (n : ℕ) (r : ℤ) (m : Fin (n + 1) → MpiSide) : Prop :=
  (world (0 : Fin (n + 1))).Divides r ∧
    ∀ q, ∃ (m₀ : MpiSide) (split : Bool), m q = m₀.bind (world q) split r

section Ranks

/-- The group of a rank after the bind. -/
theorem Bound.group (h : Bound n r m) (q : Fin (n + 1)) : (m q).bound = true ∧
    (m q).group = { index := (q : ℤ) / ranksPerCalculator (n + 1) r
                    ranks := ranksPerCalculator (n + 1) r
                    rank_in_group := (q : ℤ) % ranksPerCalculator (n + 1) r
                    world_size := n + 1 } := by
  obtain ⟨m₀, split, hq⟩ := h.2 q
  have hdivides : (world q).Divides r := by
    obtain ⟨hle, hmod⟩ := h.1
    exact ⟨hle, hmod⟩
  rw [hq, MpiSide.bind_of_divides hdivides]
  simp [world]

theorem Bound.ranks_pos (_h : Bound n r m) : 0 < ranksPerCalculator ((n : ℤ) + 1) r := by
  have hpos := ranksPerCalculator_pos (world (0 : Fin (n + 1))) r
  simpa [world] using hpos

theorem Bound.ranks_dvd (h : Bound n r m) : ranksPerCalculator ((n : ℤ) + 1) r ∣ (n : ℤ) + 1 := by
  have hmod := h.1.2
  simp only [world] at hmod
  exact Int.dvd_of_emod_eq_zero (by simpa using hmod)

theorem Bound.calculatorCount (h : Bound n r m) (q : Fin (n + 1)) :
    calculatorCount (m q) = ((n : ℤ) + 1) / ranksPerCalculator (n + 1) r := by
  obtain ⟨hbound, hgroup⟩ := h.group q
  have hpos := h.ranks_pos
  have hindex : ¬ (q : ℤ) / ranksPerCalculator (n + 1) r < 0 :=
    Int.not_lt.mpr (Int.ediv_nonneg (Int.natCast_nonneg _) hpos.le)
  simp [Calculators.calculatorCount, hbound, hgroup, hindex, Int.not_le.mpr hpos]

/-- The first rank of a calculator is a rank. -/
theorem Bound.root_lt (h : Bound n r m) {owner : ℤ} (hnonneg : 0 ≤ owner)
    (hlt : owner < ((n : ℤ) + 1) / ranksPerCalculator (n + 1) r) :
    (owner * ranksPerCalculator (n + 1) r).toNat < n + 1 := by
  have hpos := h.ranks_pos
  obtain ⟨c, hc⟩ := h.ranks_dvd
  have hcount : ((n : ℤ) + 1) / ranksPerCalculator (n + 1) r = c :=
    Int.ediv_eq_of_eq_mul_right hpos.ne' hc
  rw [hcount] at hlt
  have hstep : (owner + 1) * ranksPerCalculator (n + 1) r ≤ c * ranksPerCalculator (n + 1) r :=
    Int.mul_le_mul_of_nonneg_right (by omega) hpos.le
  have hroot : owner * ranksPerCalculator ((n : ℤ) + 1) r < (n : ℤ) + 1 := by
    calc owner * ranksPerCalculator ((n : ℤ) + 1) r
        < (owner + 1) * ranksPerCalculator (n + 1) r := by
          rw [add_mul, one_mul]
          omega
      _ ≤ c * ranksPerCalculator (n + 1) r := hstep
      _ = (n : ℤ) + 1 := by rw [mul_comm, ← hc]
  have hroot_nonneg : 0 ≤ owner * ranksPerCalculator ((n : ℤ) + 1) r := mul_nonneg hnonneg hpos.le
  omega

/-- Every pair of a calculator and a member is one rank. -/
theorem Bound.rank_unique (h : Bound n r m) {index member : ℤ} (hindex : 0 ≤ index)
    (hlt : index < ((n : ℤ) + 1) / ranksPerCalculator (n + 1) r) (hmember : 0 ≤ member)
    (hmember_lt : member < ranksPerCalculator (n + 1) r) :
    ∃! q, (m q).group.index = index ∧ (m q).group.rank_in_group = member := by
  have hpos := h.ranks_pos
  obtain ⟨c, hc⟩ := h.ranks_dvd
  have hcount : ((n : ℤ) + 1) / ranksPerCalculator (n + 1) r = c :=
    Int.ediv_eq_of_eq_mul_right hpos.ne' hc
  rw [hcount] at hlt
  have hle : (index + 1) * ranksPerCalculator (n + 1) r ≤ (n : ℤ) + 1 := by
    calc (index + 1) * ranksPerCalculator (n + 1) r
        ≤ c * ranksPerCalculator (n + 1) r := Int.mul_le_mul_of_nonneg_right (by omega) hpos.le
      _ = (n : ℤ) + 1 := by rw [mul_comm, ← hc]
  rw [add_mul, one_mul] at hle
  have hnonneg : 0 ≤ index * ranksPerCalculator ((n : ℤ) + 1) r := mul_nonneg hindex hpos.le
  refine ⟨⟨(index * ranksPerCalculator (n + 1) r + member).toNat, by omega⟩, ?_, ?_⟩
  · have hcast : (((index * ranksPerCalculator ((n : ℤ) + 1) r + member).toNat : ℕ) : ℤ) =
        member + ranksPerCalculator (n + 1) r * index := by
      rw [Int.toNat_of_nonneg (by omega), mul_comm, add_comm]
    simp only [(h.group _).2, hcast]
    rw [Int.add_mul_ediv_left _ _ hpos.ne', Int.add_mul_emod_self_left,
      Int.ediv_eq_zero_of_lt hmember hmember_lt, Int.emod_eq_of_lt hmember hmember_lt]
    exact ⟨by omega, rfl⟩
  · intro q hq
    simp only [(h.group q).2] at hq
    have hdiv := Int.mul_ediv_add_emod (q : ℤ) (ranksPerCalculator (n + 1) r)
    rw [hq.1, hq.2, mul_comm] at hdiv
    apply Fin.ext
    simp only
    omega

end Ranks

section Table

/-- Triples one after the other. -/
theorem getD_triples {α : Type} (f : α → ℤ × ℤ × ℤ) (l : List α) (k : ℕ) (a : α)
    (hk : l[k]? = some a) : let all := l.flatMap fun a => [(f a).1, (f a).2.1, (f a).2.2]
    all.getD (k * 3) 0 = (f a).1 ∧ all.getD (k * 3 + 1) 0 = (f a).2.1 ∧
      all.getD (k * 3 + 2) 0 = (f a).2.2 := by
  induction l generalizing k with
  | nil => cases hk
  | cons b l ih =>
    cases k with
    | zero =>
      obtain rfl : b = a := by simpa using hk
      simp
    | succ k =>
      have hrest := ih k (by simpa using hk)
      have h0 : (k + 1) * 3 = k * 3 + 3 := by omega
      simpa [h0, Nat.add_assoc] using hrest

/-- The table every rank gathers. -/
def gathered (m : Fin (n + 1) → MpiSide) (args : Fin (n + 1) → ShareArgs) : List ℤ :=
  (List.finRange (n + 1)).flatMap fun q => shareLocal (m q) (args q)

theorem gathered_getD (m : Fin (n + 1) → MpiSide) (args : Fin (n + 1) → ShareArgs) (q : Fin (n + 1)) :
    (gathered m args).getD (q * 3) 0 = shareReason (m q) (args q) ∧
      (gathered m args).getD (q * 3 + 1) 0 = (args q).owner ∧
      (gathered m args).getD (q * 3 + 2) 0 = min (args q).bytes LLONG_MAX := by
  have hq : (List.finRange (n + 1))[(q : ℕ)]? = some q :=
    List.getElem?_eq_some_iff.mpr ⟨by rw [List.length_finRange]; exact q.isLt, by simp⟩
  simpa [gathered, shareLocal] using getD_triples
    (fun q => (shareReason (m q) (args q), (args q).owner, ((min (args q).bytes LLONG_MAX : ℕ) : ℤ)))
    (List.finRange (n + 1)) q q hq

theorem agrees_gathered (q : Fin (n + 1)) : agrees (gathered m args) q = true ↔
    shareReason (m q) (args q) = 0 ∧ (args q).owner = (args 0).owner ∧
      min (args q).bytes LLONG_MAX = min (args 0).bytes LLONG_MAX := by
  obtain ⟨hreason, howner, hbytes⟩ := gathered_getD m args q
  have hzero : (((0 : Fin (n + 1)) : ℕ)) * 3 = 0 := rfl
  obtain ⟨-, howner0, hbytes0⟩ := gathered_getD m args 0
  rw [hzero, Nat.zero_add] at howner0 hbytes0
  simp only [agrees, hreason, howner, hbytes, howner0, hbytes0, decide_eq_true_eq]
  norm_cast

theorem all_agrees_gathered : (List.range (n + 1)).all (agrees (gathered m args)) = true ↔
    ∀ q, shareReason (m q) (args q) = 0 ∧ (args q).owner = (args 0).owner ∧
      min (args q).bytes LLONG_MAX = min (args 0).bytes LLONG_MAX := by
  rw [List.all_eq_true]
  constructor
  · intro h q
    exact (agrees_gathered q).mp (h q (List.mem_range.mpr q.isLt))
  · intro h src hsrc
    exact (agrees_gathered ⟨src, List.mem_range.mp hsrc⟩).mpr (h _)

end Table

section Fit

/-- What it takes for a rank to have no reason against the broadcast. -/
theorem shareReason_eq_zero {m : MpiSide} {a : ShareArgs} (h : shareReason m a = 0) :
    a.bytes ≤ LLONG_MAX ∧ 0 ≤ a.owner ∧ a.owner < calculatorCount m ∧
      (a.bytes = 0 ∨ a.data ≠ none) := by
  unfold shareReason at h
  by_cases hbytes : a.bytes > LLONG_MAX
  · simp [hbytes] at h
  rw [if_neg hbytes] at h
  by_cases hgroup : ¬ m.bound ∨ m.group.index < 0 ∨ (a.bytes > 0 ∧ a.data = none)
  · rw [if_pos hgroup] at h
    cases h
  rw [if_neg hgroup] at h
  by_cases howner : a.owner < 0 ∨ a.owner ≥ calculatorCount m
  · rw [if_pos howner] at h
    cases h
  refine ⟨by omega, by omega, by omega, ?_⟩
  by_contra hdata
  rw [not_or, not_not] at hdata
  exact hgroup (Or.inr (Or.inr ⟨by omega, hdata.2⟩))

theorem ShareArgs.length_buffer {a : ShareArgs} (h : a.bytes = 0 ∨ a.data ≠ none) :
    a.buffer.length = a.bytes := by
  cases hdata : a.data with
  | none =>
    rcases h with hzero | hsome
    · simp [ShareArgs.buffer, hdata, hzero]
    · exact absurd hdata hsome
  | some buffer => simpa [ShareArgs.buffer, hdata] using a.length_data buffer hdata

end Fit

section Lockstep

/-- Ranks that agree end with the bytes of the first rank of the owner. -/
theorem broadcastFromOwner_lockstep (h : Bound n r m) (owner : ℤ) {bytes : ℕ}
    {data : Fin (n + 1) → List UInt8} (root : Fin (n + 1))
    (hroot : (root : ℤ) = owner * ranksPerCalculator (n + 1) r)
    (hlength : ∀ q, (data q).length = bytes) :
    Lockstep Call.value (fun q => broadcastFromOwner (m q) owner (data q)) (chunkCalls root bytes)
      fun _ => .ok (data root) := by
  have heq : (fun q => broadcastFromOwner (m q) owner (data q)) =
      fun q => broadcastChunks root (data q) := by
    funext q
    rw [broadcastFromOwner, (h.group q).2]
    simp only [← hroot, Int.toNat_natCast]
  rw [heq]
  exact broadcastChunks_lockstep root bytes data hlength

theorem share_of_many (h : Bound n r m) (hn : 0 < n) (args : Fin (n + 1) → ShareArgs)
    (q : Fin (n + 1)) :
    share (n + 1) (m q) (args q) = (do
      let all := (← joint ⟨.Allgather, 3, .LONG_LONG⟩ (.ints (shareLocal (m q) (args q)))).toInts
      if (List.range (n + 1)).all (agrees all) then
        return (1, ← broadcastFromOwner (m q) (args q).owner (args q).buffer)
      else throw ⟨shareErrors (n + 1) all⟩) := by
  obtain ⟨hbound, hgroup⟩ := h.group q
  have hindex : (0 : ℤ) ≤ (q : ℤ) / ranksPerCalculator (n + 1) r :=
    Int.ediv_nonneg (Int.natCast_nonneg _) h.ranks_pos.le
  have hcollective : n + 1 > 1 ∧ (m q).bound = true ∧ (m q).group.index ≥ 0 ∧
      (m q).group.world_size > 1 := by
    rw [hgroup]
    exact ⟨by omega, hbound, hindex, by simp only; omega⟩
  rw [share, if_neg (not_not.mpr hcollective)]

theorem share_lockstep_of_all (h : Bound n r m) (hn : 0 < n) (root : Fin (n + 1))
    (hroot : (root : ℤ) = (args 0).owner * ranksPerCalculator (n + 1) r)
    (hall : ∀ q, shareReason (m q) (args q) = 0 ∧ (args q).owner = (args 0).owner ∧
      min (args q).bytes LLONG_MAX = min (args 0).bytes LLONG_MAX) :
    Lockstep Call.value (fun q => share (n + 1) (m q) (args q))
      (⟨.Allgather, 3, .LONG_LONG⟩ :: chunkCalls root (args 0).bytes)
      fun _ => .ok (1, (args root).buffer) := by
  have hlength : ∀ q, (args q).buffer.length = (args 0).bytes := by
    intro q
    obtain ⟨hreason, -, hbytes⟩ := hall q
    obtain ⟨hle, -, -, hdata⟩ := shareReason_eq_zero hreason
    obtain ⟨hle0, -⟩ := shareReason_eq_zero (hall 0).1
    rw [ShareArgs.length_buffer hdata]
    omega
  have hsend := broadcastFromOwner_lockstep h _ root hroot hlength
  have hgather := joint_lockstep (ε := Abort) ⟨.Allgather, 3, .LONG_LONG⟩
    fun q => .ints (shareLocal (m q) (args q))
  have hagree : (List.range (n + 1)).all (agrees (gathered m args)) = true :=
    all_agrees_gathered.mpr hall
  have hvalue : (⟨.Allgather, 3, .LONG_LONG⟩ : Call).value
      (fun q => .ints (shareLocal (m q) (args q))) = .ints (gathered m args) := rfl
  rw [hvalue] at hgather
  have hshare := funext fun q => share_of_many h hn args q
  rw [hshare]
  refine hgather.bind_ok ?_
  simp only [Buffer.toInts_ints, hagree, if_true, fun q => (hall q).2.1]
  have hreturn := hsend.bind_ok (f := fun _ buffer =>
    (return (1, buffer) : ExceptT Abort (Prog Call Buffer) (ℤ × List UInt8))) (Lockstep.pure _)
  rwa [List.append_nil] at hreturn

theorem share_lockstep_of_not_all (h : Bound n r m) (hn : 0 < n)
    (hnot : ¬ ∀ q, shareReason (m q) (args q) = 0 ∧ (args q).owner = (args 0).owner ∧
      min (args q).bytes LLONG_MAX = min (args 0).bytes LLONG_MAX) :
    Lockstep Call.value (fun q => share (n + 1) (m q) (args q)) [⟨.Allgather, 3, .LONG_LONG⟩]
      fun _ => .error ⟨shareErrors (n + 1) (gathered m args)⟩ := by
  have hgather := joint_lockstep (ε := Abort) ⟨.Allgather, 3, .LONG_LONG⟩
    fun q => .ints (shareLocal (m q) (args q))
  have hvalue : (⟨.Allgather, 3, .LONG_LONG⟩ : Call).value
      (fun q => .ints (shareLocal (m q) (args q))) = .ints (gathered m args) := rfl
  rw [hvalue] at hgather
  have hdisagree : (List.range (n + 1)).all (agrees (gathered m args)) = false := by
    rw [Bool.eq_false_iff]
    exact fun hall => hnot (all_agrees_gathered.mp hall)
  have hshare := funext fun q => share_of_many h hn args q
  rw [hshare]
  refine hgather.bind_ok (u := []) ?_
  simp only [Buffer.toInts_ints, hdisagree, Bool.false_eq_true, if_false]
  exact Lockstep.pure _

/-- In a world of one rank there is nobody to abort: a bad argument is refused without a call. -/
theorem share_lockstep_alone {m : Fin 1 → MpiSide} (h : Bound 0 r m) (args : Fin 1 → ShareArgs) :
    ((args 0).owner = 0 ∧ Lockstep Call.value (fun q => share 1 (m q) (args q))
        (chunkCalls 0 (args 0).bytes) fun _ => .ok (1, (args 0).buffer)) ∨
      Lockstep Call.value (fun q => share 1 (m q) (args q)) [] fun _ => .ok (0, (args 0).buffer) := by
  have hcount := h.calculatorCount 0
  have hshare : (fun q => share 1 (m q) (args q)) = fun _ : Fin 1 =>
      (if ¬ (m 0).bound ∨ (m 0).group.index < 0 ∨ ((args 0).bytes > 0 ∧ (args 0).data = none) then
        return (0, (args 0).buffer)
      else if (args 0).owner < 0 ∨ (args 0).owner ≥ calculatorCount (m 0) then
        return (0, (args 0).buffer)
      else return (1, ← broadcastFromOwner (m 0) (args 0).owner (args 0).buffer)) := by
    funext q
    obtain rfl : q = 0 := Subsingleton.elim q 0
    rw [share, if_pos (fun hcollective => absurd hcollective.1 (by decide))]
  rw [hshare]
  by_cases hmissing : ¬ (m 0).bound ∨ (m 0).group.index < 0 ∨
      ((args 0).bytes > 0 ∧ (args 0).data = none)
  · simp only [if_pos hmissing]
    exact Or.inr (Lockstep.pure _)
  simp only [if_neg hmissing]
  by_cases howner : (args 0).owner < 0 ∨ (args 0).owner ≥ calculatorCount (m 0)
  · simp only [if_pos howner]
    exact Or.inr (Lockstep.pure _)
  simp only [if_neg howner]
  left
  have hranks : ranksPerCalculator ((0 : ℕ) + 1) r = 1 := by
    have hpos := h.ranks_pos
    have hle := Int.le_of_dvd (by decide) h.ranks_dvd
    simp only [Nat.cast_zero] at hpos hle ⊢
    omega
  rw [hcount, hranks] at howner
  have hzero : (args 0).owner = 0 := by
    simp only [Nat.cast_zero, zero_add, Int.ediv_one] at howner
    omega
  have hdata : (args 0).bytes = 0 ∨ (args 0).data ≠ none := by
    by_contra hnone
    rw [not_or, not_not] at hnone
    exact hmissing (Or.inr (Or.inr ⟨by omega, hnone.2⟩))
  have hsend := broadcastFromOwner_lockstep h (args 0).owner 0 (by simp [hzero])
    fun _ : Fin 1 => ShareArgs.length_buffer hdata
  refine ⟨hzero, ?_⟩
  have hone : (fun q : Fin 1 => broadcastFromOwner (m q) (args 0).owner (args 0).buffer) =
      fun _ => broadcastFromOwner (m 0) (args 0).owner (args 0).buffer := by
    funext q
    rw [Subsingleton.elim q 0]
  rw [hone] at hsend
  have hreturn := hsend.bind_ok (f := fun _ buffer =>
    (return (1, buffer) : ExceptT Abort (Prog Call Buffer) (ℤ × List UInt8))) (Lockstep.pure _)
  rwa [List.append_nil] at hreturn

end Lockstep

/-- After a bind on every rank, the rank in the world is `index * ranks + rank_in_group` and every pair
of a calculator and a member is one rank. In a world of several ranks, either all ranks broadcast the
same bytes from the first rank of the same calculator, each byte once, and end with that rank's buffer,
or all abort after the one gathering; no interleaving leaves a rank alone in a collective. A world of
one rank broadcasts to itself, or refuses the arguments without a collective. -/
theorem share_all_or_abort (h : Bound n r m) (args : Fin (n + 1) → ShareArgs) :
    (∀ q : Fin (n + 1), (q : ℤ) = (m q).group.index * (m q).group.ranks + (m q).group.rank_in_group) ∧
    (∀ index member, 0 ≤ index → index < ((n : ℤ) + 1) / ranksPerCalculator (n + 1) r →
      0 ≤ member → member < ranksPerCalculator (n + 1) r →
      ∃! q, (m q).group.index = index ∧ (m q).group.rank_in_group = member) ∧
    (0 < n →
      (∃ root : Fin (n + 1),
        (root : ℤ) = (args 0).owner * ranksPerCalculator (n + 1) r ∧
        (∀ q, (args q).owner = (args 0).owner ∧ (args q).bytes = (args 0).bytes) ∧
        ((chunkCalls root (args 0).bytes).map Call.count).sum = (args 0).bytes ∧
        Together Call.value (fun q => (share (n + 1) (m q) (args q)).run)
          (⟨.Allgather, 3, .LONG_LONG⟩ :: chunkCalls root (args 0).bytes)
          fun _ => .ok (1, (args root).buffer)) ∨
      Together Call.value (fun q => (share (n + 1) (m q) (args q)).run)
        [⟨.Allgather, 3, .LONG_LONG⟩] fun _ => .error ⟨shareErrors (n + 1) (gathered m args)⟩) ∧
    (n = 0 →
      ((args 0).owner = 0 ∧ Together Call.value (fun q => (share (n + 1) (m q) (args q)).run)
        (chunkCalls 0 (args 0).bytes) fun _ => .ok (1, (args 0).buffer)) ∨
      Together Call.value (fun q => (share (n + 1) (m q) (args q)).run) []
        fun _ => .ok (0, (args 0).buffer)) := by
  refine ⟨?_, ?_, ?_, ?_⟩
  · intro q
    simp only [(h.group q).2]
    exact (Int.ediv_mul_add_emod _ _).symm
  · intro index member hindex hlt hmember hmember_lt
    exact h.rank_unique hindex hlt hmember hmember_lt
  · intro hn
    by_cases hall : ∀ q, shareReason (m q) (args q) = 0 ∧ (args q).owner = (args 0).owner ∧
        min (args q).bytes LLONG_MAX = min (args 0).bytes LLONG_MAX
    · obtain ⟨hle0, hnonneg, hlt, -⟩ := shareReason_eq_zero (hall 0).1
      rw [h.calculatorCount] at hlt
      have hroot := h.root_lt hnonneg hlt
      have hcast : (((args 0).owner * ranksPerCalculator ((n : ℤ) + 1) r).toNat : ℤ) =
          (args 0).owner * ranksPerCalculator (n + 1) r :=
        Int.toNat_of_nonneg (mul_nonneg hnonneg h.ranks_pos.le)
      refine Or.inl ⟨⟨_, hroot⟩, hcast, fun q => ?_, sum_chunkCalls _ _,
        (share_lockstep_of_all h hn ⟨_, hroot⟩ hcast hall).together⟩
      obtain ⟨hreason, howner, hbytes⟩ := hall q
      obtain ⟨hle, -⟩ := shareReason_eq_zero hreason
      exact ⟨howner, by omega⟩
    · exact Or.inr (share_lockstep_of_not_all h hn hall).together
  · rintro rfl
    rcases share_lockstep_alone h args with ⟨howner, hsend⟩ | hrefused
    · exact Or.inl ⟨howner, hsend.together⟩
    · exact Or.inr hrefused.together

section Examples

/-- A rank of a world of two calculators of one rank, after the bind. -/
def twoCalculators (q : Fin 2) : MpiSide := ({} : MpiSide).bind (world q) true 1

/-- Calculator 1 shares two bytes. -/
def twoBytes (q : Fin 2) : ShareArgs where
  owner := 1
  bytes := 2
  data := some (if q = 1 then [7, 8] else [0, 0])
  bytes_lt := by decide
  length_data := by
    intro buffer hbuffer
    obtain rfl := Option.some.inj hbuffer
    split <;> rfl

theorem bound_twoCalculators : Bound 1 1 twoCalculators :=
  ⟨⟨by decide, by decide⟩, fun _ => ⟨{}, true, rfl⟩⟩

/-- Both ranks end with the bytes of rank 1. -/
theorem share_all_or_abort_two_ranks : ∃ t, Together Call.value
    (fun q => (share 2 (twoCalculators q) (twoBytes q)).run) t fun _ => .ok (1, [7, 8]) := by
  rcases (share_all_or_abort bound_twoCalculators twoBytes).2.2.1 (by decide) with
    ⟨root, hroot, -, -, htogether⟩ | habort
  · have hone : ((root : ℕ) : ℤ) = 1 := hroot
    obtain rfl : root = 1 := Fin.ext (by exact_mod_cast hone)
    exact ⟨_, htogether⟩
  · have hfit : ∀ q, shareReason (twoCalculators q) (twoBytes q) = 0 ∧
        (twoBytes q).owner = (twoBytes 0).owner ∧
        min (twoBytes q).bytes LLONG_MAX = min (twoBytes 0).bytes LLONG_MAX := by decide
    exact ⟨_, (share_lockstep_of_all bound_twoCalculators (by decide) 1 rfl hfit).together⟩

/-- A process alone in its world that passes no buffer neither broadcasts nor aborts. -/
theorem share_alone_refuses :
    ¬ ∀ (n : ℕ) (r : ℤ) (m : Fin (n + 1) → MpiSide) (args : Fin (n + 1) → ShareArgs), Bound n r m →
      (∃ t root, Lockstep Call.value (fun q => share (n + 1) (m q) (args q)) t
        fun _ => .ok (1, (args root).buffer)) ∨
      ∃ t printed, Lockstep Call.value (fun q => share (n + 1) (m q) (args q)) t
        fun _ => .error ⟨printed⟩ := by
  intro h
  let m : Fin 1 → MpiSide := fun q => ({} : MpiSide).bind (world q) true 1
  let args : Fin 1 → ShareArgs := fun _ => ⟨0, 2, none, by decide, by simp⟩
  have hbound : Bound 0 1 m := ⟨⟨by decide, by decide⟩, fun _ => ⟨{}, true, rfl⟩⟩
  have hshare : (fun q => share 1 (m q) (args q)) = fun _ : Fin 1 => return (0, []) := by
    funext q
    obtain rfl : q = 0 := Subsingleton.elim q 0
    rfl
  have hrefused : Lockstep Call.value (fun q => share 1 (m q) (args q)) [] fun _ => .ok (0, []) := by
    rw [hshare]
    exact Lockstep.pure _
  rcases h 0 1 m args hbound with ⟨t, root, hsend⟩ | ⟨t, printed, habort⟩
  · have heq := congrFun (hrefused.unique hsend).2 0
    injection heq with heq
    cases heq
  · have heq := congrFun (hrefused.unique habort).2 0
    cases heq

end Examples

end Rgpot.Calculators
