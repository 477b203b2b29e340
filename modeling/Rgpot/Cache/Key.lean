import Rgpot.ForceStructs
import Rgpot.Lib.XorHash

/-! `Potential::cacheKey`: which pairs of evaluations the exclusive-or of five hashes separates. -/
namespace Rgpot.Cache
open Words XorHash

/-- What `cacheKey` reads: the potential's type and parameter fingerprint, and the system. -/
structure Evaluation where
  type : PotType
  paramsKey : UInt64
  input : ForceInput
  deriving DecidableEq

namespace Evaluation

/-- The five byte strings hashed, in the order of the source. -/
def component (e : Evaluation) : Fin 5 → List UInt8 :=
  ![arrayBytes e.input.pos, arrayBytes e.input.atmnrs, arrayBytes e.input.box,
    Word.bytes e.type.value, Word.bytes e.paramsKey]

def components (e : Evaluation) : List (List UInt8) := List.ofFn e.component

end Evaluation

/-- `Potential::cacheKey` over a hash `H` of byte strings. The hash is an arbitrary injection, so
its values are unbounded here; with 64-bit values none exists. -/
def cacheKey (H : List UInt8 → ℕ) (e : Evaluation) : ℕ :=
  let hash := 0
  let hash := hash ^^^ H (arrayBytes e.input.pos)
  let hash := hash ^^^ H (arrayBytes e.input.atmnrs)
  let hash := hash ^^^ H (arrayBytes e.input.box)
  let hash := hash ^^^ H (Word.bytes e.type.value)
  let hash := hash ^^^ H (Word.bytes e.paramsKey)
  hash

variable {H : List UInt8 → ℕ} {x y : Evaluation}

theorem cacheKey_eq (H : List UInt8 → ℕ) (e : Evaluation) :
    cacheKey H e = xorAll (e.components.map H) := by
  simp [cacheKey, Evaluation.components, Evaluation.component, xorAll, List.ofFn_succ,
    Nat.xor_assoc]

theorem xor_cacheKey (H : List UInt8 → ℕ) (x y : Evaluation) :
    cacheKey H x ^^^ cacheKey H y = xorAll ((x.components ++ y.components).map H) := by
  rw [cacheKey_eq, cacheKey_eq, List.map_append, xorAll_append]

/-- An evaluation is determined by the byte strings that are hashed. -/
theorem ext_component (h : ∀ k, x.component k = y.component k) : x = y := by
  have hp : x.input.pos = y.input.pos := arrayBytes_injective (h 0)
  have ht : x.input.atmnrs = y.input.atmnrs := arrayBytes_injective (h 1)
  have hb : x.input.box = y.input.box := arrayBytes_injective (h 2)
  have htype : x.type = y.type := PotType.value_injective (bytes_injective (h 3))
  have hparams : x.paramsKey = y.paramsKey := bytes_injective (h 4)
  have hinput := ForceInput.ext_buffers hp ht hb
  obtain ⟨_, _, _⟩ := x
  obtain ⟨_, _, _⟩ := y
  simp_all

/-- Evaluations that differ in a single component have different keys. -/
theorem cacheKey_ne_of_one (hH : Function.Injective H) {k : Fin 5}
    (h : ∀ m, m ≠ k → x.component m = y.component m) (hk : x.component k ≠ y.component k) :
    cacheKey H x ≠ cacheKey H y := by
  intro heq
  have hcancel : H (x.component k) = H (y.component k) := by
    have hx : ∀ e : Evaluation, cacheKey H e = H (e.component 0) ^^^ (H (e.component 1) ^^^
        (H (e.component 2) ^^^ (H (e.component 3) ^^^ H (e.component 4)))) := by
      intro e
      simp [cacheKey, Evaluation.component, Nat.xor_assoc]
    rw [hx, hx] at heq
    fin_cases k <;> simp_all
  exact hk (hH hcancel)

/-- The keys of two evaluations differ under every injective hash exactly when two of the ten
byte strings occur an odd number of times. -/
theorem cacheKey_ne_iff (x y : Evaluation) :
    (∀ H : List UInt8 → ℕ, Function.Injective H → cacheKey H x ≠ cacheKey H y) ↔
      (oddPart (x.components ++ y.components)).card = 2 := by
  rw [← xorAll_ne_zero_iff number_injective (by simp [Evaluation.components]; decide)]
  refine forall_congr' fun H => imp_congr_right fun _ => ?_
  rw [← xor_cacheKey, ne_eq, ne_eq, Nat.xor_eq_zero_iff]

/-- Three atoms at the cell vectors: positions and cell are one byte string and cancel. -/
theorem cacheKey_of_pos_eq_box (H : List UInt8 → ℕ) {e : Evaluation}
    (h : e.input.pos = e.input.box) :
    cacheKey H e = H (arrayBytes e.input.atmnrs) ^^^
      (H (Word.bytes e.type.value) ^^^ H (Word.bytes e.paramsKey)) := by
  have hcancel : ∀ p q r : ℕ, p ^^^ (q ^^^ (p ^^^ r)) = q ^^^ r := by
    intro p q r
    rw [← Nat.xor_assoc q, Nat.xor_comm q, Nat.xor_assoc, ← Nat.xor_assoc p p, Nat.xor_self,
      Nat.zero_xor]
  simp only [cacheKey, h, Nat.zero_xor, Nat.xor_assoc, hcancel]

/-- An OHH molecule at the three vectors of the cubic cell of edge `a`, for a class that keeps the
default fingerprint 0. -/
def atCellVectors (a : Double) : Evaluation where
  type := .MOPAC
  paramsKey := 0
  input :=
    { nAtoms := 3
      pos := [a, 0, 0, 0, a, 0, 0, 0, a]
      atmnrs := [8, 1, 1]
      box := [a, 0, 0, 0, a, 0, 0, 0, a]
      length_pos := rfl
      length_atmnrs := rfl
      length_box := rfl }

/-- Edges 10.0 and 11.0 give two systems with one key under every hash. -/
theorem not_cacheKey_separates :
    ¬ ∀ H : List UInt8 → ℕ, Function.Injective H →
      ∀ x y : Evaluation, x ≠ y → cacheKey H x ≠ cacheKey H y := by
  intro h
  refine h number number_injective (atCellVectors 0x4024000000000000)
    (atCellVectors 0x4026000000000000) (by decide) ?_
  rw [cacheKey_of_pos_eq_box _ rfl, cacheKey_of_pos_eq_box _ rfl]
  rfl

end Rgpot.Cache
