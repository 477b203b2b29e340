import Mathlib.Algebra.BigOperators.Intervals
import Mathlib.Algebra.BigOperators.Ring.Finset
import Mathlib.Algebra.Field.Basic
import Mathlib.Tactic.Ring
import Mathlib.Tactic.LinearCombination

/-! Row-major arrays behind pointers: what a loop writes and sums, and the forms the arrays carry. -/
namespace Rgpot.RowMajor
open Finset

variable {α K : Type} [CommRing K]

/-- `for (k < n) p[k] = f(k)` on the pointer `p = buf + off`. -/
def write (off n : ℕ) (f : ℕ → α) (buf : ℕ → α) : ℕ → α :=
  fun k => if off ≤ k ∧ k < off + n then f (k - off) else buf k

/-- `for (i < rows) for (j < cols) p[i * cols + j] = f(i, j)`. -/
def fill (off rows cols : ℕ) (f : ℕ → ℕ → α) (buf : ℕ → α) : ℕ → α :=
  write off (rows * cols) (fun k => f (k / cols) (k % cols)) buf

/-- `acc = 0; for (k < n) acc += f(k)`. -/
def accumulate (n : ℕ) (f : ℕ → K) : K := (List.range n).foldl (fun acc k => acc + f k) 0

/-- The inner product of the first `n` entries. -/
def dot (n : ℕ) (a b : ℕ → K) : K := ∑ k ∈ range n, a k * b k

variable {n off rows cols i j k : ℕ}

section Writes
variable {f : ℕ → ℕ → α} {a buf : ℕ → α}

theorem write_apply (h : k < n) : write off n a buf (off + k) = a k := by
  have hin : off ≤ off + k ∧ off + k < off + n := by omega
  rw [write, if_pos hin, Nat.add_sub_cancel_left]

theorem write_zero_apply (h : k < n) : write 0 n a buf k = a k := by
  have happly : write 0 n a buf (0 + k) = a k := write_apply h
  rwa [Nat.zero_add] at happly

/-- Entries before the pointer keep their values. -/
theorem write_of_lt (h : k < off) : write off n a buf k = buf k := by
  have hout : ¬ (off ≤ k ∧ k < off + n) := by omega
  rw [write, if_neg hout]

theorem index_lt (hi : i < rows) (hj : j < cols) : i * cols + j < rows * cols := by
  have hrow : (i + 1) * cols ≤ rows * cols := Nat.mul_le_mul_right _ hi
  have hsucc : (i + 1) * cols = i * cols + cols := Nat.succ_mul i cols
  omega

theorem fill_apply (hi : i < rows) (hj : j < cols) :
    fill off rows cols f buf (off + (i * cols + j)) = f i j := by
  have hcols : 0 < cols := by omega
  have hdiv : (i * cols + j) / cols = i := by
    rw [Nat.mul_comm, Nat.mul_add_div hcols, Nat.div_eq_of_lt hj, Nat.add_zero]
  have hmod : (i * cols + j) % cols = j := by
    rw [Nat.mul_comm, Nat.mul_add_mod, Nat.mod_eq_of_lt hj]
  rw [fill, write_apply (index_lt hi hj), hdiv, hmod]

theorem fill_zero_apply (hi : i < rows) (hj : j < cols) :
    fill 0 rows cols f buf (i * cols + j) = f i j := by
  have happly : fill 0 rows cols f buf (0 + (i * cols + j)) = f i j := fill_apply hi hj
  rwa [Nat.zero_add] at happly

theorem fill_of_lt (h : k < off) : fill off rows cols f buf k = buf k := write_of_lt h

end Writes

section Sums
variable {a b : ℕ → K}

theorem accumulate_eq_sum (n : ℕ) (a : ℕ → K) : accumulate n a = ∑ k ∈ range n, a k := by
  induction n with
  | zero => rfl
  | succ n ih =>
    rw [sum_range_succ, ← ih]
    simp [accumulate, List.range_succ]

/-- A loop adds up what its rounds add to an observed value. -/
theorem foldl_range_add {σ : Type} {step : σ → ℕ → σ} {observe : σ → K}
    (h : ∀ s, ∀ k < n, observe (step s k) = observe s + a k) (s : σ) :
    observe ((List.range n).foldl step s) = observe s + ∑ k ∈ range n, a k := by
  induction n with
  | zero => simp
  | succ n ih =>
    rw [List.range_succ, List.foldl_append, List.foldl_cons, List.foldl_nil, h _ n (Nat.lt_succ_self n),
      ih fun s k hk => h s k (Nat.lt_succ_of_lt hk), sum_range_succ, add_assoc]

/-- A sum over the entries is a sum over the rows and columns. -/
theorem sum_range_mul (rows cols : ℕ) (a : ℕ → K) :
    ∑ k ∈ range (rows * cols), a k = ∑ i ∈ range rows, ∑ j ∈ range cols, a (i * cols + j) := by
  induction rows with
  | zero => simp
  | succ rows ih => rw [Nat.succ_mul, sum_range_add, ih, sum_range_succ]

theorem dot_mul (rows cols : ℕ) (a b : ℕ → K) : dot (rows * cols) a b =
    ∑ i ∈ range rows, ∑ j ∈ range cols, a (i * cols + j) * b (i * cols + j) :=
  sum_range_mul rows cols _

theorem dot_comm (n : ℕ) (a b : ℕ → K) : dot n a b = dot n b a :=
  sum_congr rfl fun k _ => mul_comm (a k) (b k)

/-- Only the entries in range count. -/
theorem dot_congr_left (h : ∀ k < n, a k = b k) (c : ℕ → K) : dot n a c = dot n b c := by
  refine sum_congr rfl fun k hk => ?_
  rw [h k (mem_range.mp hk)]

/-- A contraction over the first index of a left factor is adjoint to one over its second. -/
theorem sum_contract (s t u : Finset ℕ) (A B C : ℕ → ℕ → K) :
    ∑ i ∈ s, ∑ j ∈ t, (∑ k ∈ u, A k i * B k j) * C i j =
      ∑ k ∈ u, ∑ j ∈ t, B k j * ∑ i ∈ s, C i j * A k i := by
  calc ∑ i ∈ s, ∑ j ∈ t, (∑ k ∈ u, A k i * B k j) * C i j
      = ∑ i ∈ s, ∑ j ∈ t, ∑ k ∈ u, A k i * B k j * C i j :=
        sum_congr rfl fun i _ => sum_congr rfl fun j _ => sum_mul _ _ _
    _ = ∑ i ∈ s, ∑ k ∈ u, ∑ j ∈ t, A k i * B k j * C i j :=
        sum_congr rfl fun i _ => sum_comm
    _ = ∑ k ∈ u, ∑ i ∈ s, ∑ j ∈ t, A k i * B k j * C i j := sum_comm
    _ = ∑ k ∈ u, ∑ j ∈ t, ∑ i ∈ s, A k i * B k j * C i j :=
        sum_congr rfl fun k _ => sum_comm
    _ = ∑ k ∈ u, ∑ j ∈ t, B k j * ∑ i ∈ s, C i j * A k i := by
        refine sum_congr rfl fun k _ => sum_congr rfl fun j _ => ?_
        rw [mul_sum]
        exact sum_congr rfl fun i _ => by ring

/-- `D^T V^T C`, formed from the right. -/
def project (ps qs : Finset ℕ) (C D V : ℕ → ℕ → K) (i a : ℕ) : K :=
  ∑ q ∈ qs, (∑ p ∈ ps, C p a * V p q) * D q i

/-- `C Z^T D^T`, formed from the right. -/
def embed (is as : Finset ℕ) (C D Z : ℕ → ℕ → K) (p q : ℕ) : K :=
  ∑ a ∈ as, (∑ i ∈ is, D q i * Z i a) * C p a

/-- The projection is the adjoint of the embedding: each half of one is adjoint to a half of the
other. -/
theorem sum_project_mul (is as ps qs : Finset ℕ) (C D V Z : ℕ → ℕ → K) :
    ∑ i ∈ is, ∑ a ∈ as, project ps qs C D V i a * Z i a =
      ∑ p ∈ ps, ∑ q ∈ qs, V p q * embed is as C D Z p q := by
  calc ∑ i ∈ is, ∑ a ∈ as, project ps qs C D V i a * Z i a
      = ∑ i ∈ is, ∑ a ∈ as, (∑ q ∈ qs, D q i * ∑ p ∈ ps, C p a * V p q) * Z i a := by
        refine sum_congr rfl fun i _ => sum_congr rfl fun a _ => congrArg (· * Z i a) ?_
        exact sum_congr rfl fun q _ => mul_comm _ _
    _ = ∑ q ∈ qs, ∑ a ∈ as, (∑ p ∈ ps, C p a * V p q) * ∑ i ∈ is, Z i a * D q i :=
        sum_contract is as qs D (fun q a => ∑ p ∈ ps, C p a * V p q) Z
    _ = ∑ a ∈ as, ∑ q ∈ qs, (∑ p ∈ ps, C p a * V p q) * ∑ i ∈ is, Z i a * D q i := sum_comm
    _ = ∑ p ∈ ps, ∑ q ∈ qs, V p q * ∑ a ∈ as, (∑ i ∈ is, Z i a * D q i) * C p a :=
        sum_contract as qs ps C V fun a q => ∑ i ∈ is, Z i a * D q i
    _ = ∑ p ∈ ps, ∑ q ∈ qs, V p q * embed is as C D Z p q := by
        refine sum_congr rfl fun p _ => sum_congr rfl fun q _ => congrArg (V p q * ·) ?_
        refine sum_congr rfl fun a _ => congrArg (· * C p a) ?_
        exact sum_congr rfl fun i _ => mul_comm _ _

end Sums

section Symmetry
variable {a : ℕ → K}

/-- The entry `k` of a vector is its inner product with a unit vector. -/
theorem dot_single (h : k < n) : dot n (fun l => if l = k then 1 else 0) a = a k := by
  rw [dot, sum_eq_single_of_mem k (mem_range.mpr h)]
  · simp
  · intro l _ hl
    simp [hl]

theorem dot_combine (n : ℕ) (a b c : ℕ → K) (r s : K) :
    dot n a (fun k => r * b k + s * c k) = r * dot n a b + s * dot n a c := by
  rw [dot, dot, dot, mul_sum, mul_sum, ← sum_add_distrib]
  exact sum_congr rfl fun k _ => by ring

/-- A symmetric map is linear: its entries are inner products with its values at the unit vectors. -/
theorem linear_of_symmetric {A : (ℕ → K) → ℕ → K}
    (hsymm : ∀ v w, dot n w (A v) = dot n (A w) v) (r s : K) (v w : ℕ → K) (hk : k < n) :
    A (fun l => r * v l + s * w l) k = r * A v k + s * A w k := by
  rw [← dot_single (a := A (fun l => r * v l + s * w l)) hk, hsymm, dot_combine, ← hsymm, ← hsymm,
    dot_single hk, dot_single hk]

end Symmetry

end Rgpot.RowMajor
