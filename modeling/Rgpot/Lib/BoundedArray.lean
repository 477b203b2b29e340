import Rgpot.Lib.RowMajor

/-! Arrays with an extent: loops whose reads and writes stay in bounds do what they do on row-major arrays
without one. -/
namespace Rgpot.RowMajor
open Finset

/-- An allocation; only the first `size` entries may be touched. -/
structure Buffer (α : Type) where
  size : ℕ
  data : ℕ → α

/-- `for (k < n) s = step(s, k)`; an access out of bounds ends it without a result. -/
def forRange {σ : Type} (n : ℕ) (s : σ) (step : σ → ℕ → Option σ) : Option σ :=
  (List.range n).foldlM step s

namespace Buffer
variable {α : Type}

def read (b : Buffer α) (k : ℕ) : Option α := if k < b.size then some (b.data k) else none

def set (b : Buffer α) (k : ℕ) (x : α) : Option (Buffer α) :=
  if k < b.size then some { b with data := Function.update b.data k x } else none

variable {b : Buffer α} {k : ℕ}

theorem read_of_lt (h : k < b.size) : b.read k = some (b.data k) := if_pos h

theorem set_of_lt (h : k < b.size) (x : α) :
    b.set k x = some { b with data := Function.update b.data k x } := if_pos h

end Buffer

section Loops
variable {α σ : Type} {n : ℕ} {s : σ} {step : σ → ℕ → Option σ}

/-- The rule of a loop that stays in bounds: an invariant of the number of rounds. -/
theorem forRange_rule (Inv : ℕ → σ → Prop) (hstart : Inv 0 s)
    (hstep : ∀ k < n, ∀ s, Inv k s → ∃ t, step s k = some t ∧ Inv (k + 1) t) :
    ∃ t, forRange n s step = some t ∧ Inv n t := by
  induction n with
  | zero => exact ⟨s, rfl, hstart⟩
  | succ n ih =>
    obtain ⟨t, ht, hinv⟩ := ih fun k hk => hstep k (Nat.lt_succ_of_lt hk)
    obtain ⟨u, hu, hnext⟩ := hstep n (Nat.lt_succ_self n) t hinv
    refine ⟨u, ?_, hnext⟩
    have ht' : (List.range n).foldlM step s = some t := ht
    rw [forRange, List.range_succ, List.foldlM_append, ht']
    simpa using hu

/-- A loop that adds the term of each round. -/
theorem forRange_accumulate {K : Type} [CommRing K] {step : K → ℕ → Option K} {x : ℕ → K}
    (hstep : ∀ k < n, ∀ acc, step acc k = some (acc + x k)) :
    forRange n 0 step = some (accumulate n x) := by
  have hloop : ∃ acc, forRange n 0 step = some acc ∧ acc = accumulate n x := by
    refine forRange_rule (fun k acc => acc = accumulate k x) rfl ?_
    rintro k hk acc rfl
    refine ⟨_, hstep k hk _, ?_⟩
    simp [accumulate, List.range_succ]
  obtain ⟨acc, hacc, rfl⟩ := hloop
  exact hacc

theorem write_succ (off n : ℕ) (f buf : ℕ → α) :
    write off (n + 1) f buf = Function.update (write off n f buf) (off + n) (f n) := by
  funext k
  by_cases hlast : k = off + n
  · subst hlast
    rw [Function.update_self]
    exact write_apply (Nat.lt_succ_self n)
  · rw [Function.update_of_ne hlast]
    unfold write
    by_cases hin : off ≤ k ∧ k < off + n
    · rw [if_pos hin, if_pos ⟨hin.1, by omega⟩]
    · rw [if_neg hin, if_neg (by omega)]

theorem write_none (off : ℕ) (f buf : ℕ → α) : write off 0 f buf = buf := by
  funext k
  exact if_neg (by omega)

/-- A loop that sets the entry of each round writes the whole range. -/
theorem forRange_write {b : Buffer α} {off : ℕ} {step : Buffer α → ℕ → Option (Buffer α)} {f : ℕ → α}
    (hsize : off + n ≤ b.size)
    (hstep : ∀ k < n, ∀ b' : Buffer α, b'.size = b.size →
      (∀ l, off + k ≤ l → b'.data l = b.data l) → step b' k = b'.set (off + k) (f k)) :
    forRange n b step = some { b with data := write off n f b.data } := by
  have hloop : ∃ t, forRange n b step = some t ∧ t = { b with data := write off n f b.data } := by
    refine forRange_rule (fun k t => t = { b with data := write off k f b.data }) ?_ ?_
    · rw [write_none]
    · rintro k hk t rfl
      have hrest : ∀ l, off + k ≤ l → write off k f b.data l = b.data l := by
        intro l hl
        exact if_neg (by omega)
      have hin : off + k < b.size := by omega
      have hset := hstep k hk { b with data := write off k f b.data } rfl hrest
      rw [hset, Buffer.set_of_lt (b := { b with data := write off k f b.data }) hin, write_succ]
      exact ⟨_, rfl, rfl⟩
  obtain ⟨t, ht, rfl⟩ := hloop
  exact ht

/-- The rows before `i`, and row `i`. -/
theorem write_row (i cols : ℕ) (f : ℕ → ℕ → α) (buf : ℕ → α) :
    write (i * cols) cols (f i) (write 0 (i * cols) (fun k => f (k / cols) (k % cols)) buf) =
      write 0 ((i + 1) * cols) (fun k => f (k / cols) (k % cols)) buf := by
  have hsucc : (i + 1) * cols = i * cols + cols := Nat.succ_mul i cols
  funext k
  by_cases hbefore : k < i * cols
  · rw [write_of_lt hbefore, write_zero_apply hbefore, write_zero_apply (by omega)]
  · obtain ⟨j, rfl⟩ := Nat.exists_eq_add_of_le (Nat.le_of_not_lt hbefore)
    by_cases hj : j < cols
    · have hlt : i * cols + j < (i + 1) * cols := by omega
      have hentry : fill 0 (i + 1) cols f buf (i * cols + j) = f i j :=
        fill_zero_apply (Nat.lt_succ_self i) hj
      rw [write_apply hj]
      exact hentry.symm
    · unfold write
      rw [if_neg (by omega), if_neg (by omega), if_neg (by omega)]

/-- Nested loops that set the entries row by row fill the matrix. -/
theorem forRange_fill {b : Buffer α} {rows cols : ℕ}
    {step : ℕ → Buffer α → ℕ → Option (Buffer α)} {f : ℕ → ℕ → α} (hsize : rows * cols ≤ b.size)
    (hstep : ∀ i < rows, ∀ j < cols, ∀ b' : Buffer α, b'.size = b.size →
      b'.data (i * cols + j) = b.data (i * cols + j) → step i b' j = b'.set (i * cols + j) (f i j)) :
    (forRange rows b fun b i => forRange cols b (step i)) =
      some { b with data := fill 0 rows cols f b.data } := by
  have hloop : ∃ t, (forRange rows b fun b i => forRange cols b (step i)) = some t ∧
      t = { b with data := fill 0 rows cols f b.data } := by
    refine forRange_rule
      (fun i t => t = { b with data := write 0 (i * cols) (fun k => f (k / cols) (k % cols)) b.data }) ?_ ?_
    · rw [Nat.zero_mul, write_none]
    · rintro i hi t rfl
      have hrow : i * cols + cols ≤ rows * cols := by
        rw [← Nat.succ_mul]
        exact Nat.mul_le_mul_right cols hi
      have hinner : forRange cols
          { b with data := write 0 (i * cols) (fun k => f (k / cols) (k % cols)) b.data } (step i) =
          some ⟨b.size, write (i * cols) cols (f i)
            (write 0 (i * cols) (fun k => f (k / cols) (k % cols)) b.data)⟩ := by
        refine forRange_write (hrow.trans hsize) ?_
        intro j hj b' hb' hrest
        refine hstep i hi j hj b' hb' ((hrest _ le_rfl).trans ?_)
        exact if_neg (by omega)
      rw [write_row] at hinner
      exact ⟨_, hinner, rfl⟩
  obtain ⟨t, ht, rfl⟩ := hloop
  exact ht

end Loops
end Rgpot.RowMajor
