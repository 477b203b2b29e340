import Rgpot.Cache.Potential

/-! Compacting the misses of a batch and scattering their results back, slot by slot. -/
namespace Rgpot.Cache
open Fallible

/-- The systems of a batch whose lookup did not answer. -/
def missed : List System → List (Option Record) → List System
  | s :: ss, none :: hits => s :: missed ss hits
  | _ :: ss, some _ :: hits => missed ss hits
  | _, _ => []

/-- A batch with its missing results filled in, in order. -/
def filled : List System → List (Option Record) → List ForceOut → List System
  | s :: ss, none :: hits, m :: ms => { s with out := m } :: filled ss hits ms
  | s :: ss, some _ :: hits, ms => s :: filled ss hits ms
  | ss, _, _ => ss

theorem copyBack_eq (m : ForceOut) (s : System) : copyBack m s = { s with out := m } := rfl

theorem missIndices_none (hits : List (Option Record)) (k : ℕ) :
    missIndices (none :: hits) k = k :: missIndices hits (k + 1) := rfl

theorem missIndices_some (hit : Record) (hits : List (Option Record)) (k : ℕ) :
    missIndices (some hit :: hits) k = missIndices hits (k + 1) := rfl

theorem missIndices_eq_nil {hits : List (Option Record)} {k : ℕ} :
    missIndices hits k = [] ↔ ∀ hit ∈ hits, hit.isSome := by
  induction hits generalizing k with
  | nil => simp [missIndices]
  | cons hit hits ih =>
    cases hit with
    | none => simp [missIndices_none]
    | some hit => simp [missIndices_some, ih]

/-- The miss indices of a batch suffix pick out its missed systems. -/
theorem compactMisses_append (done : List System) {batch : List System} {hits : List (Option Record)}
    (hlen : batch.length = hits.length) :
    compactMisses (done ++ batch) (missIndices hits done.length) = missed batch hits := by
  induction batch generalizing done hits with
  | nil =>
    obtain rfl := List.length_eq_zero_iff.mp hlen.symm
    rfl
  | cons s ss ih =>
    cases hits with
    | nil => simp at hlen
    | cons hit hits =>
      have hlen' : ss.length = hits.length := by simpa using hlen
      have hnext := ih (done ++ [s]) hlen'
      simp only [List.append_assoc, List.singleton_append, List.length_append,
        List.length_singleton] at hnext
      cases hit with
      | none =>
        rw [missIndices_none, compactMisses, List.filterMap_cons_some (b := s) (by simp)]
        exact congrArg (s :: ·) hnext
      | some hit => exact hnext

theorem missed_subset (batch : List System) (hits : List (Option Record)) :
    missed batch hits ⊆ batch := by
  induction batch generalizing hits with
  | nil => simp [missed]
  | cons s ss ih =>
    have htail : ∀ hits, missed ss hits ⊆ s :: ss := fun hits => List.subset_cons_of_subset s (ih hits)
    rcases hits with _ | ⟨_ | hit, hits⟩
    · simp [missed]
    · simpa [missed] using htail hits
    · exact htail hits

theorem missed_eq_nil (batch : List System) {hits : List (Option Record)}
    (h : ∀ hit ∈ hits, hit.isSome) : missed batch hits = [] := by
  induction batch generalizing hits with
  | nil => simp [missed]
  | cons s ss ih =>
    rcases hits with _ | ⟨_ | hit, hits⟩
    · simp [missed]
    · simp at h
    · exact ih fun hit' hmem => h hit' (List.mem_cons_of_mem _ hmem)

theorem filled_nil {batch : List System} {hits : List (Option Record)}
    (h : ∀ hit ∈ hits, hit.isSome) : filled batch hits [] = batch := by
  induction batch generalizing hits with
  | nil => simp [filled]
  | cons s ss ih =>
    rcases hits with _ | ⟨_ | hit, hits⟩
    · simp [filled]
    · simp at h
    · exact congrArg (s :: ·) (ih fun hit' hmem => h hit' (List.mem_cons_of_mem _ hmem))

namespace Potential
variable (p : Potential) (H : List UInt8 → ℕ) (env : Env)

/-- The writes of a batch, in order. -/
def storeAll : List (System × ForceOut) → ℕ → PotentialCache → PotentialCache
  | [], _, c => c
  | (s, m) :: rest, j, c =>
    storeAll rest (j + 1)
      (c.addSerialized (p.key H s.input) m s.input.nAtoms (env.kept j))

/-- Each result lands in its own slot: the write-back of a batch suffix fills exactly the missed
slots in order and leaves the served ones alone. -/
theorem writeBack_append (done : List System) {batch : List System} {hits : List (Option Record)}
    {ms : List ForceOut} (hlen : batch.length = hits.length)
    (hms : ms.length = (missed batch hits).length) (j : ℕ) (c : PotentialCache) :
    p.writeBack H env ((missIndices hits done.length).zip ms) j (done ++ batch) c =
      (done ++ filled batch hits ms, p.storeAll H env ((missed batch hits).zip ms) j c) := by
  induction batch generalizing done hits ms j c with
  | nil =>
    obtain rfl := List.length_eq_zero_iff.mp hlen.symm
    simp [missIndices, missed, filled, writeBack, storeAll]
  | cons s ss ih =>
    cases hits with
    | nil => simp at hlen
    | cons hit hits =>
      have hlen' : ss.length = hits.length := by simpa using hlen
      cases hit with
      | none =>
        cases ms with
        | nil => simp [missed] at hms
        | cons m ms =>
          have hms' : ms.length = (missed ss hits).length := by simpa [missed] using hms
          have hnext := ih (done ++ [{ s with out := m }]) hlen' hms' (j + 1)
            (c.addSerialized (p.key H s.input) m s.input.nAtoms (env.kept j))
          have hmodify : (done ++ s :: ss).modify done.length (copyBack m) =
              done ++ { s with out := m } :: ss := by
            rw [List.modify_eq_take_drop, List.take_left, List.drop_left]
            rfl
          rw [missIndices_none, List.zip_cons_cons, writeBack]
          simp only [hmodify, List.getElem?_append_right (le_refl _), Nat.sub_self,
            List.getElem?_cons_zero]
          simpa [missed, filled, storeAll] using hnext
      | some hit =>
        have hms' : ms.length = (missed ss hits).length := hms
        have hnext := ih (done ++ [s]) hlen' hms' j c
        simpa [missIndices_some, missed, filled] using hnext

end Potential

end Rgpot.Cache
