import Mathlib.Data.Finset.Card
import Mathlib.Tactic.Common

/-! Handles to counted resources, shared by counted owners: `shared_ptr` control blocks, each with one
reference to a resource that it gives back with its last owner. -/
namespace SharedHandles

variable {B L : Type} [DecidableEq B] [DecidableEq L] (res : B → L)

/-- The owners of each handle, and the handles that each resource counts. -/
structure Shares (B L : Type) where
  uses : B → ℕ
  refs : L → ℕ

namespace Shares
variable (s : Shares B L)

/-- A new handle with its first owner. -/
def adopt (b : B) : Shares B L :=
  ⟨Function.update s.uses b 1, Function.update s.refs (res b) (s.refs (res b) + 1)⟩

def share (b : B) : Shares B L := { s with uses := Function.update s.uses b (s.uses b + 1) }

/-- An owner goes; the last one gives the resource back. -/
def release (b : B) : Shares B L :=
  { uses := Function.update s.uses b (s.uses b - 1)
    refs := if s.uses b = 1 then Function.update s.refs (res b) (s.refs (res b) - 1) else s.refs }

end Shares

/-- The counts are those of a list of owners, each with its handle. -/
structure Counts (s : Shares B L) (owners : List B) : Prop where
  uses : ∀ b, s.uses b = owners.count b
  refs : ∀ r, s.refs r = (owners.toFinset.filter (res · = r)).card

variable {res} {s : Shares B L} {owners owners' : List B} {b : B}

theorem counts_nil : Counts res ⟨fun _ => 0, fun _ => 0⟩ [] := ⟨fun _ => rfl, fun _ => rfl⟩

theorem Counts.perm (h : Counts res s owners) (hperm : owners.Perm owners') : Counts res s owners' := by
  refine ⟨fun b => (h.uses b).trans (hperm.count_eq b), fun r => ?_⟩
  rw [h.refs r, List.toFinset_eq_of_perm _ _ hperm]

/-- A resource with a handle that is owned is counted. -/
theorem Counts.held (h : Counts res s owners) (hb : b ∈ owners) : 0 < s.refs (res b) := by
  rw [h.refs, Finset.card_pos]
  exact ⟨b, Finset.mem_filter.mpr ⟨List.mem_toFinset.mpr hb, rfl⟩⟩

theorem counts_share (h : Counts res s owners) (hb : b ∈ owners) : Counts res (s.share b) (b :: owners) := by
  refine ⟨fun c => ?_, fun r => ?_⟩
  · rw [List.count_cons, ← h.uses c]
    by_cases hc : c = b
    · subst hc
      simp [Shares.share]
    · simp [Shares.share, hc, Ne.symm hc]
  · rw [List.toFinset_cons, Finset.insert_eq_of_mem (List.mem_toFinset.mpr hb)]
    exact h.refs r

theorem card_filter_insert (hb : b ∉ owners) (r : L) : ((b :: owners).toFinset.filter (res · = r)).card =
    (owners.toFinset.filter (res · = r)).card + if res b = r then 1 else 0 := by
  rw [List.toFinset_cons, Finset.filter_insert]
  by_cases hr : res b = r
  · rw [if_pos hr, if_pos hr, Finset.card_insert_of_notMem]
    exact fun hmem => hb (List.mem_toFinset.mp (Finset.mem_filter.mp hmem).1)
  · rw [if_neg hr, if_neg hr, Nat.add_zero]

theorem counts_adopt (h : Counts res s owners) (hb : b ∉ owners) :
    Counts res (s.adopt res b) (b :: owners) := by
  refine ⟨fun c => ?_, fun r => ?_⟩
  · rw [List.count_cons]
    by_cases hc : c = b
    · subst hc
      simp [Shares.adopt, List.count_eq_zero_of_not_mem hb]
    · simp [Shares.adopt, hc, Ne.symm hc, h.uses c]
  · rw [card_filter_insert hb, ← h.refs r]
    by_cases hr : r = res b
    · subst hr
      simp [Shares.adopt]
    · simp [Shares.adopt, hr, Ne.symm hr]

theorem counts_release (h : Counts res s (b :: owners)) : Counts res (s.release res b) owners := by
  have huses : s.uses b = owners.count b + 1 := by rw [h.uses, List.count_cons_self]
  refine ⟨fun c => ?_, fun r => ?_⟩
  · by_cases hc : c = b
    · subst hc
      simp [Shares.release, huses]
    · simp [Shares.release, hc, h.uses c, Ne.symm hc]
  · have hrefs := h.refs r
    by_cases hb : b ∈ owners
    · have hmore : s.uses b ≠ 1 := by
        have := List.count_pos_iff.mpr hb
        omega
      rw [List.toFinset_cons, Finset.insert_eq_of_mem (List.mem_toFinset.mpr hb)] at hrefs
      rw [← hrefs, Shares.release, if_neg hmore]
    · have hlast : s.uses b = 1 := by rw [huses, List.count_eq_zero_of_not_mem hb]
      rw [card_filter_insert hb] at hrefs
      rw [Shares.release, if_pos hlast]
      by_cases hr : r = res b
      · subst hr
        simp [hrefs]
      · rw [if_neg (Ne.symm hr), Nat.add_zero] at hrefs
        simp [hr, hrefs]

end SharedHandles
