import Mathlib.Data.List.Basic
import Mathlib.Logic.Function.Iterate
import Mathlib.Tactic.Common

/-! Nodes that keep the links of a doubly linked list in themselves. -/
namespace LinkedNodes

structure Links (α : Type) where
  head : Option α
  prev : α → Option α
  next : α → Option α

variable {α : Type} [DecidableEq α]

namespace Links
variable (l : Links α)

def setPrev (a : α) (p : Option α) : Links α := { l with prev := Function.update l.prev a p }
def setNext (a : α) (n : Option α) : Links α := { l with next := Function.update l.next a n }

/-- The node behind `a`, if there is one, gets `p` for the node before it. -/
def setPrevOfNext (a : α) (p : Option α) : Links α :=
  match l.next a with
  | none => l
  | some n => l.setPrev n p

def setNextOfPrev (a : α) (n : Option α) : Links α :=
  match l.prev a with
  | none => l
  | some p => l.setNext p n

def pushFront (a : α) : Links α :=
  let linked := (l.setPrev a none).setNext a l.head
  { linked with head := some a }.setPrevOfNext a (some a)

def unlink (a : α) : Links α :=
  let before := l.setNextOfPrev a (l.next a)
  let linked := before.setPrevOfNext a (before.prev a)
  if linked.head = some a then { linked with head := linked.next a } else linked

/-- The links of one node, overwritten with those of another. -/
def copyLinks (a b : α) : Links α := (l.setPrev a (l.prev b)).setNext a (l.next b)

end Links

/-- The links are those of a list. -/
structure Chained (l : Links α) (as : List α) : Prop where
  nodup : as.Nodup
  head : l.head = as.head?
  links : ∀ front a back, as = front ++ a :: back → l.prev a = front.getLast? ∧ l.next a = back.head?

variable {l : Links α} {as front back : List α} {a b : α}

section Links
variable (l)

theorem next_pushFront (x : α) : (l.pushFront a).next x = if x = a then l.head else l.next x := by
  simp only [Links.pushFront, Links.setPrevOfNext, Links.setNext, Links.setPrev, Function.update_self]
  cases l.head <;> exact Function.update_apply _ _ _ _

theorem prev_pushFront (x : α) :
    (l.pushFront a).prev x = if l.head = some x then some a else if x = a then none else l.prev x := by
  simp only [Links.pushFront, Links.setPrevOfNext, Links.setNext, Links.setPrev, Function.update_self]
  cases l.head with
  | none => simp [Function.update_apply]
  | some h => simp [Function.update_apply, eq_comm]

theorem head_pushFront : (l.pushFront a).head = some a := by
  simp only [Links.pushFront, Links.setPrevOfNext, Links.setNext, Links.setPrev, Function.update_self]
  cases l.head <;> rfl

variable {l}

/-- What the neighbours of `a` are left with. -/
theorem unlink_links (hprev : l.prev a ≠ some a) : (l.unlink a).head = (if l.head = some a then l.next a else l.head) ∧
    (∀ x, (l.unlink a).next x = if l.prev a = some x then l.next a else l.next x) ∧
    ∀ x, (l.unlink a).prev x = if l.next a = some x then l.prev a else l.prev x := by
  cases hp : l.prev a with
  | none =>
    cases hn : l.next a with
    | none =>
      by_cases hhead : l.head = some a <;>
        simp [Links.unlink, Links.setNextOfPrev, Links.setPrevOfNext, hp, hn, hhead]
    | some n =>
      by_cases hhead : l.head = some a <;>
        simp [Links.unlink, Links.setNextOfPrev, Links.setPrevOfNext, Links.setPrev, hp, hn, hhead,
          Function.update_apply, eq_comm]
  | some p =>
    have hpa : a ≠ p := fun h => hprev (h ▸ hp)
    cases hn : l.next a with
    | none =>
      by_cases hhead : l.head = some a <;>
        simp [Links.unlink, Links.setNextOfPrev, Links.setPrevOfNext, Links.setNext, hp, hn, hhead,
          Function.update_apply, eq_comm, hpa]
    | some n =>
      by_cases hhead : l.head = some a <;>
        simp [Links.unlink, Links.setNextOfPrev, Links.setPrevOfNext, Links.setNext, Links.setPrev, hp, hn, hhead,
          Function.update_apply, eq_comm, hpa]

end Links

omit [DecidableEq α] in
theorem chained_nil (prev next : α → Option α) : Chained ⟨none, prev, next⟩ [] :=
  ⟨List.nodup_nil, rfl, fun _ _ _ h => absurd h.symm (by simp)⟩

omit [DecidableEq α] in
/-- Where a node of a cut list stands. -/
theorem mem_cut {front' back' : List α} {x : α} (h : front ++ back = front' ++ x :: back') :
    (∃ mid, front = front' ++ x :: mid ∧ back' = mid ++ back) ∨
      ∃ mid, front' = front ++ mid ∧ back = mid ++ x :: back' := by
  rcases List.append_eq_append_iff.mp h with ⟨mid, hfront, hback⟩ | ⟨mid, hfront, hback⟩
  · exact .inr ⟨mid, hfront, hback⟩
  · cases mid with
    | nil => exact .inr ⟨[], by simpa using hfront.symm, by simpa using hback.symm⟩
    | cons y mid =>
      obtain ⟨rfl, hrest⟩ := List.cons.inj hback
      exact .inl ⟨mid, hfront, hrest⟩

omit [DecidableEq α] in
theorem not_mem_cut (h : (front ++ a :: back).Nodup) : a ∉ front ∧ a ∉ back := by
  rw [List.nodup_append, List.nodup_cons] at h
  obtain ⟨-, ⟨hback, -⟩, hne⟩ := h
  exact ⟨fun hfront => hne a hfront a List.mem_cons_self rfl, hback⟩

/-- A new node goes to the front. -/
theorem chained_pushFront (h : Chained l as) (ha : a ∉ as) : Chained (l.pushFront a) (a :: as) := by
  refine ⟨List.nodup_cons.mpr ⟨ha, h.nodup⟩, head_pushFront l, fun front x back hcut => ?_⟩
  rw [next_pushFront, prev_pushFront, h.head]
  cases front with
  | nil =>
    obtain ⟨rfl, rfl⟩ := List.cons.inj hcut
    have hne : as.head? ≠ some a := fun hhead => ha (List.mem_of_head? hhead)
    simp [hne]
  | cons y front =>
    obtain ⟨rfl, rfl⟩ := List.cons.inj hcut
    obtain ⟨hprev, hnext⟩ := h.links front x back rfl
    have hx : x ≠ a := fun hxa => ha (by simp [hxa])
    rw [if_neg hx, if_neg hx, hprev, hnext]
    refine ⟨?_, rfl⟩
    cases front with
    | nil => simp
    | cons z front =>
      obtain ⟨hnot, -⟩ := not_mem_cut h.nodup
      have hz : z ≠ x := fun hzx => hnot (by simp [hzx])
      simp [hz]

/-- A node is taken out wherever it stands. -/
theorem chained_unlink (h : Chained l as) (ha : a ∈ as) : Chained (l.unlink a) (as.erase a) := by
  obtain ⟨front, back, rfl⟩ := List.append_of_mem ha
  obtain ⟨hprev, hnext⟩ := h.links front a back rfl
  obtain ⟨hfront, hback⟩ := not_mem_cut h.nodup
  have herase : (front ++ a :: back).erase a = front ++ back := by
    rw [List.erase_append_right _ hfront, List.erase_cons_head]
  have hself : l.prev a ≠ some a := by
    rw [hprev]
    exact fun hlast => hfront (List.mem_of_getLast? hlast)
  obtain ⟨hhead', hnext', hprev'⟩ := unlink_links hself
  have hnodup := h.nodup.erase a
  rw [herase] at hnodup ⊢
  refine ⟨hnodup, ?_, fun front' x back' hcut => ?_⟩
  · rw [hhead', h.head, hnext]
    cases front with
    | nil => simp
    | cons y front =>
      have hy : y ≠ a := fun hya => hfront (by simp [hya])
      simp [hy]
  · rw [hnext', hprev', hprev, hnext]
    obtain ⟨hxfront, hxback⟩ := not_mem_cut (hcut ▸ hnodup)
    rcases mem_cut hcut with ⟨mid, rfl, rfl⟩ | ⟨mid, rfl, rfl⟩
    -- `x` stands before `a`
    · obtain ⟨hpx, hnx⟩ := h.links front' x (mid ++ a :: back) (by simp)
      have hfar : back.head? ≠ some x := fun hhead =>
        hxback (List.mem_append_right _ (List.mem_of_head? hhead))
      rw [if_neg hfar, hpx, hnx]
      refine ⟨rfl, ?_⟩
      cases mid with
      | nil => simp
      | cons y mid =>
        have hlast : (front' ++ x :: y :: mid).getLast? ≠ some x := by
          rw [List.getLast?_append_cons, List.getLast?_cons_cons]
          exact fun hlast => hxback (List.mem_append_left _ (List.mem_of_getLast? hlast))
        rw [if_neg hlast]
        rfl
    -- `x` stands behind `a`
    · obtain ⟨hpx, hnx⟩ := h.links (front ++ a :: mid) x back' (by simp)
      have hfar : front.getLast? ≠ some x := fun hlast =>
        hxfront (List.mem_append_left _ (List.mem_of_getLast? hlast))
      rw [if_neg hfar, hpx, hnx]
      refine ⟨?_, rfl⟩
      cases mid with
      | nil => simp
      | cons y mid =>
        have hy : y ≠ x := fun hyx => hxfront (by simp [hyx])
        simp [hy]

omit [DecidableEq α] in
/-- A walk from the head meets the nodes in the order of the list. -/
theorem Chained.walk (h : Chained l as) (i : ℕ) : (fun o => o.bind l.next)^[i] l.head = as[i]? := by
  induction i with
  | zero => rw [Function.iterate_zero, id, h.head, List.head?_eq_getElem?]
  | succ i ih =>
    rw [Function.iterate_succ_apply', ih]
    by_cases hi : i < as.length
    · have hcut : as = as.take i ++ as[i] :: as.drop (i + 1) := by
        rw [List.getElem_cons_drop, List.take_append_drop]
      obtain ⟨-, hnext⟩ := h.links _ _ _ hcut
      rw [List.getElem?_eq_getElem hi, Option.bind_some, hnext, List.head?_drop]
    · rw [List.getElem?_eq_none (by omega), List.getElem?_eq_none (by omega), Option.bind_none]

omit [DecidableEq α] in
/-- Two nodes never share the node behind them. -/
theorem Chained.eq_of_next (h : Chained l as) (ha : a ∈ as) (hb : b ∈ as) (hnext : l.next a = l.next b) :
    a = b := by
  have hbehind : ∀ x ∈ as, (l.next x).elim (as.getLast?) l.prev = some x := by
    intro x hx
    obtain ⟨front, back, rfl⟩ := List.append_of_mem hx
    obtain ⟨-, hx⟩ := h.links front x back rfl
    rw [hx]
    cases back with
    | nil => simp
    | cons y back =>
      obtain ⟨hy, -⟩ := h.links (front ++ [x]) y back (by simp)
      simpa using hy
  exact Option.some.inj ((hbehind a ha).symm.trans (hnext ▸ hbehind b hb))

/-- Copied links leave a list only where a node copies its own. -/
theorem chained_copyLinks_iff (h : Chained l as) (ha : a ∈ as) (hb : b ∈ as) :
    (∃ bs, bs.Perm as ∧ Chained (l.copyLinks a b) bs) ↔ a = b := by
  constructor
  · rintro ⟨bs, hperm, hbs⟩
    refine hbs.eq_of_next (hperm.mem_iff.mpr ha) (hperm.mem_iff.mpr hb) ?_
    by_cases hab : b = a <;> simp [Links.copyLinks, Links.setNext, Links.setPrev, hab]
  · rintro rfl
    have hcopy : l.copyLinks a a = l := by
      simp [Links.copyLinks, Links.setNext, Links.setPrev]
    refine ⟨as, List.Perm.refl as, ?_⟩
    rw [hcopy]
    exact h

end LinkedNodes
