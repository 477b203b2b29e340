import Rgpot.Lib.Numerals

/-! Loops of steps that may throw. -/
namespace Fallible
variable {ε α β γ : Type}

/-- A sequence returns exactly when both of its parts do. -/
theorem bind_eq_ok {x : Except ε α} {f : α → Except ε β} {b : β} :
    (x >>= f) = .ok b ↔ ∃ a, x = .ok a ∧ f a = .ok b := by
  cases x with
  | error e => simp [bind, Except.bind]
  | ok a => simp [bind, Except.bind]

theorem map_eq_ok {x : Except ε α} {f : α → β} {b : β} :
    x.map f = .ok b ↔ ∃ a, x = .ok a ∧ f a = b := by
  cases x <;> simp [Except.map]

/-- A loop returns exactly when every step does, with the results in order. -/
theorem mapM_eq_ok_iff {f : α → Except ε β} {xs : List α} {ys : List β} :
    xs.mapM f = .ok ys ↔ List.Forall₂ (fun x y => f x = .ok y) xs ys := by
  induction xs generalizing ys with
  | nil => simp [pure, Except.pure, eq_comm]
  | cons x xs ih =>
    simp only [List.mapM_cons, bind_eq_ok, List.forall₂_cons_left_iff]
    constructor
    · rintro ⟨y, hy, zs, hzs, h⟩
      cases h
      exact ⟨y, zs, hy, ih.mp hzs, rfl⟩
    · rintro ⟨y, zs, hy, hzs, rfl⟩
      exact ⟨y, hy, zs, ih.mpr hzs, rfl⟩

theorem mapM_congr {f g : α → Except ε β} {xs : List α} (h : ∀ x ∈ xs, f x = g x) :
    xs.mapM f = xs.mapM g := by
  induction xs with
  | nil => rfl
  | cons x xs ih =>
    rw [List.mapM_cons, List.mapM_cons, h x List.mem_cons_self,
      ih fun y hy => h y (List.mem_cons_of_mem _ hy)]

theorem mapM_eq_ok {f : α → Except ε β} {g : α → β} {xs : List α}
    (h : ∀ x ∈ xs, f x = .ok (g x)) : xs.mapM f = .ok (xs.map g) := by
  rw [mapM_eq_ok_iff, List.forall₂_map_right_iff, List.forall₂_same]
  exact h

/-- A loop returns exactly when every step does. -/
theorem exists_mapM_eq_ok {f : α → Except ε β} {xs : List α} :
    (∃ ys, xs.mapM f = .ok ys) ↔ ∀ x ∈ xs, ∃ y, f x = .ok y := by
  induction xs with
  | nil => simp [pure, Except.pure]
  | cons x xs ih =>
    simp only [mapM_eq_ok_iff, List.forall₂_cons_left_iff, List.forall_mem_cons] at ih ⊢
    rw [← ih]
    constructor
    · rintro ⟨_, y, ys, hy, hys, _⟩
      exact ⟨⟨y, hy⟩, ys, hys⟩
    · rintro ⟨⟨y, hy⟩, ys, hys⟩
      exact ⟨_, y, ys, hy, hys, rfl⟩

theorem mapM_mem {f : α → Except ε β} {xs : List α} {ys : List β} (h : xs.mapM f = .ok ys)
    {y : β} (hy : y ∈ ys) : ∃ x ∈ xs, f x = .ok y := by
  induction mapM_eq_ok_iff.mp h with
  | nil => cases hy
  | @cons x z xs zs hx hxs ih =>
    rcases List.mem_cons.mp hy with rfl | hy
    · exact ⟨x, List.mem_cons_self, hx⟩
    · obtain ⟨w, hw, hfw⟩ := ih (mapM_eq_ok_iff.mpr hxs) hy
      exact ⟨w, List.mem_cons_of_mem _ hw, hfw⟩

/-- A loop that returned has fetched every item. -/
theorem mapM_ok {f : α → Except ε β} {g : α → β} (hg : ∀ x y, f x = .ok y → y = g x)
    {xs : List α} {ys : List β} (h : xs.mapM f = .ok ys) :
    ys = xs.map g ∧ ∀ x ∈ xs, f x = .ok (g x) := by
  induction mapM_eq_ok_iff.mp h with
  | nil => simp
  | @cons x y xs ys hx hxs ih =>
    obtain ⟨rfl, hall⟩ := ih (mapM_eq_ok_iff.mpr hxs)
    obtain rfl := hg x y hx
    exact ⟨rfl, List.forall_mem_cons.mpr ⟨hx, hall⟩⟩

/-- A loop whose every step returns under one condition returns under it. -/
theorem exists_foldlM_eq_ok {f : β → α → Except ε β} {b : Prop} (h : ∀ s x, (∃ t, f s x = .ok t) ↔ b)
    {xs : List α} (hne : xs ≠ []) (s : β) : (∃ t, xs.foldlM f s = .ok t) ↔ b := by
  induction xs generalizing s with
  | nil => exact absurd rfl hne
  | cons x xs ih =>
    simp only [List.foldlM_cons, bind_eq_ok]
    by_cases hlast : xs = []
    · subst hlast
      rw [← h s x]
      constructor
      · rintro ⟨t, u, hu, -⟩
        exact ⟨u, hu⟩
      · rintro ⟨u, hu⟩
        exact ⟨u, u, hu, rfl⟩
    · constructor
      · rintro ⟨t, u, -, ht⟩
        exact (ih hlast u).mp ⟨t, ht⟩
      · intro hb
        obtain ⟨u, hu⟩ := (h s x).mpr hb
        obtain ⟨t, ht⟩ := (ih hlast u).mpr hb
        exact ⟨t, u, hu, ht⟩

/-- A loop whose step fetches with `g` and folds with `f` fetches everything, then folds. -/
theorem foldlM_fetch (g : α → Except ε β) (f : γ → β → γ) (l : List α) (s : γ) :
    (l.foldlM (fun s x => do let b ← g x; return f s b) s) =
      (l.mapM g).map fun bs => bs.foldl f s := by
  induction l generalizing s with
  | nil => rfl
  | cons x l ih =>
    rw [List.foldlM_cons, List.mapM_cons]
    cases hx : g x with
    | error e => rfl
    | ok b =>
      change List.foldlM _ (f s b) l = _
      rw [ih]
      cases l.mapM g <;> rfl

/-- Whatever a step throws is of one kind. -/
def Throws (P : ε → Prop) (x : Except ε α) : Prop := ∀ e, x = .error e → P e

theorem throws_ok (P : ε → Prop) (a : α) : Throws P (.ok a : Except ε α) := by
  intro e h
  cases h

theorem throws_error {P : ε → Prop} {e : ε} (h : P e) : Throws P (.error e : Except ε α) := by
  intro e' h'
  cases h'
  exact h

theorem Throws.bind {P : ε → Prop} {x : Except ε α} {f : α → Except ε β} (hx : Throws P x)
    (hf : ∀ a, Throws P (f a)) : Throws P (x >>= f) := by
  intro e h
  cases x with
  | error e' =>
    cases h
    exact hx e rfl
  | ok a => exact hf a e h

theorem Throws.foldlM {P : ε → Prop} {f : γ → α → Except ε γ} (hf : ∀ s a, Throws P (f s a))
    (l : List α) (s : γ) : Throws P (l.foldlM f s) := by
  induction l generalizing s with
  | nil => exact throws_ok P s
  | cons a l ih =>
    rw [List.foldlM_cons]
    exact (hf s a).bind fun s' => ih s'

end Fallible
