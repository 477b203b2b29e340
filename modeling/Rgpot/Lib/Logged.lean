import Rgpot.Lib.Fallible

/-! Fallible programs that log what they do; a throw keeps the log. -/

/-- How a program ended, and its log. -/
structure Logged (ε κ α : Type) where
  result : Except ε α
  log : List κ

namespace Logged
variable {ε κ α β γ : Type}

/-- Logs one entry. -/
def tell (k : κ) : Logged ε κ Unit := ⟨.ok (), [k]⟩

/-- A step that logs nothing. -/
def lift (x : Except ε α) : Logged ε κ α := ⟨x, []⟩

instance : Monad (Logged ε κ) where
  pure a := ⟨.ok a, []⟩
  bind x f :=
    match x.result with
    | .error e => ⟨.error e, x.log⟩
    | .ok a => ⟨(f a).result, x.log ++ (f a).log⟩

@[simp] theorem result_pure (a : α) : (pure a : Logged ε κ α).result = .ok a := rfl
@[simp] theorem log_pure (a : α) : (pure a : Logged ε κ α).log = [] := rfl
@[simp] theorem result_tell (k : κ) : (tell k : Logged ε κ Unit).result = .ok () := rfl
@[simp] theorem log_tell (k : κ) : (tell k : Logged ε κ Unit).log = [k] := rfl
@[simp] theorem result_lift (x : Except ε α) : (lift x : Logged ε κ α).result = x := rfl
@[simp] theorem log_lift (x : Except ε α) : (lift x : Logged ε κ α).log = [] := rfl

theorem bind_of_ok {x : Logged ε κ α} {a : α} (h : x.result = .ok a) (f : α → Logged ε κ β) :
    x >>= f = { result := (f a).result, log := x.log ++ (f a).log } := by
  change (match x.result with
    | .error e => (⟨.error e, x.log⟩ : Logged ε κ β)
    | .ok a => ⟨(f a).result, x.log ++ (f a).log⟩) = _
  rw [h]

theorem bind_of_error {x : Logged ε κ α} {e : ε} (h : x.result = .error e)
    (f : α → Logged ε κ β) : x >>= f = { result := .error e, log := x.log } := by
  change (match x.result with
    | .error e => (⟨.error e, x.log⟩ : Logged ε κ β)
    | .ok a => ⟨(f a).result, x.log ++ (f a).log⟩) = _
  rw [h]

protected theorem id_map (x : Logged ε κ α) : id <$> x = x := by
  obtain ⟨result, log⟩ := x
  cases result with
  | error e => rfl
  | ok a =>
    change (⟨.ok a, log ++ []⟩ : Logged ε κ α) = _
    rw [List.append_nil]

protected theorem bind_assoc (x : Logged ε κ α) (f : α → Logged ε κ β) (g : β → Logged ε κ γ) :
    x >>= f >>= g = x >>= fun a => f a >>= g := by
  cases hx : x.result with
  | error e => rw [bind_of_error hx, bind_of_error hx, bind_of_error rfl]
  | ok a =>
    rw [bind_of_ok hx, bind_of_ok hx]
    cases hf : (f a).result with
    | error e => rw [bind_of_error hf, bind_of_error rfl]
    | ok b => rw [bind_of_ok hf, bind_of_ok rfl, List.append_assoc]

instance : LawfulMonad (Logged ε κ) :=
  LawfulMonad.mk' _ Logged.id_map (fun _ _ => rfl) Logged.bind_assoc

theorem result_bind (x : Logged ε κ α) (f : α → Logged ε κ β) :
    (x >>= f).result = x.result >>= fun a => (f a).result := by
  cases h : x.result with
  | error e => rw [bind_of_error h]; rfl
  | ok a => rw [bind_of_ok h]; rfl

/-- What a sequence logs. -/
theorem mem_log_bind {x : Logged ε κ α} {f : α → Logged ε κ β} {k : κ} :
    k ∈ (x >>= f).log ↔ k ∈ x.log ∨ ∃ a, x.result = .ok a ∧ k ∈ (f a).log := by
  cases h : x.result with
  | error e => simp [bind_of_error h]
  | ok a => simp [bind_of_ok h]

theorem result_mapM (f : α → Logged ε κ β) (xs : List α) :
    (xs.mapM f).result = xs.mapM fun x => (f x).result := by
  induction xs with
  | nil => rfl
  | cons x xs ih =>
    rw [List.mapM_cons, List.mapM_cons, result_bind]
    congr 1
    funext y
    rw [result_bind, ih]
    rfl

/-- A loop logs nothing that no step logs. -/
theorem mem_log_mapM {f : α → Logged ε κ β} {xs : List α} {k : κ} (h : k ∈ (xs.mapM f).log) :
    ∃ x ∈ xs, k ∈ (f x).log := by
  induction xs with
  | nil => cases h
  | cons x xs ih =>
    rw [List.mapM_cons, mem_log_bind] at h
    rcases h with h | ⟨y, _, h⟩
    · exact ⟨x, List.mem_cons_self, h⟩
    · rw [mem_log_bind] at h
      rcases h with h | ⟨ys, _, h⟩
      · obtain ⟨z, hz, hk⟩ := ih h
        exact ⟨z, List.mem_cons_of_mem _ hz, hk⟩
      · cases h

/-- A step is reached when every step before it returns. -/
theorem mem_log_mapM_of_reached {f : α → Logged ε κ β} {before after : List α} {x : α} {k : κ}
    (hbefore : ∀ y ∈ before, ∃ z, (f y).result = .ok z) (hk : k ∈ (f x).log) :
    k ∈ ((before ++ x :: after).mapM f).log := by
  induction before with
  | nil =>
    rw [List.nil_append, List.mapM_cons, mem_log_bind]
    exact Or.inl hk
  | cons y before ih =>
    obtain ⟨z, hz⟩ := hbefore y List.mem_cons_self
    rw [List.cons_append, List.mapM_cons, mem_log_bind]
    right
    refine ⟨z, hz, ?_⟩
    rw [mem_log_bind]
    exact Or.inl (ih fun w hw => hbefore w (List.mem_cons_of_mem _ hw))

end Logged
