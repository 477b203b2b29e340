import Rgpot.Rpc.UnitParser

/-! The token strings the shunting yard makes one operand of, by how far each operator reaches. -/
namespace Rgpot.Units

section Tokens

instance (t : Token) : Decidable t.IsOperator := inferInstanceAs (Decidable (_ ∨ _ ∨ _))

/-- Open parentheses after one more token; none when one closes that was not opened. -/
def parenStep : ℕ → Token → Option ℕ
  | d, .lparen => some (d + 1)
  | 0, .rparen => none
  | d + 1, .rparen => some d
  | d, _ => some d

/-- The parentheses match. -/
def Balanced (tokens : List Token) : Prop := tokens.foldlM parenStep 0 = some 0

/-- The parentheses open between an operator of precedence `p` and a place behind it, after one more
token; none when the operator's right side ends there, at an operator that binds no tighter or at
the parenthesis that closes around it. -/
def reachStep (p : ℤ) (d : ℕ) (t : Token) : Option ℕ :=
  if d = 0 ∧ t.IsOperator ∧ t.precedence ≤ p then none else parenStep d t

/-- The operators whose right side has ended. -/
def ended : List Token → ℕ
  | [] => 0
  | o :: rest =>
    (if o.IsOperator ∧ rest.foldlM (reachStep o.precedence) 0 = none then 1 else 0) + ended rest

def isValue : Token → Bool
  | .value _ => true
  | _ => false

def values (tokens : List Token) : ℕ := tokens.countP isValue

def operators (tokens : List Token) : ℕ := tokens.countP fun t => t.IsOperator

/-- Up to every place, more values than operators whose right side has ended, if there are any. -/
def Supplied (tokens : List Token) : Prop :=
  ∀ w, w <+: tokens → 0 < ended w → ended w < values w

/-- Matching parentheses, one value more than operators, and no operator ahead of its operands. -/
structure WellCounted (tokens : List Token) : Prop where
  balanced : Balanced tokens
  one_more : values tokens = operators tokens + 1
  supplied : Supplied tokens

theorem supplied_append {w : List Token} {t : Token} : Supplied (w ++ [t]) ↔
    Supplied w ∧ (0 < ended (w ++ [t]) → ended (w ++ [t]) < values (w ++ [t])) := by
  constructor
  · intro h
    exact ⟨fun v hv => h v (hv.trans (List.prefix_append w [t])), h _ List.prefix_rfl⟩
  · rintro ⟨hw, hlast⟩ v hv
    rcases List.prefix_concat_iff.mp hv with rfl | hv
    · exact hlast
    · exact hw v hv

theorem Supplied.ended_le {w : List Token} (h : Supplied w) : ended w ≤ values w := by
  have := h w List.prefix_rfl
  omega

theorem values_append (w : List Token) (t : Token) :
    values (w ++ [t]) = values w + if isValue t then 1 else 0 := by
  simp [values, List.countP_append, List.countP_singleton]

theorem operators_append (w : List Token) (t : Token) :
    operators (w ++ [t]) = operators w + if t.IsOperator then 1 else 0 := by
  simp [operators, List.countP_append, List.countP_singleton]

end Tokens

section Open

/-- The operators whose right side has not ended, the last one first, each with the parentheses open
behind it. -/
def openOperators : List Token → List (Token × ℕ)
  | [] => []
  | o :: rest => openOperators rest ++
    if o.IsOperator then ((rest.foldlM (reachStep o.precedence) 0).map (o, ·)).toList else []

theorem operators_eq (w : List Token) : operators w = ended w + (openOperators w).length := by
  induction w with
  | nil => rfl
  | cons o rest ih =>
    simp only [operators, ended, openOperators, List.countP_cons, List.length_append] at ih ⊢
    by_cases ho : o.IsOperator
    · cases hreach : rest.foldlM (reachStep o.precedence) 0 with
      | none =>
        simp [ho, ih]
        omega
      | some d =>
        simp [ho, ih]
        omega
    · simp [ho, ih]

/-- What one more token does to an open operator. -/
def reachOn (t : Token) (x : Token × ℕ) : Option (Token × ℕ) :=
  (reachStep x.1.precedence x.2 t).map (x.1, ·)

theorem openOperators_append (w : List Token) (t : Token) : openOperators (w ++ [t]) =
    (if t.IsOperator then [(t, 0)] else []) ++ (openOperators w).filterMap (reachOn t) := by
  induction w with
  | nil => by_cases ht : t.IsOperator <;> simp [openOperators, ht]
  | cons o rest ih =>
    rw [List.cons_append, openOperators, ih, openOperators, List.filterMap_append,
      List.append_assoc]
    congr 2
    by_cases ho : o.IsOperator
    · simp only [ho, if_true, List.foldlM_append, List.foldlM_cons, List.foldlM_nil]
      cases rest.foldlM (reachStep o.precedence) 0 with
      | none => rfl
      | some d => cases hd : reachStep o.precedence d t <;> simp [reachOn, hd]
    · simp [ho]

/-- The operators of a stack, each with the parentheses above it on top of `d`. -/
def annotated : List Token → ℕ → List (Token × ℕ)
  | [], _ => []
  | .lparen :: stack, d => annotated stack (d + 1)
  | x :: stack, d => (x, d) :: annotated stack d

theorem annotated_cons {o : Token} (ho : o.IsOperator) (stack : List Token) (d : ℕ) :
    annotated (o :: stack) d = (o, d) :: annotated stack d := by
  rcases ho with rfl | rfl | rfl <;> rfl

theorem annotated_append {moved : List Token} (h : ∀ x ∈ moved, x.IsOperator) (stack : List Token)
    (d : ℕ) : annotated (moved ++ stack) d = moved.map (·, d) ++ annotated stack d := by
  induction moved with
  | nil => rfl
  | cons x moved ih =>
    obtain ⟨hx, hmoved⟩ := List.forall_mem_cons.mp h
    rw [List.cons_append, annotated_cons hx, ih hmoved]
    rfl

/-- What an operator stack may hold: parentheses and operators, any operator above one that binds
less tightly or above a parenthesis. -/
structure Stacked (stack : List Token) : Prop where
  tokens : ∀ x ∈ stack, x = .lparen ∨ x.IsOperator
  chain : stack.IsChain fun x y => x = .lparen ∨ y.precedence < x.precedence

theorem Stacked.of_append {moved stack : List Token} (h : Stacked (moved ++ stack)) :
    Stacked stack :=
  ⟨fun x hx => h.tokens x (List.mem_append_right _ hx), h.chain.right_of_append⟩

theorem Stacked.tail {x : Token} {stack : List Token} (h : Stacked (x :: stack)) : Stacked stack :=
  ⟨fun y hy => h.tokens y (List.mem_cons_of_mem _ hy), h.chain.tail⟩

theorem Stacked.moved_operators {moved stack : List Token} (h : Stacked (moved ++ stack))
    (hnot : .lparen ∉ moved) : ∀ x ∈ moved, x.IsOperator := fun x hx =>
  (h.tokens x (List.mem_append_left _ hx)).resolve_left fun he => hnot (he ▸ hx)

theorem Stacked.lparen {stack : List Token} (h : Stacked stack) : Stacked (.lparen :: stack) where
  tokens := List.forall_mem_cons.mpr ⟨Or.inl rfl, h.tokens⟩
  chain := h.chain.cons fun _ _ => Or.inl rfl

theorem Stacked.operator {o : Token} (ho : o.IsOperator) {stack : List Token} (h : Stacked stack)
    (hhead : ∀ y ∈ stack.head?, y.precedence < o.precedence) : Stacked (o :: stack) where
  tokens := List.forall_mem_cons.mpr ⟨Or.inr ho, h.tokens⟩
  chain := h.chain.cons fun y hy => Or.inr (hhead y hy)

theorem annotated_succ (stack : List Token) (d : ℕ) :
    annotated stack (d + 1) = (annotated stack d).map fun x => (x.1, x.2 + 1) := by
  induction stack generalizing d with
  | nil => rfl
  | cons x stack ih => cases x <;> simp [annotated, ih]

theorem annotated_facts {stack : List Token} (h : Stacked stack) {d : ℕ} {x : Token × ℕ}
    (hx : x ∈ annotated stack d) : x.1.IsOperator ∧ d ≤ x.2 := by
  induction stack generalizing d with
  | nil => cases hx
  | cons y stack ih =>
    have hrest : Stacked stack := h.tail
    rcases h.tokens y List.mem_cons_self with rfl | hy
    · obtain ⟨hop, hle⟩ := ih hrest (show x ∈ annotated stack (d + 1) from hx)
      exact ⟨hop, by omega⟩
    · rw [annotated_cons hy] at hx
      rcases List.mem_cons.mp hx with rfl | hx
      · exact ⟨hy, le_rfl⟩
      · exact ih hrest hx

/-- The operators above every parenthesis bind less tightly the deeper they are. -/
theorem annotated_precedence {stack : List Token} (h : Stacked stack) {p : ℤ}
    (hhead : ∀ y ∈ stack.head?, y.precedence < p) {d : ℕ} {o : Token}
    (ho : (o, d) ∈ annotated stack d) : o.precedence < p := by
  induction stack generalizing p with
  | nil => cases ho
  | cons y stack ih =>
    have hrest : Stacked stack := h.tail
    rcases h.tokens y List.mem_cons_self with rfl | hy
    · have hle := (annotated_facts hrest (show (o, d) ∈ annotated stack (d + 1) from ho)).2
      simp at hle
    · rw [annotated_cons hy] at ho
      rcases List.mem_cons.mp ho with hhere | ho
      · cases hhere
        exact hhead _ rfl
      · refine ih hrest (fun z hz => ?_) ho
        have hy' : y ≠ .lparen := by
          rintro rfl
          rcases hy with h | h | h <;> cases h
        have hbelow := (List.isChain_cons.mp h.chain).1 z hz
        exact (hbelow.resolve_left hy').trans (hhead y rfl)

/-- An operator ends the ones it pops and no others. -/
theorem reachOn_operator {o : Token} (ho : o.IsOperator) {moved stack : List Token}
    (h : Stacked (moved ++ stack)) (hmoved : ∀ x ∈ moved, o.precedence ≤ x.precedence)
    (hhead : ∀ y ∈ stack.head?, y.precedence < o.precedence) (hops : ∀ x ∈ moved, x.IsOperator) :
    (annotated (moved ++ stack) 0).filterMap (reachOn o) = annotated stack 0 := by
  have hpopped : (moved.map (·, 0)).filterMap (reachOn o) = [] := by
    rw [List.filterMap_eq_nil_iff]
    intro x hx
    obtain ⟨y, hy, rfl⟩ := List.mem_map.mp hx
    simp [reachOn, reachStep, ho, hmoved y hy]
  rw [annotated_append hops, List.filterMap_append, hpopped, List.nil_append]
  refine (List.filterMap_congr (g := some) ?_).trans List.filterMap_some
  rintro ⟨x, d⟩ hx
  have hstays : ¬ (d = 0 ∧ o.IsOperator ∧ o.precedence ≤ x.precedence) := by
    rintro ⟨rfl, -, hle⟩
    exact absurd (annotated_precedence h.of_append hhead hx) (not_lt.mpr hle)
  have hparen : parenStep d o = some d := by
    rcases ho with rfl | rfl | rfl <;> cases d <;> rfl
  simp only [reachOn, reachStep, if_neg hstays, hparen, Option.map_some]

theorem reachOn_rparen {moved stack : List Token} (hops : ∀ x ∈ moved, x.IsOperator) :
    (annotated (moved ++ .lparen :: stack) 0).filterMap (reachOn .rparen) = annotated stack 0 := by
  have hpopped : (moved.map (·, 0)).filterMap (reachOn .rparen) = [] := by
    rw [List.filterMap_eq_nil_iff]
    intro x hx
    obtain ⟨y, hy, rfl⟩ := List.mem_map.mp hx
    rfl
  rw [annotated_append hops, List.filterMap_append, hpopped, List.nil_append]
  change (annotated stack 1).filterMap (reachOn .rparen) = annotated stack 0
  rw [annotated_succ, List.filterMap_map]
  refine (List.filterMap_congr (g := some) ?_).trans List.filterMap_some
  rintro ⟨x, d⟩ -
  rfl

theorem reachOn_lparen (stack : List Token) :
    (annotated stack 0).filterMap (reachOn .lparen) = annotated (.lparen :: stack) 0 := by
  change _ = annotated stack 1
  rw [annotated_succ, ← List.filterMap_eq_map]
  congr 1
  funext x
  obtain ⟨o, d⟩ := x
  cases d <;> rfl

theorem reachOn_value (stack : List Token) (v : Text) :
    (annotated stack 0).filterMap (reachOn (.value v)) = annotated stack 0 := by
  refine (List.filterMap_congr (g := some) ?_).trans List.filterMap_some
  rintro ⟨x, d⟩ -
  cases d <;> rfl

end Open

section Operands

/-- Operands on hand after one token of the output; none when an operator lacks one. -/
def operandStep : ℕ → Token → Option ℕ
  | d, .value _ => some (d + 1)
  | d + 2, .mul => some (d + 1)
  | d + 2, .div => some (d + 1)
  | d + 2, .pow => some (d + 1)
  | _, _ => none

/-- Operands on hand after a whole output. -/
def operandCount (out : List Token) : Option ℕ := out.foldlM operandStep 0

theorem operandStep_operator {o : Token} (ho : o.IsOperator) {d d' : ℕ} :
    operandStep d o = some d' ↔ d = d' + 1 ∧ 0 < d' := by
  rcases d with _ | _ | e
  · rcases ho with rfl | rfl | rfl <;> simp [operandStep]
  · rcases ho with rfl | rfl | rfl <;> simp [operandStep]
  · have hstep : operandStep (e + 2) o = some (e + 1) := by
      rcases ho with rfl | rfl | rfl <;> rfl
    rw [hstep, Option.some.injEq]
    omega

theorem operandCount_append (out : List Token) (t : Token) :
    operandCount (out ++ [t]) = (operandCount out).bind (operandStep · t) := by
  unfold operandCount
  rw [List.foldlM_append]
  cases out.foldlM operandStep 0 with
  | none => rfl
  | some d => exact Option.bind_some d (operandStep · t) ▸ by simp

theorem operandCount_append_operators {moved : List Token} (h : ∀ x ∈ moved, x.IsOperator)
    (out : List Token) (d : ℕ) : operandCount (out ++ moved) = some d ↔
      operandCount out = some (d + moved.length) ∧ (moved ≠ [] → 0 < d) := by
  induction moved generalizing out with
  | nil => simp
  | cons o moved ih =>
    obtain ⟨ho, hmoved⟩ := List.forall_mem_cons.mp h
    rw [List.append_cons, ih hmoved, operandCount_append, Option.bind_eq_some_iff]
    simp only [operandStep_operator ho, List.length_cons]
    constructor
    · rintro ⟨⟨e, he, rfl, hpos⟩, hrest⟩
      refine ⟨he, fun _ => ?_⟩
      cases moved with
      | nil => simpa using hpos
      | cons x moved => exact hrest (by simp)
    · rintro ⟨hout, hpos⟩
      have hd := hpos (by simp)
      exact ⟨⟨_, hout, rfl, by omega⟩, fun _ => hd⟩

end Operands

section Yard

/-- Open parentheses on the operator stack. -/
def openParens (operators : List Token) : ℕ := operators.count .lparen

/-- What the yard holds after the tokens `w`. -/
structure Yard (w : List Token) (s : List Token × List Token) : Prop where
  stacked : Stacked s.2
  parens : w.foldlM parenStep 0 = some (openParens s.2)
  reach : openOperators w = annotated s.2 0
  count : ∀ d, operandCount s.1 = some d ↔ Supplied w ∧ values w = ended w + d

theorem yard_nil : Yard [] ([], []) where
  stacked := ⟨by simp, .nil⟩
  parens := rfl
  reach := rfl
  count d := by
    have hnil : Supplied [] := fun w hw hpos => by
      rw [List.prefix_nil.mp hw] at hpos
      cases hpos
    simp [operandCount, hnil, values, ended, eq_comm]

variable {w : List Token} {s : List Token × List Token} {t : Token}

/-- The operators a token ends are those it moves to the output. -/
theorem Yard.ended_append (h : Yard w s) (moved stack : List Token)
    (hreach : openOperators (w ++ [t]) = annotated stack 0)
    (hlength : (annotated s.2 0).length + (if t.IsOperator then 1 else 0) =
      (annotated stack 0).length + moved.length) : ended (w ++ [t]) = ended w + moved.length := by
  have hbefore := operators_eq w
  have hafter := operators_eq (w ++ [t])
  rw [operators_append, hreach] at hafter
  rw [h.reach] at hbefore
  omega

/-- Operators moved to the output take their operands there. -/
theorem Yard.count_append (h : Yard w s) (moved : List Token) (hops : ∀ x ∈ moved, x.IsOperator)
    (hvalue : isValue t = false) (hended : ended (w ++ [t]) = ended w + moved.length) (d : ℕ) :
    operandCount (s.1 ++ moved) = some d ↔
      Supplied (w ++ [t]) ∧ values (w ++ [t]) = ended (w ++ [t]) + d := by
  have hmoved : moved ≠ [] ↔ 0 < moved.length := List.length_pos_iff.symm
  rw [operandCount_append_operators hops, h.count, supplied_append, values_append, hvalue, hended,
    hmoved]
  simp only [Bool.false_eq_true, if_false, add_zero]
  constructor
  · rintro ⟨⟨hsup, hval⟩, hpos⟩
    have hlast := hsup w List.prefix_rfl
    exact ⟨⟨hsup, by omega⟩, by omega⟩
  · rintro ⟨⟨hsup, hlast⟩, hval⟩
    exact ⟨⟨hsup, by omega⟩, by omega⟩

theorem parens_append (h : w.foldlM parenStep 0 = some (openParens s.2)) :
    (w ++ [t]).foldlM parenStep 0 = parenStep (openParens s.2) t := by
  rw [List.foldlM_append, h]
  simp

theorem Yard.value (h : Yard w s) (v : Text) :
    Yard (w ++ [.value v]) (s.1 ++ [.value v], s.2) where
  stacked := h.stacked
  parens := by
    rw [parens_append h.parens]
    cases openParens s.2 <;> rfl
  reach := by
    rw [openOperators_append, h.reach, reachOn_value]
    rfl
  count d := by
    have hreach : openOperators (w ++ [.value v]) = annotated s.2 0 := by
      rw [openOperators_append, h.reach, reachOn_value]
      rfl
    have hended := h.ended_append [] s.2 hreach rfl
    rw [operandCount_append, Option.bind_eq_some_iff, supplied_append, values_append, hended]
    simp only [h.count, operandStep, Option.some.injEq, isValue, if_true, List.length_nil, add_zero]
    constructor
    · rintro ⟨e, ⟨hsup, hval⟩, rfl⟩
      have hlast := hsup.ended_le
      exact ⟨⟨hsup, by omega⟩, by omega⟩
    · rintro ⟨⟨hsup, -⟩, hval⟩
      have hlast := hsup.ended_le
      exact ⟨d - 1, ⟨hsup, by omega⟩, by omega⟩

theorem Yard.lparen (h : Yard w s) : Yard (w ++ [.lparen]) (s.1, .lparen :: s.2) where
  stacked := h.stacked.lparen
  parens := by
    rw [parens_append h.parens]
    simp [openParens, parenStep]
  reach := by
    rw [openOperators_append, h.reach, reachOn_lparen]
    rfl
  count d := by
    have hreach : openOperators (w ++ [.lparen]) = annotated (.lparen :: s.2) 0 := by
      rw [openOperators_append, h.reach, reachOn_lparen]
      rfl
    have hlength : (annotated s.2 0).length = (annotated (.lparen :: s.2) 0).length := by
      change _ = (annotated s.2 1).length
      rw [annotated_succ, List.length_map]
    have hended := h.ended_append [] (.lparen :: s.2) hreach hlength
    simpa using h.count_append [] (by simp) rfl hended d

theorem Yard.rparen (h : Yard w s) {moved stack : List Token} (hs : s.2 = moved ++ .lparen :: stack)
    (hnot : .lparen ∉ moved) : Yard (w ++ [.rparen]) (s.1 ++ moved, stack) := by
  have hstacked := h.stacked
  rw [hs] at hstacked
  have hops := hstacked.moved_operators hnot
  have hreach : openOperators (w ++ [.rparen]) = annotated stack 0 := by
    rw [openOperators_append, h.reach, hs, reachOn_rparen hops]
    rfl
  have hlength : (annotated s.2 0).length = (annotated stack 0).length + moved.length := by
    rw [hs, annotated_append hops]
    change (_ ++ annotated stack 1).length = _
    rw [annotated_succ, List.length_append, List.length_map, List.length_map, Nat.add_comm]
  have hended := h.ended_append moved stack hreach hlength
  refine ⟨hstacked.of_append.tail, ?_, hreach,
    h.count_append moved hops rfl hended⟩
  rw [parens_append h.parens, hs]
  simp [openParens, List.count_eq_zero.mpr hnot, parenStep]

theorem Yard.operator (h : Yard w s) (ho : t.IsOperator) {moved stack : List Token}
    (hs : s.2 = moved ++ stack) (hmoved : ∀ x ∈ moved, t.precedence ≤ x.precedence)
    (hhead : ∀ y ∈ stack.head?, y.precedence < t.precedence) :
    Yard (w ++ [t]) (s.1 ++ moved, t :: stack) := by
  have hstacked := h.stacked
  rw [hs] at hstacked
  have hnot : .lparen ∉ moved := fun hmem => by
    have hlow := ho.precedence_pos.trans (hmoved _ hmem)
    simp [Token.precedence] at hlow
  have hops := hstacked.moved_operators hnot
  have hreach : openOperators (w ++ [t]) = annotated (t :: stack) 0 := by
    rw [openOperators_append, h.reach, hs, reachOn_operator ho hstacked hmoved hhead hops,
      annotated_cons ho, if_pos ho]
    rfl
  have hlength : (annotated s.2 0).length + (if t.IsOperator then 1 else 0) =
      (annotated (t :: stack) 0).length + moved.length := by
    rw [hs, annotated_append hops, annotated_cons ho, if_pos ho, List.length_append,
      List.length_map, List.length_cons]
    omega
  have hvalue : isValue t = false := by rcases ho with rfl | rfl | rfl <;> rfl
  have hended := h.ended_append moved (t :: stack) hreach hlength
  refine ⟨hstacked.of_append.operator ho hhead, ?_, hreach, h.count_append moved hops hvalue hended⟩
  have hparen : parenStep (openParens s.2) t = some (openParens s.2) := by
    rcases ho with rfl | rfl | rfl <;> cases openParens s.2 <;> rfl
  have hne : t ≠ .lparen := by
    rintro rfl
    rcases ho with h | h | h <;> cases h
  rw [parens_append h.parens, hparen, hs]
  simp [openParens, List.count_eq_zero.mpr hnot, List.count_cons_of_ne hne]

theorem popParen_of_not_mem {stack : List Token} (h : .lparen ∉ stack) (output : List Token) :
    popParen output stack = .error unbalanced := by
  induction stack generalizing output with
  | nil => rfl
  | cons x stack ih =>
    rw [List.mem_cons, not_or] at h
    rw [popParen.eq_3 _ _ _ (by simpa using Ne.symm h.1), ih h.2]

/-- One token of the yard; it refuses a parenthesis that closes and was not opened. -/
theorem Yard.step (h : Yard w s) (t : Token) :
    (∃ s', shuntToken s t = .ok s' ∧ Yard (w ++ [t]) s') ∨
      shuntToken s t = .error unbalanced ∧ (w ++ [t]).foldlM parenStep 0 = none := by
  have operator : t.IsOperator → ∃ s', shuntToken s t = .ok s' ∧ Yard (w ++ [t]) s' := by
    intro ho
    obtain ⟨moved, rest, hs, hpop, hmoved, hhead⟩ := popWhile_split t.precedence s.1 s.2
    refine ⟨(s.1 ++ moved, t :: rest), ?_, h.operator ho hs hmoved hhead⟩
    rcases ho with rfl | rfl | rfl <;> simp only [shuntToken, hpop]
  cases t with
  | value v => exact Or.inl ⟨_, rfl, h.value v⟩
  | lparen => exact Or.inl ⟨_, rfl, h.lparen⟩
  | rparen =>
    by_cases hmem : .lparen ∈ s.2
    · obtain ⟨moved, stack, hs, hnot⟩ := List.eq_append_cons_of_mem hmem
      refine Or.inl ⟨_, ?_, h.rparen hs hnot⟩
      change popParen s.1 s.2 = _
      rw [hs, popParen_append hnot]
    · refine Or.inr ⟨popParen_of_not_mem hmem s.1, ?_⟩
      have hzero : openParens s.2 = 0 := List.count_eq_zero.mpr hmem
      rw [parens_append h.parens, hzero]
      rfl
  | mul => exact Or.inl (operator (Or.inl rfl))
  | div => exact Or.inl (operator (Or.inr (Or.inl rfl)))
  | pow => exact Or.inl (operator (Or.inr (Or.inr rfl)))

/-- A run of the yard: it stops at the first parenthesis that closes and was not opened. -/
theorem yard_run (w : List Token) : (∃ s, w.foldlM shuntToken ([], []) = .ok s ∧ Yard w s) ∨
    (w.foldlM shuntToken ([], []) = .error unbalanced ∧ w.foldlM parenStep 0 = none) := by
  induction w using List.reverseRecOn with
  | nil => exact Or.inl ⟨_, rfl, yard_nil⟩
  | append_singleton w t ih =>
    rcases ih with ⟨s, hs, hyard⟩ | ⟨hs, hnone⟩
    · have hrun : (w ++ [t]).foldlM shuntToken ([], []) = shuntToken s t := by
        rw [List.foldlM_append, hs]
        change [t].foldlM shuntToken s = _
        simp only [List.foldlM_cons, List.foldlM_nil, bind_pure]
      rw [hrun]
      exact hyard.step t
    · refine Or.inr ⟨?_, ?_⟩
      · rw [List.foldlM_append, hs]
        rfl
      · rw [List.foldlM_append, hnone]
        rfl

/-- The yard makes one operand of exactly the well counted token strings. -/
theorem shunting_yard_iff (tokens : List Token) :
    (∃ out, shunting_yard tokens = .ok out ∧ operandCount out = some 1) ↔ WellCounted tokens := by
  unfold shunting_yard
  rcases yard_run tokens with ⟨s, hs, hyard⟩ | ⟨hs, hnone⟩
  · have hparens : .lparen ∉ s.2 ↔ Balanced tokens := by
      rw [Balanced, hyard.parens, Option.some.injEq, openParens, List.count_eq_zero]
    rw [hs]
    change (∃ out, popAll s.1 s.2 = .ok out ∧ operandCount out = some 1) ↔ _
    -- what is left on the stack ends with the string
    have hcounts : .lparen ∉ s.2 → (operandCount (s.1 ++ s.2) = some 1 ↔
        Supplied tokens ∧ values tokens = operators tokens + 1) := by
      intro hnot
      have hstack := hyard.stacked
      rw [← List.append_nil s.2] at hstack
      have hops := hstack.moved_operators hnot
      have hlength := operators_eq tokens
      rw [hyard.reach, ← List.append_nil s.2, annotated_append hops, annotated, List.append_nil,
        List.length_map] at hlength
      rw [operandCount_append_operators hops, hyard.count, hlength]
      simp only [zero_lt_one, implies_true, and_true]
      constructor
      · rintro ⟨hsup, hval⟩
        exact ⟨hsup, by omega⟩
      · rintro ⟨hsup, hval⟩
        exact ⟨hsup, by omega⟩
    constructor
    · rintro ⟨out, hout, hone⟩
      obtain ⟨hnot, rfl⟩ := popAll_ok hout
      obtain ⟨hsup, hval⟩ := (hcounts hnot).mp hone
      exact ⟨hparens.mp hnot, hval, hsup⟩
    · rintro ⟨hbal, hval, hsup⟩
      have hnot := hparens.mpr hbal
      have hstack := hyard.stacked
      rw [← List.append_nil s.2] at hstack
      exact ⟨_, popAll_of_operators (hstack.moved_operators hnot) s.1,
        (hcounts hnot).mpr ⟨hsup, hval⟩⟩
  · rw [hs]
    constructor
    · rintro ⟨out, hout, -⟩
      cases hout
    · rintro ⟨hbal, -, -⟩
      rw [Balanced, hnone] at hbal
      cases hbal

end Yard

end Rgpot.Units
