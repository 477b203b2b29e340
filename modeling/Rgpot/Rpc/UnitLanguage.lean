import Rgpot.Rpc.UnitReach

/-! The strings the unit parser builds a tree from, against the infix grammar. -/
namespace Rgpot.Units

variable {K : Type} [Add K] [Sub K] [MulOneClass K] [Div K] [Zero K]

section Order

/-- One token of infix order: whether an operand is expected next, none when out of order. -/
def orderStep : Bool → Token → Option Bool
  | true, .value _ => some false
  | true, .lparen => some true
  | false, .mul => some true
  | false, .div => some true
  | false, .pow => some true
  | false, .rparen => some false
  | _, _ => none

/-- Operands and operators take turns, parentheses in the place of an operand's ends. -/
def InOrder (tokens : List Token) : Prop := tokens.foldlM orderStep true = some false

variable {atom : Text → Prop}

theorem orderStep_operator {o : Token} (h : o.IsOperator) : orderStep false o = some true := by
  rcases h with rfl | rfl | rfl <;> rfl

theorem InfixTokens.inOrder {ts : List Token} (h : InfixTokens atom ts) : InOrder ts := by
  unfold InOrder
  induction h with
  | atom _ => rfl
  | op ho _ _ ihl ihr =>
    rw [List.foldlM_append, ihl]
    simp only [Option.bind_eq_bind, Option.bind_some, List.foldlM_cons, orderStep_operator ho, ihr]
  | paren _ ih =>
    rw [List.cons_append, List.foldlM_cons]
    simp only [orderStep, Option.bind_eq_bind, Option.bind_some, List.foldlM_append, ih,
      List.foldlM_cons, List.foldlM_nil]
    rfl

theorem InfixTokens.atom_of_mem {ts : List Token} (h : InfixTokens atom ts) {v : Text}
    (hv : .value v ∈ ts) : atom v := by
  induction h with
  | atom ha =>
    cases List.mem_singleton.mp hv
    exact ha
  | op ho _ _ ihl ihr =>
    rw [List.mem_append, List.mem_cons] at hv
    rcases hv with hv | hv | hv
    · exact ihl hv
    · subst hv
      rcases ho with h | h | h <;> cases h
    · exact ihr hv
  | paren _ ih =>
    apply ih
    simpa using hv

/-- What may stand where an operand is expected: nothing, or a left part and its operator. -/
def Left (atom : Text → Prop) (l : List Token) : Prop :=
  l = [] ∨ ∃ e o, InfixTokens atom e ∧ o.IsOperator ∧ l = e ++ [o]

/-- The parts left of the parentheses still open. -/
inductive Nest (atom : Text → Prop) : ℕ → List Token → Prop
  | zero : Nest atom 0 []
  | succ {depth : ℕ} {q l : List Token} : Nest atom depth q → Left atom l →
      Nest atom (depth + 1) (q ++ l ++ [.lparen])

theorem Left.append {l e : List Token} (hl : Left atom l) (he : InfixTokens atom e) :
    InfixTokens atom (l ++ e) := by
  rcases hl with rfl | ⟨f, o, hf, ho, rfl⟩
  · exact he
  · rw [List.append_assoc]
    exact .op ho hf he

/-- One token of the yard, by what it does to the open parentheses. -/
theorem shuntToken_openParens {token : Token} {s s' : List Token × List Token}
    (h : shuntToken s token = .ok s') :
    match token with
    | .lparen => openParens s'.2 = openParens s.2 + 1
    | .rparen => openParens s'.2 + 1 = openParens s.2
    | _ => openParens s'.2 = openParens s.2 := by
  have operator : token.IsOperator → openParens s'.2 = openParens s.2 := by
    intro ho
    obtain ⟨moved, rest, hs, rfl, hmoved⟩ := shuntToken_operator_ok ho h
    have hnot : .lparen ∉ moved := by
      intro hmem
      have hlow := ho.precedence_pos.trans (hmoved _ hmem)
      simp [Token.precedence] at hlow
    have ho' : token ≠ .lparen := by
      rintro rfl
      rcases ho with h | h | h <;> cases h
    rw [hs]
    simp [openParens, List.count_eq_zero.mpr hnot, List.count_cons_of_ne ho']
  obtain ⟨output, operators⟩ := s
  cases token with
  | value v =>
    cases h
    rfl
  | lparen =>
    cases h
    simp [openParens]
  | rparen =>
    obtain ⟨moved, rfl, hnot, -⟩ := popParen_ok h
    simp [openParens, List.count_eq_zero.mpr hnot]
  | mul => exact operator (Or.inl rfl)
  | div => exact operator (Or.inr (Or.inl rfl))
  | pow => exact operator (Or.inr (Or.inr rfl))

/-- Tokens in order, as far as the yard has read them. -/
theorem nest_of_inOrder {ts : List Token} (hatom : ∀ v, .value v ∈ ts → atom v)
    {s : List Token × List Token} (hshunt : ts.foldlM shuntToken ([], []) = .ok s) {b : Bool}
    (horder : ts.foldlM orderStep true = some b) :
    ∃ q l, ts = q ++ l ∧ Nest atom (openParens s.2) q ∧
      if b then Left atom l else InfixTokens atom l := by
  induction ts using List.reverseRecOn generalizing s b with
  | nil =>
    cases hshunt
    cases horder
    exact ⟨[], [], rfl, .zero, Or.inl rfl⟩
  | append_singleton ts token ih =>
    rw [List.foldlM_append] at hshunt horder
    cases hs₀ : ts.foldlM shuntToken ([], []) with
    | error e =>
      rw [hs₀] at hshunt
      cases hshunt
    | ok s₀ =>
    cases hb₀ : ts.foldlM orderStep true with
    | none =>
      rw [hb₀] at horder
      cases horder
    | some b₀ =>
    have hstep : shuntToken s₀ token = .ok s := by
      rw [hs₀] at hshunt
      change [token].foldlM shuntToken s₀ = .ok s at hshunt
      simpa only [List.foldlM_cons, List.foldlM_nil, bind_pure] using hshunt
    have hb : orderStep b₀ token = some b := by
      simpa [hb₀, List.foldlM] using horder
    have hopen := shuntToken_openParens hstep
    obtain ⟨q, l, rfl, hq, hl⟩ := ih (fun v hv => hatom v (List.mem_append_left _ hv)) hs₀ hb₀
    cases b₀ with
    | true =>
      simp only [if_true] at hl
      cases token with
      | value v =>
        cases hb
        refine ⟨q, l ++ [.value v], by simp, ?_, ?_⟩
        · rwa [hopen]
        · exact hl.append (.atom (hatom v (by simp)))
      | lparen =>
        cases hb
        refine ⟨q ++ l ++ [.lparen], [], by simp, ?_, Or.inl rfl⟩
        rw [hopen]
        exact .succ hq hl
      | _ => cases hb
    | false =>
      simp only [Bool.false_eq_true, if_false] at hl
      have operator : ∀ o : Token, o.IsOperator → Left atom (l ++ [o]) :=
        fun o ho => Or.inr ⟨l, o, hl, ho, rfl⟩
      cases token with
      | rparen =>
        cases hb
        rw [← hopen] at hq
        generalize hdepth : openParens s.2 + 1 = depth at hq
        cases hq with
        | zero => cases hdepth
        | @succ depth q l' hq hl' =>
          obtain rfl : openParens s.2 = depth := Nat.succ.inj hdepth
          refine ⟨q, l' ++ (.lparen :: l ++ [.rparen]), by simp, hq, ?_⟩
          exact hl'.append (.paren hl)
      | mul =>
        cases hb
        exact ⟨q, l ++ [.mul], by simp, by rwa [hopen], operator _ (Or.inl rfl)⟩
      | div =>
        cases hb
        exact ⟨q, l ++ [.div], by simp, by rwa [hopen], operator _ (Or.inr (Or.inl rfl))⟩
      | pow =>
        cases hb
        exact ⟨q, l ++ [.pow], by simp, by rwa [hopen], operator _ (Or.inr (Or.inr rfl))⟩
      | _ => cases hb

/-- In order, with every parenthesis closed: an infix expression. -/
theorem infixTokens_of_inOrder {ts out : List Token} (hatom : ∀ v, .value v ∈ ts → atom v)
    (hshunt : shunting_yard ts = .ok out) (horder : InOrder ts) : InfixTokens atom ts := by
  unfold shunting_yard at hshunt
  cases hs : ts.foldlM shuntToken ([], []) with
  | error e =>
    rw [hs] at hshunt
    cases hshunt
  | ok s =>
    rw [hs] at hshunt
    obtain ⟨hnot, -⟩ := popAll_ok hshunt
    obtain ⟨q, l, rfl, hq, hl⟩ := nest_of_inOrder hatom hs horder
    have hzero : openParens s.2 = 0 := List.count_eq_zero.mpr hnot
    rw [hzero] at hq
    cases hq
    exact hl

end Order

section Operands

omit [Add K] [Sub K] [MulOneClass K] [Div K] [Zero K] in
theorem foldlM_operandStep_rpn (t : UnitExpr K) (d : ℕ) :
    t.rpn.foldlM operandStep d = some (d + 1) := by
  induction t generalizing d with
  | val _ _ => rfl
  | mul l r ihl ihr | div l r ihl ihr | pow l r ihl ihr =>
    simp only [UnitExpr.rpn, List.foldlM_append, ihl, ihr, Option.bind_eq_bind, Option.bind_some,
      List.foldlM_cons, List.foldlM_nil]
    rfl

variable [Number K]

/-- An operator that has its operands joins the last two trees of a row. -/
theorem exists_joined (node : UnitExpr K → UnitExpr K → UnitExpr K) {o : Token} (ho : o.IsOperator)
    (hrpn : ∀ l r, (node l r).rpn = l.rpn ++ r.rpn ++ [o])
    (hnode : ∀ l r : UnitExpr K, l.Known → r.Known → (node l r).Known)
    {trees : List (UnitExpr K)} {d : ℕ} (hstep : operandStep trees.length o = some d)
    (hk : ∀ t ∈ trees, t.Known) :
    ∃ trees' : List (UnitExpr K), trees'.length = d ∧
      trees.reverse.flatMap UnitExpr.rpn ++ [o] = trees'.reverse.flatMap UnitExpr.rpn ∧
      ∀ t ∈ trees', t.Known := by
  obtain ⟨hlen, hpos⟩ := (operandStep_operator ho).mp hstep
  match trees, hlen, hk with
  | [], hlen, _ => simp at hlen
  | [_], hlen, _ =>
    simp only [List.length_singleton] at hlen
    omega
  | r :: l :: trees, hlen, hk =>
    refine ⟨node l r :: trees, ?_, by simp [hrpn], ?_⟩
    · simp only [List.length_cons] at hlen ⊢
      omega
    · intro t ht
      rcases List.mem_cons.mp ht with rfl | ht
      · exact hnode l r (hk l (by simp)) (hk r (by simp))
      · exact hk t (by simp [ht])

/-- An output of known values that never runs short is a row of trees, one for each operand left. -/
theorem exists_trees {out : List Token} {d : ℕ} (hcount : operandCount out = some d)
    (hknown : ∀ v, .value v ∈ out → (leafValue v : Option (UnitValue K)) ≠ none) :
    ∃ trees : List (UnitExpr K), trees.length = d ∧ out = trees.reverse.flatMap UnitExpr.rpn ∧
      ∀ t ∈ trees, t.Known := by
  unfold operandCount at hcount
  induction out using List.reverseRecOn generalizing d with
  | nil =>
    cases hcount
    exact ⟨[], rfl, rfl, by simp⟩
  | append_singleton out token ih =>
    rw [List.foldlM_append] at hcount
    cases hd₀ : out.foldlM operandStep 0 with
    | none =>
      rw [hd₀] at hcount
      cases hcount
    | some d₀ =>
    have hstep : operandStep d₀ token = some d := by
      simpa [hd₀, List.foldlM] using hcount
    obtain ⟨trees, hlen, rfl, hk⟩ := ih hd₀ fun v hv => hknown v (List.mem_append_left _ hv)
    cases token with
    | value v =>
      obtain ⟨value, hv⟩ := Option.ne_none_iff_exists'.mp (hknown v (by simp))
      have hd : d₀ + 1 = d := by simpa [operandStep] using hstep
      refine ⟨.val value v :: trees, by simp [hlen, hd], by simp [UnitExpr.rpn], ?_⟩
      intro t ht
      rcases List.mem_cons.mp ht with rfl | ht
      · exact hv
      · exact hk t ht
    | mul =>
      subst hlen
      exact exists_joined .mul (Or.inl rfl) (fun _ _ => rfl) (fun _ _ hl hr => ⟨hl, hr⟩) hstep hk
    | div =>
      subst hlen
      exact exists_joined .div (Or.inr (Or.inl rfl)) (fun _ _ => rfl) (fun _ _ hl hr => ⟨hl, hr⟩) hstep
        hk
    | pow =>
      subst hlen
      exact exists_joined .pow (Or.inr (Or.inr rfl)) (fun _ _ => rfl) (fun _ _ hl hr => ⟨hl, hr⟩) hstep
        hk
    | lparen => rcases d₀ with _ | _ | e <;> cases hstep
    | rparen => rcases d₀ with _ | _ | e <;> cases hstep

end Operands

section Values

/-- The yard moves values and drops none. -/
theorem shuntToken_values {token : Token} {s s' : List Token × List Token}
    (h : shuntToken s token = .ok s') (v : Text) :
    .value v ∈ s'.1 ++ s'.2 ↔ .value v ∈ s.1 ++ s.2 ∨ token = .value v := by
  have operator : token.IsOperator →
      (.value v ∈ s'.1 ++ s'.2 ↔ .value v ∈ s.1 ++ s.2 ∨ token = .value v) := by
    intro ho
    obtain ⟨moved, rest, hs, rfl, -⟩ := shuntToken_operator_ok ho h
    have ho' : token ≠ .value v := by
      rintro rfl
      rcases ho with h | h | h <;> cases h
    simp [hs, ho', Ne.symm ho']
  obtain ⟨output, operators⟩ := s
  cases token with
  | value w =>
    cases h
    simp only [List.mem_append, List.mem_singleton, Token.value.injEq, eq_comm (a := v)]
    tauto
  | lparen =>
    cases h
    simp
  | rparen =>
    obtain ⟨output', operators'⟩ := s'
    obtain ⟨moved, rfl, -, rfl⟩ := popParen_ok h
    simp
  | mul => exact operator (Or.inl rfl)
  | div => exact operator (Or.inr (Or.inl rfl))
  | pow => exact operator (Or.inr (Or.inr rfl))

theorem foldlM_shuntToken_values {ts : List Token} {s s' : List Token × List Token}
    (h : ts.foldlM shuntToken s = .ok s') (v : Text) :
    .value v ∈ s'.1 ++ s'.2 ↔ .value v ∈ s.1 ++ s.2 ∨ .value v ∈ ts := by
  induction ts generalizing s with
  | nil =>
    cases h
    simp
  | cons token ts ih =>
    rw [List.foldlM_cons] at h
    cases hstep : shuntToken s token with
    | error e =>
      rw [hstep] at h
      cases h
    | ok s₁ =>
      rw [hstep] at h
      rw [ih h, shuntToken_values hstep, List.mem_cons, or_assoc, eq_comm (a := token)]

theorem shunting_yard_values {ts out : List Token} (h : shunting_yard ts = .ok out) (v : Text) :
    .value v ∈ out ↔ .value v ∈ ts := by
  unfold shunting_yard at h
  cases hs : ts.foldlM shuntToken ([], []) with
  | error e =>
    rw [hs] at h
    cases h
  | ok s =>
    rw [hs] at h
    obtain ⟨-, rfl⟩ := popAll_ok h
    rw [foldlM_shuntToken_values hs]
    simp

end Values
section Language
variable [Number K]

/-- A tree is built from exactly the well counted token strings whose values are known. -/
theorem exists_parseTree_iff (tokens : List Token) : (∃ t : UnitExpr K, parseTree tokens = .ok t) ↔
    WellCounted tokens ∧ ∀ v, .value v ∈ tokens → (leafValue v : Option (UnitValue K)) ≠ none := by
  rw [← shunting_yard_iff]
  constructor
  · rintro ⟨t, ht⟩
    obtain ⟨hk, hyard⟩ := parseTree_ok_iff.mp ht
    have known : ∀ (t : UnitExpr K) (v : Text), t.Known → .value v ∈ t.rpn →
        leafValue (K := K) v ≠ none := by
      intro t v
      induction t with
      | val value name =>
        intro hk hmem
        cases List.mem_singleton.mp hmem
        rw [show leafValue v = some value from hk]
        simp
      | mul l r ihl ihr | div l r ihl ihr | pow l r ihl ihr =>
        intro hk hmem
        simp only [UnitExpr.rpn, List.mem_append, List.mem_singleton, reduceCtorEq, or_false] at hmem
        rcases hmem with hmem | hmem
        · exact ihl hk.1 hmem
        · exact ihr hk.2 hmem
    exact ⟨⟨_, hyard, foldlM_operandStep_rpn t 0⟩,
      fun v hv => known t v hk ((shunting_yard_values hyard v).mpr hv)⟩
  · rintro ⟨⟨out, hyard, hcount⟩, hvalues⟩
    obtain ⟨trees, hlen, hout, hk⟩ := exists_trees (K := K) hcount fun v hv =>
      hvalues v ((shunting_yard_values hyard v).mp hv)
    obtain ⟨t, rfl⟩ := List.length_eq_one_iff.mp hlen
    refine ⟨t, parseTree_ok_iff.mpr ⟨hk t (by simp), ?_⟩⟩
    simpa [hout] using hyard

variable (K) in
/-- Token strings the parser takes and should not: well counted, every value a base unit or begun by
a number, and yet out of infix order or with a value that only begins with a numeral. -/
def WronglyTaken (tokens : List Token) : Prop :=
  WellCounted tokens ∧ (∀ v, .value v ∈ tokens → (leafValue v : Option (UnitValue K)) ≠ none) ∧
    (¬ InOrder tokens ∨ ∃ v, .value v ∈ tokens ∧ ¬ IsAtom K v)

variable (K) in
/-- A tree is only built from an infix expression, and any other string throws `invalid_argument`. -/
def AcceptsOnlyInfix (unit : Text) : Prop :=
  (∀ t : UnitExpr K, parseTree (tokenize unit) = .ok t → Infix (IsAtom K) (dropSpace unit)) ∧
    (¬ Infix (IsAtom K) (dropSpace unit) → ∃ what,
      (parse_unit_expression unit : Except Exn (UnitValue K)) = .error (.invalidArgument what))

theorem tokenize_ne_nil {unit : Text} (h : dropSpace unit ≠ []) : tokenize unit ≠ [] := by
  intro hnil
  rw [← tokenize_text, hnil] at h
  exact h rfl

/-- A nonblank string is handled as the grammar says unless its tokens are wrongly taken. -/
theorem acceptsOnlyInfix_iff {unit : Text} (hunit : dropSpace unit ≠ []) :
    AcceptsOnlyInfix K unit ↔ ¬ WronglyTaken K (tokenize unit) := by
  have hatom : ∀ v, IsAtom K v → IsPlain v ∧ v ≠ [] := fun v hv => hv.isPlain
  rw [AcceptsOnlyInfix, infix_dropSpace_iff hatom]
  constructor
  · rintro ⟨hbuilt, -⟩ ⟨hcounted, hknown, hwrong⟩
    obtain ⟨t, ht⟩ := (exists_parseTree_iff _).mpr ⟨hcounted, hknown⟩
    have hin := hbuilt t ht
    rcases hwrong with horder | ⟨v, hv, hnot⟩
    · exact horder hin.inOrder
    · exact hnot (hin.atom_of_mem hv)
  · intro h
    have hbuilt : ∀ t : UnitExpr K, parseTree (tokenize unit) = .ok t →
        InfixTokens (IsAtom K) (tokenize unit) := by
      intro t ht
      obtain ⟨hcounted, hknown⟩ := (exists_parseTree_iff _).mp ⟨t, ht⟩
      have hright : ¬ (¬ InOrder (tokenize unit) ∨ ∃ v, .value v ∈ tokenize unit ∧ ¬ IsAtom K v) :=
        fun hwrong => h ⟨hcounted, hknown, hwrong⟩
      push Not at hright
      exact infixTokens_of_inOrder hright.2 (parseTree_ok_iff.mp ht).2 hright.1
    refine ⟨hbuilt, fun hnot => ?_⟩
    cases ht : parseTree (K := K) (tokenize unit) with
    | ok t => exact (hnot (hbuilt t ht)).elim
    | error e =>
      obtain ⟨what, rfl⟩ := throws_parseTree _ e ht
      refine ⟨what, ?_⟩
      simp only [parse_unit_expression, if_neg (tokenize_ne_nil hunit), ht, bind, Except.bind]

/-- An operator whose left side is outside its parentheses, and the product it is taken for. -/
theorem acceptsOnlyInfix_iff_misplaced :
    ¬ AcceptsOnlyInfix ℝ "m(*s)".toList ∧ AcceptsOnlyInfix ℝ "m * s".toList := by
  have base : ∀ v ∈ [['m'], ['s']], (lookup v : Option (UnitValue ℝ)) ≠ none := by
    intro v hv
    rw [← Option.isSome_iff_ne_none]
    simp only [List.mem_cons, List.not_mem_nil, or_false] at hv
    rcases hv with rfl | rfl <;> rfl
  constructor
  · rw [acceptsOnlyInfix_iff (by decide), not_not]
    have htokens : tokenize "m(*s)".toList =
        [.value ['m'], .lparen, .mul, .value ['s'], .rparen] := by decide
    have hsup : ∀ w ∈ (tokenize "m(*s)".toList).inits, 0 < ended w → ended w < values w := by
      rw [htokens]
      decide
    refine ⟨⟨by rw [htokens]; rfl, by rw [htokens]; rfl, fun w hw =>
      hsup w ((List.mem_inits w _).mpr hw)⟩, fun v hv => ?_, Or.inl (by rw [htokens]; nofun)⟩
    have hv' : v ∈ [['m'], ['s']] := by
      rw [htokens] at hv
      simpa using hv
    obtain ⟨value, hvalue⟩ := Option.ne_none_iff_exists'.mp (base v hv')
    simp [leafValue, hvalue]
  · rw [acceptsOnlyInfix_iff (by decide)]
    have htokens : tokenize "m * s".toList = [.value ['m'], .mul, .value ['s']] := by decide
    rintro ⟨-, -, horder | ⟨v, hv, hnot⟩⟩
    · rw [htokens] at horder
      exact horder rfl
    · have hv' : v ∈ [['m'], ['s']] := by
        rw [htokens] at hv
        simpa using hv
      exact hnot (Or.inl (base v hv'))

/-- Empty parentheses before a metre. -/
def emptyParens : Text := "()m".toList

/-- Not every string a tree is built from is an infix expression. -/
theorem not_acceptsOnlyInfix : ¬ ∀ unit : Text, dropSpace unit ≠ [] → AcceptsOnlyInfix ℝ unit := by
  intro h
  obtain ⟨hbuilt, -⟩ := h emptyParens (by decide)
  have htokens : tokenize emptyParens = [.lparen, .rparen, .value ['m']] := by decide
  have hyard : shunting_yard (tokenize emptyParens) = .ok [.value ['m']] := by
    rw [htokens]
    rfl
  obtain ⟨value, hvalue⟩ : ∃ value : UnitValue ℝ, leafValue ['m'] = some value := by
    rw [← Option.isSome_iff_exists]
    rfl
  have hinfix := hbuilt (.val value ['m']) (parseTree_ok_iff.mpr ⟨hvalue, hyard⟩)
  have horder := ((infix_dropSpace_iff (fun v hv => hv.isPlain) _).mp hinfix).inOrder
  rw [htokens] at horder
  cases horder

end Language
end Rgpot.Units
