import Rgpot.Rpc.UnitGrammar
import Rgpot.Lib.Fallible

/-! The shunting yard and the reader of its output: what they accept and what they build. -/
namespace Rgpot.Units
open Fallible

variable {K : Type} [Add K] [Sub K] [MulOneClass K] [Div K] [Zero K]

section Stacks

/-- The operators `popWhile` moves, and the ones it leaves. -/
theorem popWhile_split (p : ℤ) (output operators : List Token) :
    ∃ moved rest, operators = moved ++ rest ∧
      popWhile p output operators = (output ++ moved, rest) ∧
      (∀ t ∈ moved, p ≤ t.precedence) ∧ ∀ t ∈ rest.head?, t.precedence < p := by
  induction operators generalizing output with
  | nil => exact ⟨[], [], rfl, by simp [popWhile], by simp, by simp⟩
  | cons top operators ih =>
    by_cases h : p ≤ top.precedence
    · obtain ⟨moved, rest, rfl, hpop, hmoved, hrest⟩ := ih (output ++ [top])
      refine ⟨top :: moved, rest, rfl, ?_, ?_, hrest⟩
      · rw [popWhile, if_pos h, hpop, List.append_assoc, List.singleton_append]
      · intro t ht
        rcases List.mem_cons.mp ht with rfl | ht
        · exact h
        · exact hmoved t ht
    · refine ⟨[], top :: operators, rfl, ?_, by simp, ?_⟩
      · rw [popWhile, if_neg h, List.append_nil]
      · intro t ht
        obtain rfl : top = t := by simpa using ht
        exact not_le.mp h

theorem popWhile_append {p : ℤ} {moved rest : List Token} (hmoved : ∀ t ∈ moved, p ≤ t.precedence)
    (hrest : ∀ t ∈ rest.head?, t.precedence < p) (output : List Token) :
    popWhile p output (moved ++ rest) = (output ++ moved, rest) := by
  induction moved generalizing output with
  | nil =>
    cases rest with
    | nil => simp [popWhile]
    | cons top rest =>
      have htop := hrest top rfl
      rw [List.nil_append, popWhile, if_neg (not_le.mpr htop), List.append_nil]
  | cons top moved ih =>
    rw [List.cons_append, popWhile, if_pos (hmoved top List.mem_cons_self),
      ih fun t ht => hmoved t (List.mem_cons_of_mem _ ht), List.append_assoc,
      List.singleton_append]

theorem popParen_ok {output operators output' operators' : List Token}
    (h : popParen output operators = .ok (output', operators')) :
    ∃ moved, operators = moved ++ .lparen :: operators' ∧ .lparen ∉ moved ∧
      output' = output ++ moved := by
  induction operators generalizing output with
  | nil => cases h
  | cons top operators ih =>
    by_cases htop : top = .lparen
    · subst htop
      cases h
      exact ⟨[], rfl, by simp, by simp⟩
    · rw [popParen.eq_3 _ _ _ (by simpa using htop)] at h
      obtain ⟨moved, rfl, hmoved, rfl⟩ := ih h
      refine ⟨top :: moved, rfl, ?_, by simp⟩
      intro hmem
      rcases List.mem_cons.mp hmem with he | hmem
      · exact htop he.symm
      · exact hmoved hmem

theorem popParen_append {moved : List Token} (h : .lparen ∉ moved) (output operators : List Token) :
    popParen output (moved ++ .lparen :: operators) = .ok (output ++ moved, operators) := by
  induction moved generalizing output with
  | nil => simp [popParen]
  | cons top moved ih =>
    rw [List.mem_cons, not_or] at h
    rw [List.cons_append, popParen.eq_3 _ _ _ (by simpa using Ne.symm h.1), ih h.2,
      List.append_assoc, List.singleton_append]

theorem popAll_ok {output operators output' : List Token}
    (h : popAll output operators = .ok output') :
    .lparen ∉ operators ∧ output' = output ++ operators := by
  induction operators generalizing output with
  | nil =>
    cases h
    simp
  | cons top operators ih =>
    cases top with
    | lparen => cases h
    | rparen => cases h
    | mul | div | pow | value _ =>
      obtain ⟨hnot, rfl⟩ := ih h
      exact ⟨by simp [hnot], by simp⟩

theorem popAll_of_operators {operators : List Token} (h : ∀ t ∈ operators, t.IsOperator)
    (output : List Token) : popAll output operators = .ok (output ++ operators) := by
  induction operators generalizing output with
  | nil => simp [popAll]
  | cons top operators ih =>
    have hrest := ih (fun t ht => h t (List.mem_cons_of_mem _ ht)) (output ++ [top])
    rw [List.append_assoc, List.singleton_append] at hrest
    rcases h top List.mem_cons_self with rfl | rfl | rfl <;> exact hrest

theorem Token.IsOperator.precedence_pos {t : Token} (h : t.IsOperator) : 10 ≤ t.precedence := by
  rcases h with rfl | rfl | rfl <;> decide

/-- An operator moves some operators to the output and goes on top of the others. -/
theorem shuntToken_operator_ok {o : Token} (ho : o.IsOperator) {s s' : List Token × List Token}
    (h : shuntToken s o = .ok s') : ∃ moved rest, s.2 = moved ++ rest ∧
      s' = (s.1 ++ moved, o :: rest) ∧ ∀ t ∈ moved, o.precedence ≤ t.precedence := by
  obtain ⟨output, operators⟩ := s
  obtain ⟨moved, rest, rfl, hpop, hmoved, -⟩ := popWhile_split o.precedence output operators
  refine ⟨moved, rest, rfl, ?_, hmoved⟩
  rcases ho with rfl | rfl | rfl <;>
    · simp only [shuntToken, hpop] at h
      exact (Except.ok.inj h).symm

end Stacks

section Reader
variable [Number K]

namespace UnitExpr

/-- A tree in reversed Polish order. -/
def rpn : UnitExpr K → List Token
  | val _ name => [.value name]
  | mul lhs rhs => lhs.rpn ++ rhs.rpn ++ [.mul]
  | div lhs rhs => lhs.rpn ++ rhs.rpn ++ [.div]
  | pow base exponent => base.rpn ++ exponent.rpn ++ [.pow]

end UnitExpr

/-- The value of a name: its base unit, or the number `std::stod` reads. -/
def leafValue (v : Text) : Option (UnitValue K) :=
  match lookup v with
  | some value => some value
  | none => ((strtod v).bind Number.ofNumeral).map fun factor => ⟨factor, DIM_NONE⟩

/-- Every leaf holds the value of its name. -/
def UnitExpr.Known : UnitExpr K → Prop
  | val value name => leafValue name = some value
  | mul lhs rhs => lhs.Known ∧ rhs.Known
  | div lhs rhs => lhs.Known ∧ rhs.Known
  | pow base exponent => base.Known ∧ exponent.Known

theorem read_expr_value (fuel : ℕ) (v : Text) (stream : List Token) :
    read_expr (fuel + 1) (.value v :: stream) = match leafValue (K := K) v with
      | some value => .ok (.val value v, stream)
      | none => .error (.invalidArgument ("unknown unit '" ++ String.ofList v ++ "'")) := by
  rw [read_expr]
  unfold leafValue
  cases lookup (K := K) v with
  | some value => rfl
  | none => cases (strtod v).bind (Number.ofNumeral (K := K)) <;> rfl

/-- The reader takes a tree's own tokens back off the end. -/
theorem read_expr_rpn {t : UnitExpr K} (ht : t.Known) (fuel : ℕ) (hfuel : t.rpn.length ≤ fuel)
    (stream : List Token) : read_expr fuel (t.rpn.reverse ++ stream) = .ok (t, stream) := by
  induction t generalizing fuel stream with
  | val value name =>
    obtain ⟨fuel, rfl⟩ : ∃ f, fuel = f + 1 := ⟨fuel - 1, by simp [UnitExpr.rpn] at hfuel; omega⟩
    have hv : leafValue name = some value := ht
    change read_expr (fuel + 1) (.value name :: stream) = _
    rw [read_expr_value, hv]
  | mul lhs rhs ihl ihr | div lhs rhs ihl ihr | pow lhs rhs ihl ihr =>
    simp only [UnitExpr.rpn, List.length_append, List.length_singleton] at hfuel
    obtain ⟨fuel, rfl⟩ : ∃ f, fuel = f + 1 := ⟨fuel - 1, by omega⟩
    have hr := ihr ht.2 fuel (by omega) (lhs.rpn.reverse ++ stream)
    have hl := ihl ht.1 fuel (by omega) stream
    simp only [UnitExpr.rpn, List.reverse_append, List.reverse_singleton,
      List.cons_append, List.nil_append, List.append_assoc, read_expr, hr, hl, bind, Except.bind, pure, Except.pure]

/-- What the reader built, it read off the end. -/
theorem read_expr_ok {fuel : ℕ} {stream rest : List Token} {t : UnitExpr K}
    (h : read_expr fuel stream = .ok (t, rest)) : t.Known ∧ stream = t.rpn.reverse ++ rest := by
  induction fuel generalizing stream t rest with
  | zero => cases h
  | succ fuel ih =>
    cases stream with
    | nil => cases h
    | cons token stream =>
      cases token with
      | value v =>
        rw [read_expr_value] at h
        cases hv : leafValue (K := K) v with
        | none =>
          rw [hv] at h
          cases h
        | some value =>
          rw [hv] at h
          cases h
          exact ⟨hv, rfl⟩
      | lparen => cases h
      | rparen => cases h
      | mul | div | pow =>
        simp only [read_expr, bind, Except.bind, pure, Except.pure] at h
        split at h
        · cases h
        next r hr =>
        split at h
        · cases h
        next l hl =>
        cases h
        obtain ⟨hrk, hrs⟩ := ih hr
        obtain ⟨hlk, hls⟩ := ih hl
        refine ⟨⟨hlk, hrk⟩, ?_⟩
        rw [hrs, hls]
        simp [UnitExpr.rpn]

theorem parseTree_ok_iff {tokens : List Token} {t : UnitExpr K} :
    parseTree tokens = .ok t ↔ t.Known ∧ shunting_yard tokens = .ok t.rpn := by
  unfold parseTree
  cases hs : shunting_yard tokens with
  | error e => simp [bind, Except.bind]
  | ok out =>
    simp only [bind, Except.bind]
    constructor
    · intro h
      cases hr : read_expr (K := K) (out.length + 1) out.reverse with
      | error e =>
        rw [hr] at h
        cases h
      | ok r =>
        obtain ⟨t', rest⟩ := r
        rw [hr] at h
        by_cases hrest : rest = []
        · subst hrest
          simp only [ne_eq, not_true_eq_false, if_false, pure, Except.pure] at h
          cases h
          obtain ⟨hk, hout⟩ := read_expr_ok hr
          rw [List.append_nil] at hout
          exact ⟨hk, congrArg Except.ok (List.reverse_injective hout)⟩
        · simp [hrest, throw, throwThe, MonadExceptOf.throw] at h
    · rintro ⟨hk, hout⟩
      cases hout
      have hr := read_expr_rpn hk (t.rpn.length + 1) (Nat.le_succ _) []
      rw [List.append_nil] at hr
      simp [hr, pure, Except.pure]

/-- `std::invalid_argument`, whatever its text. -/
def IsInvalidArgument (e : Exn) : Prop := ∃ what, e = .invalidArgument what

theorem throws_popParen (output operators : List Token) :
    Throws IsInvalidArgument (popParen output operators) := by
  induction operators generalizing output with
  | nil => exact throws_error ⟨_, rfl⟩
  | cons top operators ih =>
    cases top with
    | lparen => exact throws_ok _ _
    | _ => exact ih _

theorem throws_popAll (output operators : List Token) :
    Throws IsInvalidArgument (popAll output operators) := by
  induction operators generalizing output with
  | nil => exact throws_ok _ _
  | cons top operators ih =>
    cases top with
    | lparen | rparen => exact throws_error ⟨_, rfl⟩
    | _ => exact ih _

theorem throws_shunting_yard (tokens : List Token) :
    Throws IsInvalidArgument (shunting_yard tokens) := by
  refine (Throws.foldlM ?_ tokens _).bind fun s => throws_popAll _ _
  rintro ⟨output, operators⟩ token
  cases token with
  | rparen => exact throws_popParen output operators
  | _ => exact throws_ok _ _

theorem throws_read_expr (fuel : ℕ) (stream : List Token) :
    Throws IsInvalidArgument (read_expr (K := K) fuel stream) := by
  induction fuel generalizing stream with
  | zero => exact throws_error ⟨_, rfl⟩
  | succ fuel ih =>
    cases stream with
    | nil => exact throws_error ⟨_, rfl⟩
    | cons token stream =>
      cases token with
      | value v =>
        rw [read_expr_value]
        cases leafValue (K := K) v with
        | none => exact throws_error ⟨_, rfl⟩
        | some value => exact throws_ok _ _
      | lparen | rparen => exact throws_error ⟨_, rfl⟩
      | mul | div | pow =>
        exact (ih stream).bind fun r => (ih r.2).bind fun l => throws_ok _ _

theorem throws_parseTree (tokens : List Token) :
    Throws IsInvalidArgument (parseTree (K := K) tokens) := by
  refine (throws_shunting_yard tokens).bind fun out => (throws_read_expr _ _).bind fun r => ?_
  by_cases hrest : r.2 = []
  · simp only [hrest, ne_eq, not_true_eq_false, if_false]
    exact throws_ok _ _
  · simp only [ne_eq, hrest, not_false_eq_true, if_true]
    exact (throws_error ⟨_, rfl⟩ : Throws IsInvalidArgument (Except.error _)).bind fun _ => throws_ok _ _

theorem throws_eval (t : UnitExpr K) : Throws IsInvalidArgument t.eval := by
  induction t with
  | val value name => exact throws_ok _ _
  | mul lhs rhs ihl ihr | div lhs rhs ihl ihr =>
    refine ihl.bind fun l => ihr.bind fun r => ?_
    split
    · exact throws_ok _ _
    · exact throws_error ⟨_, rfl⟩
  | pow base exponent ihb ihe =>
    refine ihb.bind fun b => ihe.bind fun e => ?_
    by_cases hdim : e.dim.beq DIM_NONE = true
    · simp only [hdim, Bool.not_true, Bool.false_eq_true, if_false]
      split
      · exact throws_ok _ _
      · exact throws_error ⟨_, rfl⟩
    · simp only [hdim, Bool.not_false, if_true]
      exact throws_error ⟨_, rfl⟩

theorem throws_parse_unit_expression (unit : Text) :
    Throws IsInvalidArgument (parse_unit_expression (K := K) unit) := by
  unfold parse_unit_expression
  simp only
  split
  · exact throws_ok _ _
  · exact (throws_parseTree _).bind throws_eval

end Reader
section Standard
variable [Number K] {atom : Text → Prop}

/-- The levels of binding, `*` and `/` loosest. -/
inductive Level where
  | product
  | power
  | primary
  deriving DecidableEq

/-- The lowest precedence that may be pending inside a level. -/
def Level.bound : Level → ℤ
  | product => 10
  | power => 20
  | primary => 30

/-- The standard parse: `^` binds tighter than `*` and `/`, and all three associate to the left. -/
inductive Parse (atom : Text → Prop) : Level → List Token → UnitExpr K → Prop
  | atom {v : Text} {value : UnitValue K} : atom v → leafValue v = some value →
      Parse atom .primary [.value v] (.val value v)
  | paren {ts : List Token} {t : UnitExpr K} : Parse atom .product ts t →
      Parse atom .primary (.lparen :: ts ++ [.rparen]) t
  | primary {ts : List Token} {t : UnitExpr K} : Parse atom .primary ts t → Parse atom .power ts t
  | pow {ls rs : List Token} {l r : UnitExpr K} : Parse atom .power ls l →
      Parse atom .primary rs r → Parse atom .power (ls ++ .pow :: rs) (.pow l r)
  | power {ts : List Token} {t : UnitExpr K} : Parse atom .power ts t → Parse atom .product ts t
  | mul {ls rs : List Token} {l r : UnitExpr K} : Parse atom .product ls l →
      Parse atom .power rs r → Parse atom .product (ls ++ .mul :: rs) (.mul l r)
  | div {ls rs : List Token} {l r : UnitExpr K} : Parse atom .product ls l →
      Parse atom .power rs r → Parse atom .product (ls ++ .div :: rs) (.div l r)

theorem Parse.known {level : Level} {ts : List Token} {t : UnitExpr K}
    (h : Parse atom level ts t) : t.Known := by
  induction h with
  | atom _ hv => exact hv
  | paren _ ih | primary _ ih | power _ ih => exact ih
  | pow _ _ ihl ihr | mul _ _ ihl ihr | div _ _ ihl ihr => exact ⟨ihl, ihr⟩

/-- The tokens leave the output of `t` behind, its last operators still pending. -/
def Shunts (level : Level) (ts : List Token) (t : UnitExpr K) : Prop :=
  ∀ output operators : List Token, (∀ top ∈ operators.head?, top.precedence < level.bound) →
    ∃ written pending, ts.foldlM shuntToken (output, operators) =
        .ok (output ++ written, pending ++ operators) ∧
      written ++ pending = t.rpn ∧ ∀ p ∈ pending, p.IsOperator ∧ level.bound ≤ p.precedence

theorem shuntToken_operator {o : Token} (ho : o.IsOperator) {pending operators : List Token}
    (hpending : ∀ p ∈ pending, o.precedence ≤ p.precedence)
    (hop : ∀ top ∈ operators.head?, top.precedence < o.precedence) (output : List Token) :
    shuntToken (output, pending ++ operators) o = .ok (output ++ pending, o :: operators) := by
  have hpop := popWhile_append hpending hop output
  rcases ho with rfl | rfl | rfl <;> simp only [shuntToken, hpop]

omit [Add K] [Sub K] [MulOneClass K] [Div K] [Zero K] [Number K] in
/-- An operator between two parts: its own pending part is the right one's, then itself. -/
theorem Shunts.operator {o : Token} (ho : o.IsOperator) {below level : Level}
    (hlevel : o.precedence = level.bound) (hbelow : level.bound < below.bound)
    {ls rs : List Token} {l r t : UnitExpr K} (hl : Shunts level ls l) (hr : Shunts below rs r)
    (ht : t.rpn = l.rpn ++ r.rpn ++ [o]) : Shunts level (ls ++ o :: rs) t := by
  intro output operators htop
  obtain ⟨written, pending, hrun, hrpn, hpend⟩ := hl output operators htop
  have hop : ∀ top ∈ (o :: operators).head?, top.precedence < below.bound := by
    intro top hmem
    obtain rfl : o = top := by simpa using hmem
    omega
  obtain ⟨written', pending', hrun', hrpn', hpend'⟩ := hr (output ++ l.rpn) (o :: operators) hop
  refine ⟨l.rpn ++ written', pending' ++ [o], ?_, ?_, ?_⟩
  · have hstep := shuntToken_operator ho
      (fun p hp => by rw [hlevel]; exact (hpend p hp).2)
      (fun top hmem => by rw [hlevel]; exact htop top hmem) (output ++ written)
    rw [List.append_assoc output, hrpn] at hstep
    rw [List.foldlM_append, hrun]
    simp only [bind, Except.bind, List.foldlM_cons, hstep, hrun', List.append_assoc,
      List.singleton_append]
  · rw [ht, ← hrpn']
    simp only [List.append_assoc]
  · intro p hp
    rcases List.mem_append.mp hp with hp | hp
    · exact ⟨(hpend' p hp).1, hbelow.le.trans (hpend' p hp).2⟩
    · rw [List.mem_singleton.mp hp]
      exact ⟨ho, hlevel.ge⟩

omit [Add K] [Sub K] [MulOneClass K] [Div K] [Zero K] [Number K] in
/-- Nothing binds tighter than a primary. -/
theorem Shunts.primary_run {ts : List Token} {t : UnitExpr K} (h : Shunts .primary ts t)
    (output operators : List Token) :
    ts.foldlM shuntToken (output, operators) = .ok (output ++ t.rpn, operators) := by
  have low : ∀ top : Token, top.precedence < 30 := by
    intro top
    cases top <;> simp [Token.precedence]
  obtain ⟨written, pending, hrun, hrpn, hpend⟩ := h output operators fun top _ => low top
  have hnil : pending = [] := by
    apply List.eq_nil_iff_forall_not_mem.mpr
    intro p hp
    have hp30 : 30 ≤ p.precedence := (hpend p hp).2
    exact absurd (low p) (not_lt.mpr hp30)
  subst hnil
  rw [List.append_nil] at hrpn
  rw [hrun, hrpn, List.nil_append]

omit [Add K] [Sub K] [MulOneClass K] [Div K] [Zero K] [Number K] in
theorem Shunts.of_primary {level : Level} {ts : List Token} {t : UnitExpr K}
    (h : Shunts .primary ts t) : Shunts level ts t := by
  intro output operators _
  exact ⟨t.rpn, [], h.primary_run output operators, List.append_nil _, by simp⟩

theorem Parse.shunts {level : Level} {ts : List Token} {t : UnitExpr K}
    (h : Parse atom level ts t) : Shunts level ts t := by
  induction h with
  | atom _ _ =>
    intro output operators _
    exact ⟨_, [], rfl, List.append_nil _, by simp⟩
  | @paren ts t _ ih =>
    intro output operators _
    obtain ⟨written, pending, hrun, hrpn, hpend⟩ := ih output (.lparen :: operators) (by
      intro top hmem
      obtain rfl : Token.lparen = top := by simpa using hmem
      decide)
    have hnot : .lparen ∉ pending := by
      intro hmem
      rcases (hpend _ hmem).1 with h | h | h <;> cases h
    refine ⟨t.rpn, [], ?_, List.append_nil _, by simp⟩
    have hclose := popParen_append hnot (output ++ written) operators
    rw [List.append_assoc output, hrpn] at hclose
    rw [List.cons_append, List.foldlM_cons, List.nil_append]
    change (ts ++ [Token.rparen]).foldlM shuntToken (output, .lparen :: operators) = _
    rw [List.foldlM_append, hrun]
    simp only [bind, Except.bind, List.foldlM_cons, List.foldlM_nil, shuntToken, hclose, pure,
      Except.pure]
  | primary _ ih => exact ih.of_primary
  | pow _ _ ihl ihr => exact ihl.operator (Or.inr (Or.inr rfl)) rfl (by decide) ihr rfl
  | @power ts t hp ih =>
    intro output operators htop
    obtain ⟨written, pending, hrun, hrpn, hpend⟩ := ih output operators fun top hmem => by
      have hlt : top.precedence < 10 := htop top hmem
      exact hlt.trans (by decide)
    refine ⟨written, pending, hrun, hrpn, fun p hmem => ⟨(hpend p hmem).1, ?_⟩⟩
    exact (hpend p hmem).1.precedence_pos
  | mul _ _ ihl ihr => exact ihl.operator (Or.inl rfl) rfl (by decide) ihr rfl
  | div _ _ ihl ihr => exact ihl.operator (Or.inr (Or.inl rfl)) rfl (by decide) ihr rfl

/-- The yard turns a standard parse into the tokens of its tree. -/
theorem Parse.shunting_yard {ts : List Token} {t : UnitExpr K} (h : Parse atom .product ts t) :
    shunting_yard ts = .ok t.rpn := by
  obtain ⟨written, pending, hrun, hrpn, hpend⟩ := h.shunts [] [] (by simp)
  have hall := popAll_of_operators (fun p hp => (hpend p hp).1) written
  rw [List.nil_append, List.append_nil] at hrun
  simp only [Units.shunting_yard, hrun, bind, Except.bind, hall, hrpn]

theorem Parse.parseTree {ts : List Token} {t : UnitExpr K} (h : Parse atom .product ts t) :
    parseTree ts = .ok t :=
  parseTree_ok_iff.mpr ⟨h.known, h.shunting_yard⟩

/-- Two parses around an operator are the standard parse of the whole, regrouped. -/
theorem Parse.exists_pow_power {ls rs : List Token} {l r : UnitExpr K}
    (hl : Parse atom .power ls l) (hr : Parse atom .power rs r) :
    ∃ t : UnitExpr K, Parse atom .power (ls ++ .pow :: rs) t := by
  generalize hlevel : Level.power = level at hr
  induction hr with
  | primary hr => exact ⟨_, hl.pow hr⟩
  | pow _ hq ih =>
    obtain ⟨t, ht⟩ := ih rfl
    have hwhole := ht.pow hq
    rw [List.append_assoc, List.cons_append] at hwhole
    exact ⟨_, hwhole⟩
  | _ => cases hlevel

theorem Parse.exists_pow_product {ls rs : List Token} {l r : UnitExpr K}
    (hl : Parse atom .power ls l) (hr : Parse atom .product rs r) :
    ∃ t : UnitExpr K, Parse atom .product (ls ++ .pow :: rs) t := by
  generalize hlevel : Level.product = level at hr
  induction hr with
  | power hr =>
    obtain ⟨t, ht⟩ := hl.exists_pow_power hr
    exact ⟨t, ht.power⟩
  | mul _ hq ih =>
    obtain ⟨t, ht⟩ := ih rfl
    have hwhole := ht.mul hq
    rw [List.append_assoc, List.cons_append] at hwhole
    exact ⟨_, hwhole⟩
  | div _ hq ih =>
    obtain ⟨t, ht⟩ := ih rfl
    have hwhole := ht.div hq
    rw [List.append_assoc, List.cons_append] at hwhole
    exact ⟨_, hwhole⟩
  | _ => cases hlevel

theorem Parse.exists_mul {ls rs : List Token} {l r : UnitExpr K} {o : Token}
    (ho : o = .mul ∨ o = .div) (hl : Parse atom .product ls l) (hr : Parse atom .product rs r) :
    ∃ t : UnitExpr K, Parse atom .product (ls ++ o :: rs) t := by
  generalize hlevel : Level.product = level at hr
  induction hr with
  | power hr =>
    rcases ho with rfl | rfl
    · exact ⟨_, hl.mul hr⟩
    · exact ⟨_, hl.div hr⟩
  | mul _ hq ih =>
    obtain ⟨t, ht⟩ := ih rfl
    have hwhole := ht.mul hq
    rw [List.append_assoc, List.cons_append] at hwhole
    exact ⟨_, hwhole⟩
  | div _ hq ih =>
    obtain ⟨t, ht⟩ := ih rfl
    have hwhole := ht.div hq
    rw [List.append_assoc, List.cons_append] at hwhole
    exact ⟨_, hwhole⟩
  | _ => cases hlevel

theorem Parse.exists_pow {ls rs : List Token} {l r : UnitExpr K}
    (hl : Parse atom .product ls l) (hr : Parse atom .product rs r) :
    ∃ t : UnitExpr K, Parse atom .product (ls ++ .pow :: rs) t := by
  generalize hlevel : Level.product = level at hl
  induction hl with
  | power hl => exact hl.exists_pow_product hr
  | mul hp hq _ =>
    obtain ⟨t, ht⟩ := hq.exists_pow_product hr
    obtain ⟨t', ht'⟩ := hp.exists_mul (Or.inl rfl) ht
    refine ⟨t', ?_⟩
    rwa [List.append_assoc, List.cons_append]
  | div hp hq _ =>
    obtain ⟨t, ht⟩ := hq.exists_pow_product hr
    obtain ⟨t', ht'⟩ := hp.exists_mul (Or.inr rfl) ht
    refine ⟨t', ?_⟩
    rwa [List.append_assoc, List.cons_append]
  | _ => cases hlevel

/-- Every infix token string has a standard parse. -/
theorem InfixTokens.exists_parse (hatom : ∀ v, atom v → (leafValue v : Option (UnitValue K)) ≠ none)
    {ts : List Token} (h : InfixTokens atom ts) :
    ∃ t : UnitExpr K, Parse atom .product ts t := by
  induction h with
  | @atom v hv =>
    obtain ⟨value, hvalue⟩ := Option.ne_none_iff_exists'.mp (hatom v hv)
    exact ⟨_, (Parse.atom hv hvalue).primary.power⟩
  | op ho _ _ ihl ihr =>
    obtain ⟨l, hl⟩ := ihl
    obtain ⟨r, hr⟩ := ihr
    rcases ho with rfl | rfl | rfl
    · exact hl.exists_mul (Or.inl rfl) hr
    · exact hl.exists_mul (Or.inr rfl) hr
    · exact hl.exists_pow hr
  | paren _ ih =>
    obtain ⟨t, ht⟩ := ih
    exact ⟨t, ht.paren.primary.power⟩

end Standard

section RoundTrip
variable [Number K] {atom : Text → Prop}

namespace UnitExpr

/-- The tokens `to_string` spells. -/
def printed : UnitExpr K → List Token
  | val _ name => [.value name]
  | mul lhs rhs => .lparen :: (lhs.printed ++ .mul :: rhs.printed) ++ [.rparen]
  | div lhs rhs => .lparen :: (lhs.printed ++ .div :: rhs.printed) ++ [.rparen]
  | pow base exponent => .lparen :: (base.printed ++ .pow :: exponent.printed) ++ [.rparen]

/-- Every leaf's name is an atom. -/
def Atoms (atom : Text → Prop) : UnitExpr K → Prop
  | val _ name => atom name
  | mul lhs rhs => lhs.Atoms atom ∧ rhs.Atoms atom
  | div lhs rhs => lhs.Atoms atom ∧ rhs.Atoms atom
  | pow base exponent => base.Atoms atom ∧ exponent.Atoms atom

end UnitExpr

theorem Parse.atoms {level : Level} {ts : List Token} {t : UnitExpr K}
    (h : Parse atom level ts t) : t.Atoms atom := by
  induction h with
  | atom hv _ => exact hv
  | paren _ ih | primary _ ih | power _ ih => exact ih
  | pow _ _ ihl ihr | mul _ _ ihl ihr | div _ _ ihl ihr => exact ⟨ihl, ihr⟩

theorem tokenize_paren {inner : Text} {l r : Text} {ch : Char} {o : Token} (ho : operator ch = some o)
    (hinner : inner = l ++ ' ' :: ch :: ' ' :: r) :
    tokenize ('(' :: inner ++ [')']) =
      .lparen :: (tokenize l ++ o :: tokenize r) ++ [.rparen] := by
  have hspace : tokenize inner = tokenize l ++ o :: tokenize r := by
    have hdrop : dropSpace inner = dropSpace l ++ ch :: dropSpace r := by
      have hs : isspace ch = false := by
        unfold operator at ho
        split at ho <;> first | rfl | cases ho
      rw [hinner]
      simp [dropSpace, hs, show isspace ' ' = true from rfl]
    rw [← tokenize_dropSpace inner, hdrop, tokenize, tokenizeFrom_append_operator ho,
      tokenizeFrom_dropSpace, tokenizeFrom_dropSpace]
    rfl
  rw [tokenize, List.cons_append, tokenizeFrom_operator (t := .lparen) rfl,
    tokenizeFrom_append_operator (t := .rparen) rfl]
  change flush [] ++ .lparen :: (tokenize inner ++ .rparen :: []) = _
  rw [hspace]
  rfl

omit [Add K] [Sub K] [MulOneClass K] [Div K] [Zero K] [Number K] in
theorem tokenize_to_string (hatom : ∀ v, atom v → IsPlain v ∧ v ≠ []) {t : UnitExpr K}
    (ht : t.Atoms atom) : tokenize t.to_string.toList = t.printed := by
  induction t with
  | val value name =>
    obtain ⟨hplain, hne⟩ := hatom _ ht
    have htext : (UnitExpr.val value name).to_string.toList = name := String.toList_ofList
    rw [htext, tokenize, tokenizeFrom_of_isPlain hplain, List.nil_append, flush, if_neg hne]
    rfl
  | mul l r ihl ihr =>
    have htext : (UnitExpr.mul l r).to_string.toList =
        '(' :: (l.to_string.toList ++ ' ' :: '*' :: ' ' :: r.to_string.toList) ++ [')'] := by
      simp [UnitExpr.to_string]
    rw [htext, tokenize_paren (o := .mul) rfl rfl, ihl ht.1, ihr ht.2]
    rfl
  | div l r ihl ihr =>
    have htext : (UnitExpr.div l r).to_string.toList =
        '(' :: (l.to_string.toList ++ ' ' :: '/' :: ' ' :: r.to_string.toList) ++ [')'] := by
      simp [UnitExpr.to_string]
    rw [htext, tokenize_paren (o := .div) rfl rfl, ihl ht.1, ihr ht.2]
    rfl
  | pow l r ihl ihr =>
    have htext : (UnitExpr.pow l r).to_string.toList =
        '(' :: (l.to_string.toList ++ ' ' :: '^' :: ' ' :: r.to_string.toList) ++ [')'] := by
      simp [UnitExpr.to_string]
    rw [htext, tokenize_paren (o := .pow) rfl rfl, ihl ht.1, ihr ht.2]
    rfl

/-- Printed in full parentheses, a tree is its own standard parse. -/
theorem parse_printed {t : UnitExpr K} (hk : t.Known) (ha : t.Atoms atom) :
    Parse atom .primary t.printed t := by
  induction t with
  | val value name => exact .atom ha hk
  | mul l r ihl ihr =>
    exact ((ihl hk.1 ha.1).primary.power.mul (ihr hk.2 ha.2).primary).paren
  | div l r ihl ihr =>
    exact ((ihl hk.1 ha.1).primary.power.div (ihr hk.2 ha.2).primary).paren
  | pow l r ihl ihr =>
    exact ((ihl hk.1 ha.1).primary.pow (ihr hk.2 ha.2)).power.paren

variable (K) in
/-- An atom whose number, when it is one, a double can hold. -/
def HasValue (v : Text) : Prop := IsAtom K v ∧ (leafValue v : Option (UnitValue K)) ≠ none

/-- An infix expression gets its standard parse and no other, and the tree prints to a string with
the same parse. -/
theorem infix_standard_parse {unit : Text} (h : Infix (HasValue K) (dropSpace unit)) :
    ∃ t : UnitExpr K, Parse (HasValue K) .product (tokenize unit) t ∧
      (∀ t', Parse (HasValue K) .product (tokenize unit) t' → t' = t) ∧
      shunting_yard (tokenize unit) = .ok t.rpn ∧
      read_expr (t.rpn.length + 1) t.rpn.reverse = .ok (t, []) ∧
      parseTree (tokenize unit) = .ok t ∧ parseTree (tokenize t.to_string.toList) = .ok t := by
  have hplain : ∀ v, HasValue K v → IsPlain v ∧ v ≠ [] := fun v hv => hv.1.isPlain
  have htokens := (infix_dropSpace_iff hplain unit).mp h
  obtain ⟨t, ht⟩ := htokens.exists_parse fun v hv => hv.2
  have hread := read_expr_rpn ht.known (t.rpn.length + 1) (Nat.le_succ _) []
  rw [List.append_nil] at hread
  refine ⟨t, ht, ?_, ht.shunting_yard, hread, ht.parseTree, ?_⟩
  · intro t' ht'
    have hboth := ht'.parseTree
    rw [ht.parseTree] at hboth
    exact (Except.ok.inj hboth).symm
  · rw [tokenize_to_string hplain ht.atoms]
    exact (parse_printed ht.known ht.atoms).primary.power.parseTree

theorem hasValue_of_lookup {v : Text} (h : (lookup v : Option (UnitValue K)) ≠ none) :
    HasValue K v := by
  refine ⟨Or.inl h, ?_⟩
  obtain ⟨value, hv⟩ := Option.ne_none_iff_exists'.mp h
  simp [leafValue, hv]

/-- A force constant per mole. -/
theorem infix_standard_parse_per_mole : ∃ t : UnitExpr ℝ,
    Parse (HasValue ℝ) .product (tokenize "kJ / mol/A^2".toList) t ∧
      parseTree (tokenize t.to_string.toList) = .ok t := by
  have base : ∀ v ∈ ["kJ", "mol", "A"], HasValue ℝ v.toList := by
    intro v hv
    apply hasValue_of_lookup
    rw [← Option.isSome_iff_ne_none]
    simp only [List.mem_cons, List.not_mem_nil, or_false] at hv
    rcases hv with rfl | rfl | rfl <;> rfl
  have two : HasValue ℝ ['2'] := by
    constructor
    · exact Or.inr ⟨[], ['2'], [], [], rfl, by simp, by simp [IsDigits, isDigit, digitValue],
        Or.inl ⟨rfl, by simp⟩, Or.inl rfl⟩
    · rw [← Option.isSome_iff_ne_none]
      rfl
  have hinfix : Infix (HasValue ℝ) (dropSpace "kJ / mol/A^2".toList) :=
    ((Infix.atom (base "kJ" (by simp))).div (.atom (base "mol" (by simp)))).div
      ((Infix.atom (base "A" (by simp))).pow (.atom two))
  obtain ⟨t, ht, -, -, -, -, hprint⟩ := infix_standard_parse hinfix
  exact ⟨t, ht, hprint⟩

end RoundTrip
end Rgpot.Units
