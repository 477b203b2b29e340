import Rgpot.Rpc.UnitLanguage
import Rgpot.Lib.BinaryFloat

/-! Conversion factors as the parser computes them, in doubles. -/
namespace Rgpot.Units
open BinaryFormat BinaryFloat Fallible

theorem fraction64_pos : 0 < 52 := by decide

theorem fraction64_lt : 52 < 1074 := by decide

theorem bias64_lt : 1074 < 2098 := by decide

/-- IEEE doubles, in units of the least subnormal number. -/
def binary64 : BinaryFormat := ⟨52, 1074, 2098, fraction64_pos, fraction64_lt, bias64_lt⟩

abbrev Binary64 := BinaryFloat binary64

/-- What the mathematical library decides. -/
class MathLibrary where
  /-- `std::pow`. -/
  pow : Binary64 → Binary64 → Binary64
  /-- Whether `std::strtod` reports a numeral as too small. -/
  underflow : Numeral → Bool

namespace Binary64

/-- The double nearest to a rational number. -/
def ofRat (neg : Bool) (x : ℚ) : Binary64 := ofUnits neg (x * 2 ^ binary64.bias)

/-- What `std::strtod` returns. -/
def ofNumeral : Numeral → Binary64
  | .decimal neg m e => ofRat neg (m * 10 ^ e)
  | .hex neg m e => ofRat neg (m * 2 ^ e)
  | .infinity neg => infinity neg
  | .nan => nan

def isInfinite : Binary64 → Bool
  | infinity _ => true
  | finite _ _ _ | nan => false

/-- The number `std::stod` returns; it throws when the value is out of range. -/
def stod [MathLibrary] (n : Numeral) : Option Binary64 :=
  match n with
  | .infinity neg => some (infinity neg)
  | .nan => some nan
  | .decimal _ _ _ | .hex _ _ _ =>
    if (ofNumeral n).isInfinite || MathLibrary.underflow n then none else some (ofNumeral n)

/-- `std::fabs(a) < std::fabs(b)`. -/
def absLt : Binary64 → Binary64 → Bool
  | nan, _ | _, nan | infinity _, _ => false
  | finite _ _ _, infinity _ => true
  | finite _ u _, finite _ v _ => u < v

/-- Half way cases away from zero. -/
def roundAway : Binary64 → ℤ
  | finite neg u _ => signed neg ⌊(u : ℚ) / 2 ^ binary64.bias + 1 / 2⌋₊
  | infinity _ | nan => 0

def textOf : Binary64 → String
  | finite neg u _ =>
    let n := roundHalfEven (u * 10 ^ 6 / 2 ^ binary64.bias)
    (if neg then "-" else "") ++ toString (n / 10 ^ 6) ++ "." ++
      String.ofList (((toString (10 ^ 6 + n % 10 ^ 6)).toList).drop 1)
  | infinity neg => if neg then "-inf" else "inf"
  | nan => "nan"

end Binary64

instance [MathLibrary] : Number Binary64 where
  lit m e := Binary64.ofRat (m < 0) (m * 10 ^ e)
  ofNumeral := Binary64.stod
  pow := MathLibrary.pow
  mulFinite l r := (l * r).isFinite
  divFinite l r := (l / r).isFinite
  powFinite b e := (MathLibrary.pow b e).isFinite
  near a b := !Binary64.absLt (Binary64.ofRat false (10 ^ (-10 : ℤ))) (a - b)
  small v := Binary64.absLt v (Binary64.ofRat false (10 ^ (-10 : ℤ)))
  round := Binary64.roundAway
  text := Binary64.textOf

/-- Half the least double, `2^-1075`: what is no larger rounds to zero. -/
def halfLeast : ℚ := 1 / 2 ^ (binary64.bias + 1)

/-- Half a step above the greatest double, `2^1024 - 2^970`: what is no smaller rounds to an
infinity. -/
def overflow : ℚ :=
  (2 ^ binary64.top - 2 ^ (binary64.top - binary64.fraction - 2)) / 2 ^ binary64.bias

namespace Numeral

/-- An infinity or not a number, as `std::stod` accepts them. -/
def IsUnbounded : Numeral → Prop
  | .infinity _ | .nan => True
  | .decimal _ _ _ | .hex _ _ _ => False

/-- A zero, or a number no double but zero is nearest to. -/
def IsTiny : Numeral → Prop
  | .decimal _ m e => (m : ℚ) * 10 ^ e ≤ halfLeast
  | .hex _ m e => (m : ℚ) * 2 ^ e ≤ halfLeast
  | .infinity _ | .nan => False

end Numeral

section Leaves

theorem magnitude_ofRat_eq_zero {neg : Bool} {x : ℚ} (hx : 0 ≤ x)
    (h : (Binary64.ofRat neg x).isFinite = true) :
    (Binary64.ofRat neg x).magnitude = 0 ↔ x ≤ halfLeast := by
  have hpow : (0 : ℚ) < 2 ^ binary64.bias := by positivity
  have hhalf : halfLeast = 1 / 2 / 2 ^ binary64.bias := by
    rw [halfLeast, pow_succ', div_div]
  rw [hhalf, le_div_iff₀ hpow]
  exact magnitude_ofUnits_eq_zero (by positivity) h

theorem isFinite_ofRat {neg : Bool} {x : ℚ} (h : (Binary64.ofRat neg x).isInfinite = false) :
    (Binary64.ofRat neg x).isFinite = true := by
  unfold Binary64.ofRat ofUnits at h ⊢
  split at h
  · next htop =>
    rw [dif_pos htop]
    rfl
  · cases h

variable [MathLibrary]

/-- A number `std::stod` returns is finite unless the numeral is not, and zero for a tiny one. -/
theorem stod_finite {n : Numeral} {a : Binary64} (h : Binary64.stod n = some a) :
    (a.isFinite = true ↔ ¬ n.IsUnbounded) ∧
      (a.isFinite = true → (a.magnitude = 0 ↔ n.IsTiny)) := by
  have rational : ∀ (neg : Bool) (x : ℚ), 0 ≤ x →
      (if (Binary64.ofRat neg x).isInfinite || MathLibrary.underflow n then none
        else some (Binary64.ofRat neg x)) = some a →
      a.isFinite = true ∧ (a.magnitude = 0 ↔ x ≤ halfLeast) := by
    intro neg x hx hstod
    split at hstod
    · cases hstod
    · next hrange =>
      obtain rfl := Option.some.inj hstod
      rw [Bool.not_eq_true, Bool.or_eq_false_iff] at hrange
      have hfinite := isFinite_ofRat hrange.1
      exact ⟨hfinite, magnitude_ofRat_eq_zero hx hfinite⟩
  cases n with
  | decimal neg m e =>
    simp only [Binary64.stod, Binary64.ofNumeral] at h
    obtain ⟨hfinite, hzero⟩ := rational neg (m * 10 ^ e) (by positivity) h
    exact ⟨iff_of_true hfinite not_false, fun _ => hzero⟩
  | hex neg m e =>
    simp only [Binary64.stod, Binary64.ofNumeral] at h
    obtain ⟨hfinite, hzero⟩ := rational neg (m * 2 ^ e) (by positivity) h
    exact ⟨iff_of_true hfinite not_false, fun _ => hzero⟩
  | infinity neg =>
    cases h
    exact ⟨iff_of_false Bool.false_ne_true (not_not.mpr trivial), nofun⟩
  | nan =>
    cases h
    exact ⟨iff_of_false Bool.false_ne_true (not_not.mpr trivial), nofun⟩

end Leaves

/-- No powers, and no numeral too small. -/
@[reducible] def plainLibrary : MathLibrary := ⟨fun b _ => b, fun _ => false⟩

section Nodes
variable [MathLibrary]

/-- The table's factors do not depend on the mathematical library. -/
theorem baseUnits_factor : (BASE_UNITS : List (String × UnitValue Binary64)).all
    (fun entry => entry.2.factor.isFinite && entry.2.factor.magnitude != 0) = true := by
  simp only [BASE_UNITS, Number.lit, List.all_cons, List.all_nil]
  decide +kernel

theorem finiteNonzero_lookup {name : Text} {value : UnitValue Binary64}
    (h : lookup name = some value) : FiniteNonzero value.factor := by
  obtain ⟨entry, hentry, rfl⟩ := Option.map_eq_some_iff.mp h
  have hall := List.all_eq_true.mp baseUnits_factor entry (List.mem_of_find?_eq_some hentry)
  rw [Bool.and_eq_true, bne_iff_ne] at hall
  exact hall

namespace UnitExpr

/-- The number of a tree, every node rounded. -/
def number : UnitExpr Binary64 → Binary64
  | val value _ => value.factor
  | mul lhs rhs => lhs.number * rhs.number
  | div lhs rhs => lhs.number / rhs.number
  | pow base exponent => MathLibrary.pow base.number exponent.number

def dimension : UnitExpr Binary64 → Dimension Binary64
  | val value _ => value.dim
  | mul lhs rhs => lhs.dimension.mul rhs.dimension
  | div lhs rhs => lhs.dimension.div rhs.dimension
  | pow base exponent => base.dimension.pow exponent.number

/-- Every operator's number is finite, and every exponent dimensionless. -/
def Checked : UnitExpr Binary64 → Prop
  | val _ _ => True
  | mul lhs rhs => lhs.Checked ∧ rhs.Checked ∧ (lhs.number * rhs.number).isFinite = true
  | div lhs rhs => lhs.Checked ∧ rhs.Checked ∧ (lhs.number / rhs.number).isFinite = true
  | pow base exponent => base.Checked ∧ exponent.Checked ∧
      exponent.dimension.beq DIM_NONE = true ∧
      (MathLibrary.pow base.number exponent.number).isFinite = true

/-- A leaf spelled as an infinity or as not a number. -/
def Unbounded : UnitExpr Binary64 → Prop
  | val _ name => lookup (K := Binary64) name = none ∧ ∃ n, strtod name = some n ∧ n.IsUnbounded
  | mul _ _ | div _ _ | pow _ _ => False

/-- A node on the way to the root loses its number: a tiny numeral, a product or quotient too small
for a double, a quotient by an infinite leaf, or a power that is zero. -/
def Vanishes : UnitExpr Binary64 → Prop
  | val _ name => lookup (K := Binary64) name = none ∧ ∃ n, strtod name = some n ∧ n.IsTiny
  | mul lhs rhs => lhs.Vanishes ∨ rhs.Vanishes ∨
      lhs.number.magnitude * rhs.number.magnitude ≤ halfLeast
  | div lhs rhs => lhs.Vanishes ∨ rhs.Unbounded ∨
      lhs.number.magnitude / rhs.number.magnitude ≤ halfLeast
  | pow base exponent => (MathLibrary.pow base.number exponent.number).magnitude = 0

theorem eval_eq_ok_iff {t : UnitExpr Binary64} {v : UnitValue Binary64} :
    t.eval = .ok v ↔ t.Checked ∧ v = ⟨t.number, t.dimension⟩ := by
  induction t generalizing v with
  | val value name =>
    constructor
    · intro h
      cases h
      exact ⟨trivial, rfl⟩
    · rintro ⟨-, rfl⟩
      rfl
  | mul lhs rhs ihl ihr | div lhs rhs ihl ihr =>
    constructor
    · intro h
      obtain ⟨l, hl, h⟩ := bind_eq_ok.mp h
      obtain ⟨r, hr, h⟩ := bind_eq_ok.mp h
      obtain ⟨hlc, rfl⟩ := ihl.mp hl
      obtain ⟨hrc, rfl⟩ := ihr.mp hr
      split at h
      · next hfinite =>
        cases h
        exact ⟨⟨hlc, hrc, hfinite⟩, rfl⟩
      · cases h
    · rintro ⟨⟨hlc, hrc, hfinite⟩, rfl⟩
      refine bind_eq_ok.mpr ⟨_, ihl.mpr ⟨hlc, rfl⟩, bind_eq_ok.mpr ⟨_, ihr.mpr ⟨hrc, rfl⟩, ?_⟩⟩
      exact if_pos hfinite
  | pow base exponent ihb ihe =>
    constructor
    · intro h
      obtain ⟨b, hb, h⟩ := bind_eq_ok.mp h
      obtain ⟨e, he, h⟩ := bind_eq_ok.mp h
      obtain ⟨hbc, rfl⟩ := ihb.mp hb
      obtain ⟨hec, rfl⟩ := ihe.mp he
      by_cases hdim : exponent.dimension.beq DIM_NONE = true
      · simp only [hdim, Bool.not_true, Bool.false_eq_true, if_false] at h
        split at h
        · next hfinite =>
          cases h
          exact ⟨⟨hbc, hec, hdim, hfinite⟩, rfl⟩
        · cases h
      · simp only [hdim, Bool.not_false, if_true] at h
        cases h
    · rintro ⟨⟨hbc, hec, hdim, hfinite⟩, rfl⟩
      refine bind_eq_ok.mpr ⟨_, ihb.mpr ⟨hbc, rfl⟩, bind_eq_ok.mpr ⟨_, ihe.mpr ⟨hec, rfl⟩, ?_⟩⟩
      simp only [hdim, Bool.not_true, Bool.false_eq_true, if_false]
      exact if_pos hfinite

/-- A leaf holds a base unit's factor or the number its name begins with. -/
theorem leaf_cases {value : UnitValue Binary64} {name : Text} (hk : (val value name).Known) :
    FiniteNonzero value.factor ∧ lookup (K := Binary64) name ≠ none ∨
      lookup (K := Binary64) name = none ∧
        ∃ n, strtod name = some n ∧ Binary64.stod n = some value.factor := by
  unfold Known leafValue at hk
  split at hk
  · next value' hlookup =>
    cases hk
    exact Or.inl ⟨finiteNonzero_lookup hlookup, by simp [hlookup]⟩
  · next hlookup =>
    obtain ⟨factor, hfactor, rfl⟩ := Option.map_eq_some_iff.mp hk
    exact Or.inr ⟨hlookup, Option.bind_eq_some_iff.mp hfactor⟩

/-- Only a leaf can pass the checks with a number that is not finite. -/
theorem number_isFinite_iff {t : UnitExpr Binary64} (hk : t.Known) (hc : t.Checked) :
    t.number.isFinite = true ↔ ¬ t.Unbounded := by
  cases t with
  | val value name =>
    rcases leaf_cases hk with ⟨hfactor, hlookup⟩ | ⟨hlookup, n, hn, hstod⟩
    · exact iff_of_true hfactor.1 fun h => hlookup h.1
    · refine (stod_finite hstod).1.trans (not_congr ?_)
      constructor
      · intro h
        exact ⟨hlookup, n, hn, h⟩
      · rintro ⟨-, n', hn', h⟩
        cases hn.symm.trans hn'
        exact h
  | mul lhs rhs | div lhs rhs => exact iff_of_true hc.2.2 not_false
  | pow base exponent => exact iff_of_true hc.2.2.2 not_false

/-- A finite number that passed the checks is zero exactly when a node on the way loses it. -/
theorem number_magnitude_eq_zero {t : UnitExpr Binary64} (hk : t.Known) (hc : t.Checked)
    (hfinite : t.number.isFinite = true) : t.number.magnitude = 0 ↔ t.Vanishes := by
  have hnonneg : 0 ≤ halfLeast := by
    unfold halfLeast
    positivity
  induction t with
  | val value name =>
    rcases leaf_cases hk with ⟨hfactor, hlookup⟩ | ⟨hlookup, n, hn, hstod⟩
    · exact iff_of_false hfactor.2 fun h => hlookup h.1
    · refine ((stod_finite hstod).2 hfinite).trans ?_
      constructor
      · intro h
        exact ⟨hlookup, n, hn, h⟩
      · rintro ⟨-, n', hn', h⟩
        cases hn.symm.trans hn'
        exact h
  | mul lhs rhs ihl ihr =>
    obtain ⟨hlc, hrc, hproduct⟩ := hc
    obtain ⟨hlf, hrf⟩ := isFinite_of_mul hproduct
    have hl := ihl hk.1 hlc hlf
    have hr := ihr hk.2 hrc hrf
    refine (magnitude_mul_eq_zero hproduct).trans ?_
    constructor
    · intro h
      exact Or.inr (Or.inr h)
    · rintro (h | h | h)
      · rw [hl.mpr h, zero_mul]
        exact hnonneg
      · rw [hr.mpr h, mul_zero]
        exact hnonneg
      · exact h
  | div lhs rhs ihl ihr =>
    obtain ⟨hlc, hrc, hquotient⟩ := hc
    obtain ⟨hlf, hr⟩ := isFinite_of_div hquotient
    have hl := ihl hk.1 hlc hlf
    have hrf := number_isFinite_iff hk.2 hrc
    rcases hr with ⟨s, hr⟩ | hr
    · refine iff_of_true ?_ (Or.inr (Or.inl ?_))
      · change (lhs.number / rhs.number).magnitude = 0
        rw [hr, magnitude_div_infinity]
      · by_contra hbounded
        have := hrf.mpr hbounded
        rw [hr] at this
        cases this
    · refine (magnitude_div_eq_zero hquotient hr).trans ?_
      constructor
      · intro h
        exact Or.inr (Or.inr h)
      · rintro (h | h | h)
        · rw [hl.mpr h, zero_div]
          exact hnonneg
        · exact (hrf.mp hr.1 h).elim
        · exact h
  | pow base exponent _ _ => rfl

end UnitExpr

/-- The tree a unit is read as; a blank one is the number 1. -/
def Reads (unit : Text) (t : UnitExpr Binary64) : Prop :=
  if tokenize unit = [] then t = .val ⟨1, DIM_NONE⟩ [] else parseTree (tokenize unit) = .ok t

theorem parse_unit_expression_eq_ok_iff {unit : Text} {v : UnitValue Binary64} :
    parse_unit_expression unit = .ok v ↔
      ∃ t, Reads unit t ∧ t.Checked ∧ v = ⟨t.number, t.dimension⟩ := by
  unfold Reads parse_unit_expression
  by_cases hblank : tokenize unit = []
  · simp only [hblank, if_true]
    constructor
    · intro h
      cases h
      exact ⟨_, rfl, trivial, rfl⟩
    · rintro ⟨t, rfl, -, rfl⟩
      rfl
  · simp only [hblank, if_false]
    constructor
    · intro h
      obtain ⟨t, ht, h⟩ := bind_eq_ok.mp h
      exact ⟨t, ht, UnitExpr.eval_eq_ok_iff.mp h⟩
    · rintro ⟨t, ht, h⟩
      exact bind_eq_ok.mpr ⟨t, ht, UnitExpr.eval_eq_ok_iff.mpr h⟩

/-- A unit that passes the checks has a finite, nonzero factor unless a node gives it away. -/
theorem Reads.finiteNonzero_iff {unit : Text} {t : UnitExpr Binary64} (h : Reads unit t)
    (hc : t.Checked) : FiniteNonzero t.number ↔ ¬ t.Unbounded ∧ ¬ t.Vanishes := by
  unfold Reads at h
  split at h
  · subst h
    have hone : strtod [] = none := by decide
    refine iff_of_true finiteNonzero_one ⟨?_, ?_⟩
    · rintro ⟨-, n, hn, -⟩
      cases hone.symm.trans hn
    · rintro ⟨-, n, hn, -⟩
      cases hone.symm.trans hn
  · obtain ⟨hk, -⟩ := parseTree_ok_iff.mp h
    have hfinite := UnitExpr.number_isFinite_iff hk hc
    constructor
    · rintro ⟨hf, hne⟩
      exact ⟨hfinite.mp hf, fun hv => hne ((UnitExpr.number_magnitude_eq_zero hk hc hf).mpr hv)⟩
    · rintro ⟨hu, hv⟩
      have hf := hfinite.mpr hu
      exact ⟨hf, fun hzero => hv ((UnitExpr.number_magnitude_eq_zero hk hc hf).mp hzero)⟩

theorem Reads.unique {unit : Text} {s t : UnitExpr Binary64} (hs : Reads unit s)
    (ht : Reads unit t) : s = t := by
  unfold Reads at hs ht
  split at hs
  · next hblank =>
    rw [if_pos hblank] at ht
    rw [hs, ht]
  · next hblank =>
    rw [if_neg hblank] at ht
    exact Except.ok.inj (hs.symm.trans ht)

end Nodes

section Soundness
variable [MathLibrary]

/-- A conversion throws `std::invalid_argument` or returns a finite, nonzero number. -/
def ConversionSound (from_unit to_unit : Text) : Prop :=
  (∃ what, (unit_conversion_factor from_unit to_unit : Except Exn Binary64) =
    .error (.invalidArgument what)) ∨
  ∃ factor : Binary64, unit_conversion_factor from_unit to_unit = .ok factor ∧
    FiniteNonzero factor

/-- Two units of one dimension that pass every check of their nodes, though one of them is spelled
as an infinity or not a number, or vanishes, or their factors are too far apart for a double. -/
def Degenerate (from_unit to_unit : Text) : Prop :=
  from_unit ≠ [] ∧ to_unit ≠ [] ∧ ∃ s t : UnitExpr Binary64, Reads from_unit s ∧ Reads to_unit t ∧
    s.Checked ∧ t.Checked ∧ s.dimension.beq t.dimension = true ∧
      (s.Unbounded ∨ t.Unbounded ∨ s.Vanishes ∨ t.Vanishes ∨
        s.number.magnitude / t.number.magnitude ≤ halfLeast ∨
        overflow ≤ s.number.magnitude / t.number.magnitude)

/-- Of two nonempty units, the final quotient is all that can be returned. -/
theorem conversion_cases {from_unit to_unit : Text} (hfrom : from_unit ≠ []) (hto : to_unit ≠ []) :
    (∃ what, (unit_conversion_factor from_unit to_unit : Except Exn Binary64) =
      .error (.invalidArgument what)) ∧
      (∀ u v : UnitValue Binary64, parse_unit_expression from_unit = .ok u →
        parse_unit_expression to_unit = .ok v → ¬ u.dim.beq v.dim = true) ∨
    ∃ u v : UnitValue Binary64, parse_unit_expression from_unit = .ok u ∧
      parse_unit_expression to_unit = .ok v ∧ u.dim.beq v.dim = true ∧
      unit_conversion_factor from_unit to_unit = .ok (u.factor / v.factor) := by
  have hne : ¬ (from_unit = [] ∨ to_unit = []) := by
    rintro (h | h)
    · exact hfrom h
    · exact hto h
  cases hu : (parse_unit_expression from_unit : Except Exn (UnitValue Binary64)) with
  | error e =>
    obtain ⟨what, rfl⟩ := throws_parse_unit_expression _ e hu
    refine Or.inl ⟨⟨what, ?_⟩, fun u v h => by cases h⟩
    simp only [unit_conversion_factor, if_neg hne, hu, bind, Except.bind]
  | ok u =>
    cases hv : (parse_unit_expression to_unit : Except Exn (UnitValue Binary64)) with
    | error e =>
      obtain ⟨what, rfl⟩ := throws_parse_unit_expression _ e hv
      refine Or.inl ⟨⟨what, ?_⟩, fun u v _ h => by cases h⟩
      simp only [unit_conversion_factor, if_neg hne, hu, hv, bind, Except.bind]
    | ok v =>
      by_cases hdim : u.dim.beq v.dim = true
      · exact Or.inr ⟨u, v, rfl, rfl, hdim, unit_conversion_factor_eq hfrom hto hu hv hdim⟩
      · refine Or.inl ⟨⟨"dimension mismatch: '" ++ String.ofList from_unit ++ "' has dimension " ++
          u.dim.to_string ++ " but '" ++ String.ofList to_unit ++ "' has dimension " ++
          v.dim.to_string, ?_⟩, fun u' v' hu' hv' => by cases hu'; cases hv'; exact hdim⟩
        simp only [unit_conversion_factor, if_neg hne, hu, hv, bind, Except.bind, hdim,
          Bool.not_false, if_true, throw, throwThe, MonadExceptOf.throw]

/-- A finite, nonzero factor or an error is what every pair of units gets that is not degenerate. -/
theorem conversionSound_iff (from_unit to_unit : Text) :
    ConversionSound from_unit to_unit ↔ ¬ Degenerate from_unit to_unit := by
  by_cases hempty : from_unit = [] ∨ to_unit = []
  · have hone : unit_conversion_factor from_unit to_unit = .ok (1 : Binary64) := by
      rw [unit_conversion_factor, if_pos hempty]
    refine iff_of_true (Or.inr ⟨1, hone, finiteNonzero_one⟩) ?_
    rintro ⟨hfrom, hto, -⟩
    exact hempty.elim hfrom hto
  obtain ⟨hfrom, hto⟩ := not_or.mp hempty
  rcases conversion_cases hfrom hto with ⟨herror, hdim⟩ | ⟨u, v, hu, hv, hdim, hfactor⟩
  · refine iff_of_true (Or.inl herror) ?_
    rintro ⟨-, -, s, t, hs, ht, hsc, htc, hbeq, -⟩
    exact hdim _ _ (parse_unit_expression_eq_ok_iff.mpr ⟨s, hs, hsc, rfl⟩)
      (parse_unit_expression_eq_ok_iff.mpr ⟨t, ht, htc, rfl⟩) hbeq
  obtain ⟨s, hs, hsc, rfl⟩ := parse_unit_expression_eq_ok_iff.mp hu
  obtain ⟨t, ht, htc, rfl⟩ := parse_unit_expression_eq_ok_iff.mp hv
  have hsound : ConversionSound from_unit to_unit ↔ QuotientInRange s.number t.number := by
    rw [← finiteNonzero_div_iff]
    constructor
    · rintro (⟨what, h⟩ | ⟨factor, h, hfinite⟩)
      · cases hfactor.symm.trans h
      · cases hfactor.symm.trans h
        exact hfinite
    · intro h
      exact Or.inr ⟨_, hfactor, h⟩
  rw [hsound, QuotientInRange, hs.finiteNonzero_iff hsc, ht.finiteNonzero_iff htc]
  constructor
  · rintro ⟨⟨hsu, hsv⟩, ⟨htu, htv⟩, hlow, hhigh⟩ ⟨-, -, s', t', hs', ht', -, -, -, hcase⟩
    cases hs.unique hs'
    cases ht.unique ht'
    rcases hcase with h | h | h | h | h | h
    · exact hsu h
    · exact htu h
    · exact hsv h
    · exact htv h
    · exact absurd h (not_le.mpr hlow)
    · exact absurd h (not_le.mpr hhigh)
  · intro h
    have hnot : ¬ (s.Unbounded ∨ t.Unbounded ∨ s.Vanishes ∨ t.Vanishes ∨
        s.number.magnitude / t.number.magnitude ≤ halfLeast ∨
        overflow ≤ s.number.magnitude / t.number.magnitude) :=
      fun hcase => h ⟨hfrom, hto, s, t, hs, ht, hsc, htc, hdim, hcase⟩
    push Not at hnot
    obtain ⟨hsu, htu, hsv, htv, hlow, hhigh⟩ := hnot
    exact ⟨⟨hsu, hsv⟩, ⟨htu, htv⟩, hlow, hhigh⟩

end Soundness

/-- A metre times a numeral beyond the doubles is an infix expression that no tree is built for. -/
theorem not_infix_standard_parse : ¬ ∀ (_ : MathLibrary) (unit : Text),
    Infix (IsAtom Binary64) (dropSpace unit) →
      ∃ t : UnitExpr Binary64, parseTree (tokenize unit) = .ok t := by
  intro h
  let _ : MathLibrary := plainLibrary
  have hmeter : IsAtom Binary64 ['m'] := by
    refine Or.inl ?_
    rw [← Option.isSome_iff_ne_none]
    decide +kernel
  have hnumeral : IsAtom Binary64 "1e999".toList :=
    Or.inr ⟨[], ['1'], [], "e999".toList, rfl, by decide, by simp [IsDigits, isDigit, digitValue],
      Or.inl ⟨rfl, by decide⟩, Or.inr ⟨'e', [], "999".toList, rfl, by decide, by decide,
        by simp [IsDigits, isDigit, digitValue], by decide⟩⟩
  have hinfix : Infix (IsAtom Binary64) (dropSpace "1e999*m".toList) :=
    (Infix.atom hnumeral).mul (.atom hmeter)
  have hmem : .value "1e999".toList ∈ tokenize "1e999*m".toList := by decide
  have hnone : (leafValue "1e999".toList : Option (UnitValue Binary64)).isSome = false := by
    decide +kernel
  obtain ⟨-, hknown⟩ := (exists_parseTree_iff _).mp (h plainLibrary _ hinfix)
  exact hknown _ hmem (by simpa using hnone)

/-- The factor of `0*m` over `m` is zero. -/
theorem not_conversionSound : ¬ ∀ (_ : MathLibrary) (from_unit to_unit : Text),
    ConversionSound from_unit to_unit := by
  intro h
  let _ : MathLibrary := plainLibrary
  have hzero : unit_conversion_factor "0*m".toList "m".toList = .ok (0 : Binary64) := by
    decide +kernel
  rcases h plainLibrary "0*m".toList "m".toList with ⟨what, hw⟩ | ⟨factor, hf, hn⟩
  · cases hzero.symm.trans hw
  · cases hzero.symm.trans hf
    exact finiteNonzero_finite.mp hn rfl

end Rgpot.Units
