import Rgpot.Lib.Numerals

/-! Binary floating point: magnitudes counted in units of the least one, rounded to nearest even. -/

/-- A format: the bits behind the leading one, the unit `2^-bias` and the least power `2^top` of
units that is too large. -/
structure BinaryFormat where
  fraction : ℕ
  bias : ℕ
  top : ℕ
  fraction_pos : 0 < fraction
  fraction_lt : fraction < bias
  bias_lt : bias < top

namespace BinaryFormat

/-- Rounds to the nearer integer, and half way to the even one. -/
def roundHalfEven (y : ℚ) : ℕ :=
  let f := ⌊y⌋₊
  if y - f < 1 / 2 ∨ y - f = 1 / 2 ∧ f % 2 = 0 then f else f + 1

theorem floor_le_roundHalfEven (y : ℚ) : ⌊y⌋₊ ≤ roundHalfEven y := by
  unfold roundHalfEven
  simp only
  split <;> omega

@[simp] theorem roundHalfEven_natCast (n : ℕ) : roundHalfEven (n : ℚ) = n := by
  simp [roundHalfEven]

theorem roundHalfEven_le {y : ℚ} {n : ℕ} (h : y ≤ n) : roundHalfEven y ≤ n := by
  rcases h.lt_or_eq with h | rfl
  · rcases le_or_gt 0 y with hy | hy
    · have hf : ⌊y⌋₊ < n := (Nat.floor_lt hy).mpr h
      unfold roundHalfEven
      simp only
      split <;> omega
    · have hf : ⌊y⌋₊ = 0 := Nat.floor_of_nonpos hy.le
      unfold roundHalfEven
      simp only [hf, Nat.cast_zero, sub_zero]
      rw [if_pos (Or.inl (by linarith))]
      exact Nat.zero_le n
  · rw [roundHalfEven_natCast]

/-- Below an even number by at most a half is rounded up to it. -/
theorem roundHalfEven_lt_iff {y : ℚ} {n : ℕ} (hn : 0 < n) (heven : n % 2 = 0) :
    roundHalfEven y < n ↔ y < n - 1 / 2 := by
  have hcast : ((n - 1 : ℕ) : ℚ) = n - 1 := by
    rw [Nat.cast_sub hn, Nat.cast_one]
  rcases lt_or_ge y (n - 1 : ℕ) with hlow | hlow
  · have hle := roundHalfEven_le hlow.le
    rw [hcast] at hlow
    exact ⟨fun _ => by linarith, fun _ => by omega⟩
  · rcases lt_or_ge y n with hhigh | hhigh
    · have hf : ⌊y⌋₊ = n - 1 := by
        rw [Nat.floor_eq_iff ((Nat.cast_nonneg _).trans hlow)]
        refine ⟨hlow, ?_⟩
        rw [hcast]
        linarith
      have hodd : (n - 1) % 2 ≠ 0 := by omega
      unfold roundHalfEven
      simp only [hf, hodd, and_false, or_false, hcast]
      split
      · next h =>
        refine ⟨fun _ => by linarith, fun _ => by omega⟩
      · next h =>
        refine ⟨fun h' => by omega, fun h' => (h (by linarith)).elim⟩
    · have hf : n ≤ ⌊y⌋₊ := Nat.le_floor hhigh
      have hle := hf.trans (floor_le_roundHalfEven y)
      exact ⟨fun h => by omega, fun h => by linarith⟩

theorem roundHalfEven_eq_zero_iff {y : ℚ} : roundHalfEven y = 0 ↔ y ≤ 1 / 2 := by
  constructor
  · intro h
    by_contra hy
    have hy' : (1 : ℚ) / 2 < y := not_le.mp hy
    unfold roundHalfEven at h
    simp only at h
    split at h
    · next hc =>
      rw [h, Nat.cast_zero, sub_zero] at hc
      rcases hc with hc | ⟨hc, -⟩ <;> linarith
    · omega
  · intro h
    have hf : ⌊y⌋₊ = 0 := by
      rw [Nat.floor_eq_zero]
      linarith
    unfold roundHalfEven
    simp only [hf, Nat.cast_zero, sub_zero]
    rw [if_pos]
    rcases h.lt_or_eq with h | h
    · exact Or.inl h
    · exact Or.inr ⟨h, trivial⟩

variable (F : BinaryFormat)

/-- The power of two between neighbours at `x` units. -/
def step (x : ℚ) : ℕ := Nat.log2 ⌊x⌋₊ - F.fraction

/-- A magnitude of `x` units, rounded to the format's precision. -/
def round (x : ℚ) : ℕ := roundHalfEven (x / 2 ^ F.step x) * 2 ^ F.step x

/-- A magnitude of the format. -/
def Representable (n : ℕ) : Prop := F.round n = n ∧ n < 2 ^ F.top

instance (n : ℕ) : Decidable (F.Representable n) := inferInstanceAs (Decidable (_ ∧ _))

variable {F}

theorem step_of_small {x : ℚ} (h : ⌊x⌋₊ < 2 ^ (F.fraction + 1)) : F.step x = 0 := by
  rcases Nat.eq_zero_or_pos ⌊x⌋₊ with h0 | h0
  · simp [step, h0]
  · have := (Nat.log2_lt h0.ne').mpr h
    unfold step
    omega

/-- Past the precision, the scaled magnitude has exactly the leading one and the fraction. -/
theorem scaled_bounds {x : ℚ} (hx : 0 ≤ x) : x / 2 ^ F.step x < 2 ^ (F.fraction + 1) ∧
    (F.step x ≠ 0 → 2 ^ F.fraction ≤ x / 2 ^ F.step x) := by
  have hpow : (0 : ℚ) < 2 ^ F.step x := by positivity
  have hupper : x < 2 ^ (Nat.log2 ⌊x⌋₊ + 1) := by
    have h : ⌊x⌋₊ < 2 ^ (Nat.log2 ⌊x⌋₊ + 1) := Nat.lt_log2_self
    exact_mod_cast (Nat.floor_lt hx).mp h
  constructor
  · rw [div_lt_iff₀ hpow, ← pow_add]
    refine hupper.trans_le (pow_le_pow_right₀ (by norm_num) ?_)
    unfold step
    omega
  · intro hstep
    rw [le_div_iff₀ hpow, ← pow_add]
    have hne : ⌊x⌋₊ ≠ 0 := by
      intro h0
      simp [step, h0] at hstep
    have hlower : (2 : ℚ) ^ Nat.log2 ⌊x⌋₊ ≤ x := by
      have h : 2 ^ Nat.log2 ⌊x⌋₊ ≤ ⌊x⌋₊ := Nat.log2_self_le hne
      exact_mod_cast (Nat.le_floor_iff hx).mp h
    have hexp : F.fraction + F.step x = Nat.log2 ⌊x⌋₊ := by
      unfold step at hstep ⊢
      omega
    rwa [hexp]

/-- A product of a short integer and a power of two is exact. -/
theorem round_short {k s : ℕ} (hk : k < 2 ^ (F.fraction + 1)) (hs : s ≠ 0 → 2 ^ F.fraction ≤ k) :
    F.round ((k * 2 ^ s : ℕ) : ℚ) = k * 2 ^ s := by
  have hstep : F.step ((k * 2 ^ s : ℕ) : ℚ) = s := by
    rcases Nat.eq_zero_or_pos s with rfl | hpos
    · apply step_of_small
      simpa using hk
    · have hk0 : k ≠ 0 := by
        intro h0
        have := hs hpos.ne'
        rw [h0] at this
        exact absurd (pow_pos (by norm_num) F.fraction) (not_lt.mpr this)
      have hlog : Nat.log2 (k * 2 ^ s) = F.fraction + s := by
        rw [Nat.log2_eq_iff (by positivity)]
        constructor
        · rw [pow_add]
          exact Nat.mul_le_mul_right _ (hs hpos.ne')
        · rw [show F.fraction + s + 1 = F.fraction + 1 + s by omega, pow_add]
          exact Nat.mul_lt_mul_of_pos_right hk (by positivity)
      unfold step
      rw [Nat.floor_natCast, hlog]
      omega
  have hscaled : ((k * 2 ^ s : ℕ) : ℚ) / 2 ^ s = (k : ℕ) := by
    push_cast
    field_simp
  rw [round, hstep, hscaled, roundHalfEven_natCast]

/-- Rounding again changes nothing. -/
theorem round_round {x : ℚ} (hx : 0 ≤ x) : F.round (F.round x : ℚ) = F.round x := by
  obtain ⟨hupper, hlower⟩ := scaled_bounds (F := F) hx
  set s := F.step x with hs
  set k := roundHalfEven (x / 2 ^ s) with hk
  have hround : F.round x = k * 2 ^ s := rfl
  have hkle : k ≤ 2 ^ (F.fraction + 1) := roundHalfEven_le (by exact_mod_cast hupper.le)
  have hklow : s ≠ 0 → 2 ^ F.fraction ≤ k := by
    intro h0
    have hfloor : 2 ^ F.fraction ≤ ⌊x / 2 ^ s⌋₊ := Nat.le_floor (by exact_mod_cast hlower h0)
    exact hfloor.trans (floor_le_roundHalfEven _)
  rw [hround]
  rcases hkle.lt_or_eq with hlt | heq
  · exact round_short hlt hklow
  · -- a carry into the next power of two
    have hcarry : k * 2 ^ s = 2 ^ F.fraction * 2 ^ (s + 1) := by
      rw [heq]
      ring
    rw [hcarry]
    exact round_short (Nat.pow_lt_pow_right (by norm_num) (by omega)) fun _ => le_rfl

theorem round_eq_zero_iff {x : ℚ} (hx : 0 ≤ x) : F.round x = 0 ↔ x ≤ 1 / 2 := by
  rw [round, Nat.mul_eq_zero, roundHalfEven_eq_zero_iff]
  have hpow : 2 ^ F.step x ≠ 0 := by positivity
  simp only [hpow, or_false]
  rcases Nat.eq_zero_or_pos (F.step x) with h0 | hpos
  · rw [h0, pow_zero, div_one]
  · have hlow := (scaled_bounds (F := F) hx).2 hpos.ne'
    have hone : (1 : ℚ) ≤ 2 ^ F.fraction := one_le_pow₀ (by norm_num)
    have hle : x / 2 ^ F.step x ≤ x := div_le_self hx (one_le_pow₀ (by norm_num))
    constructor
    · intro h
      linarith
    · intro h
      linarith

/-- What rounds below the top power lies below it by more than half a step. -/
theorem round_lt_iff {x : ℚ} (hx : 0 ≤ x) :
    F.round x < 2 ^ F.top ↔ x < 2 ^ F.top - 2 ^ (F.top - F.fraction - 2) := by
  have hfmt := F.fraction_lt
  have hfmt' := F.bias_lt
  obtain ⟨hupper, hlower⟩ := scaled_bounds (F := F) hx
  have hhalf : (2 : ℚ) ^ (F.top - F.fraction - 2) ≤ 2 ^ (F.top - 1) :=
    pow_le_pow_right₀ (by norm_num) (by omega)
  have htop : (2 : ℚ) ^ F.top = 2 * 2 ^ (F.top - 1) := by
    rw [← pow_succ', show F.top - 1 + 1 = F.top by omega]
  rcases lt_or_ge x (2 ^ (F.top - 1)) with hsmall | hlarge
  · have hround : F.round x ≤ 2 ^ (F.top - 1) := by
      have hstep : F.fraction + 1 + F.step x ≤ F.top - 1 ∨ F.step x = 0 := by
        by_cases h0 : F.step x = 0
        · exact Or.inr h0
        · left
          have hlog : Nat.log2 ⌊x⌋₊ < F.top - 1 := by
            have hne : ⌊x⌋₊ ≠ 0 := by
              intro h
              simp [step, h] at h0
            apply (Nat.log2_lt hne).mpr
            exact (Nat.floor_lt hx).mpr (by exact_mod_cast hsmall)
          unfold step at h0 ⊢
          omega
      rcases hstep with hstep | h0
      · have hk : roundHalfEven (x / 2 ^ F.step x) ≤ 2 ^ (F.fraction + 1) :=
          roundHalfEven_le (by exact_mod_cast hupper.le)
        calc F.round x ≤ 2 ^ (F.fraction + 1) * 2 ^ F.step x := Nat.mul_le_mul_right _ hk
          _ = 2 ^ (F.fraction + 1 + F.step x) := (pow_add _ _ _).symm
          _ ≤ 2 ^ (F.top - 1) := Nat.pow_le_pow_right (by norm_num) hstep
      · have hk : roundHalfEven x ≤ 2 ^ (F.top - 1) :=
          roundHalfEven_le (by exact_mod_cast hsmall.le)
        simpa [round, h0] using hk
    have hlt : 2 ^ (F.top - 1) < 2 ^ F.top := Nat.pow_lt_pow_right (by norm_num) (by omega)
    refine ⟨fun _ => by linarith, fun _ => by omega⟩
  · have hlog : F.top - 1 ≤ Nat.log2 ⌊x⌋₊ := by
      have hfl : 2 ^ (F.top - 1) ≤ ⌊x⌋₊ := Nat.le_floor (by exact_mod_cast hlarge)
      have hne : ⌊x⌋₊ ≠ 0 := by
        have : 0 < 2 ^ (F.top - 1) := by positivity
        omega
      exact (Nat.le_log2 hne).mpr hfl
    have hs0 : F.step x ≠ 0 := by
      unfold step
      omega
    have hpow : (0 : ℚ) < 2 ^ F.step x := by positivity
    rcases lt_or_ge x (2 ^ F.top) with hlt | hge
    · have hstep : F.step x = F.top - 1 - F.fraction := by
        have hfl : ⌊x⌋₊ < 2 ^ F.top := (Nat.floor_lt hx).mpr (by exact_mod_cast hlt)
        have hne : ⌊x⌋₊ ≠ 0 := by
          intro h
          simp [step, h] at hs0
        have := (Nat.log2_lt hne).mpr hfl
        unfold step
        omega
      have hsplit : 2 ^ F.top = 2 ^ (F.fraction + 1) * 2 ^ F.step x := by
        rw [← pow_add, hstep]
        congr 1
        omega
      have heven : 2 ^ (F.fraction + 1) % 2 = 0 := by
        rw [pow_succ]
        exact Nat.mul_mod_left _ _
      rw [round, hsplit, Nat.mul_lt_mul_right (by positivity),
        roundHalfEven_lt_iff (by positivity) heven, div_lt_iff₀ hpow]
      have hsplit' : (2 : ℚ) ^ F.top = 2 ^ (F.fraction + 1) * 2 ^ F.step x := by
        exact_mod_cast hsplit
      have hhalfstep : (2 : ℚ) ^ (F.top - F.fraction - 2) = 1 / 2 * 2 ^ F.step x := by
        rw [hstep, show F.top - 1 - F.fraction = F.top - F.fraction - 2 + 1 by omega, pow_succ]
        ring
      rw [hsplit', hhalfstep]
      push_cast
      constructor
      · intro h
        linarith
      · intro h
        linarith
    · have hbig : 2 ^ F.top ≤ F.round x := by
        have hfl : 2 ^ F.top ≤ ⌊x⌋₊ := Nat.le_floor (by exact_mod_cast hge)
        have hne : ⌊x⌋₊ ≠ 0 := by
          have : 0 < 2 ^ F.top := by positivity
          omega
        have hlogtop : F.top ≤ Nat.log2 ⌊x⌋₊ := (Nat.le_log2 hne).mpr hfl
        have hk : 2 ^ F.fraction ≤ roundHalfEven (x / 2 ^ F.step x) := by
          have hfloor : 2 ^ F.fraction ≤ ⌊x / 2 ^ F.step x⌋₊ :=
            Nat.le_floor (by exact_mod_cast hlower hs0)
          exact hfloor.trans (floor_le_roundHalfEven _)
        calc 2 ^ F.top ≤ 2 ^ (F.fraction + F.step x) := by
              apply Nat.pow_le_pow_right (by norm_num)
              unfold step
              omega
          _ = 2 ^ F.fraction * 2 ^ F.step x := pow_add _ _ _
          _ ≤ F.round x := Nat.mul_le_mul_right _ hk
      have hpos : (0 : ℚ) < 2 ^ (F.top - F.fraction - 2) := by positivity
      refine ⟨fun h => by omega, fun h => by linarith⟩

end BinaryFormat

/-- A number of the format; zeros and infinities keep their sign. -/
inductive BinaryFloat (F : BinaryFormat) where
  | finite (neg : Bool) (units : ℕ) (representable : F.Representable units)
  | infinity (neg : Bool)
  | nan
  deriving DecidableEq

namespace BinaryFloat
open BinaryFormat
variable {F : BinaryFormat}

theorem representable_zero : F.Representable 0 := by
  have hround := round_short (F := F) (k := 0) (s := 0) (by positivity) fun h => (h rfl).elim
  simp only [Nat.zero_mul] at hround
  exact ⟨hround, by positivity⟩

theorem representable_one : F.Representable (2 ^ F.bias) := by
  have hround := round_short (F := F) (k := 2 ^ F.fraction) (s := F.bias - F.fraction)
    (Nat.pow_lt_pow_right (by norm_num) (Nat.lt_succ_self _)) fun _ => le_rfl
  have hle := F.fraction_lt.le
  rw [← pow_add, Nat.add_sub_cancel' hle] at hround
  exact ⟨hround, Nat.pow_lt_pow_right (by norm_num) F.bias_lt⟩

/-- The number nearest to a magnitude of `|x|` units, infinite from the top power on. -/
def ofUnits (neg : Bool) (x : ℚ) : BinaryFloat F :=
  if h : F.round |x| < 2 ^ F.top then finite neg (F.round |x|) ⟨round_round (abs_nonneg x), h⟩
  else infinity neg

/-- A signed count of units. -/
def signed (neg : Bool) (units : ℕ) : ℤ := if neg then -units else units

def add : BinaryFloat F → BinaryFloat F → BinaryFloat F
  | nan, _ | _, nan => nan
  | infinity s, infinity t => if s = t then infinity s else nan
  | infinity s, finite _ _ _ | finite _ _ _, infinity s => infinity s
  | finite s u _, finite t v _ =>
    let z := signed s u + signed t v
    if z = 0 then finite (s && t) 0 representable_zero else ofUnits (z < 0) z

def neg : BinaryFloat F → BinaryFloat F
  | finite s u h => finite (!s) u h
  | infinity s => infinity (!s)
  | nan => nan

def mul : BinaryFloat F → BinaryFloat F → BinaryFloat F
  | nan, _ | _, nan => nan
  | infinity s, infinity t => infinity (s ^^ t)
  | infinity s, finite t u _ | finite s u _, infinity t => if u = 0 then nan else infinity (s ^^ t)
  | finite s u _, finite t v _ => ofUnits (s ^^ t) (u * v / 2 ^ F.bias)

def div : BinaryFloat F → BinaryFloat F → BinaryFloat F
  | nan, _ | _, nan | infinity _, infinity _ => nan
  | infinity s, finite t _ _ => infinity (s ^^ t)
  | finite s _ _, infinity t => finite (s ^^ t) 0 representable_zero
  | finite s u _, finite t v _ =>
    if v = 0 then if u = 0 then nan else infinity (s ^^ t)
    else ofUnits (s ^^ t) (u * 2 ^ F.bias / v)

/-- Less than; false with a NaN on either side. -/
def lt : BinaryFloat F → BinaryFloat F → Bool
  | nan, _ | _, nan => false
  | infinity s, infinity t => s && !t
  | infinity s, finite _ _ _ => s
  | finite _ _ _, infinity t => !t
  | finite s u _, finite t v _ => signed s u < signed t v

/-- At most; false with a NaN on either side. -/
def le : BinaryFloat F → BinaryFloat F → Bool
  | nan, _ | _, nan => false
  | infinity s, infinity t => s || !t
  | infinity s, finite _ _ _ => s
  | finite _ _ _, infinity t => !t
  | finite s u _, finite t v _ => signed s u ≤ signed t v

instance : LT (BinaryFloat F) := ⟨fun a b => a.lt b = true⟩
instance : LE (BinaryFloat F) := ⟨fun a b => a.le b = true⟩
instance : DecidableLT (BinaryFloat F) := fun a b => inferInstanceAs (Decidable (a.lt b = true))
instance : DecidableLE (BinaryFloat F) := fun a b => inferInstanceAs (Decidable (a.le b = true))

instance : Zero (BinaryFloat F) := ⟨finite false 0 representable_zero⟩
instance : One (BinaryFloat F) := ⟨finite false (2 ^ F.bias) representable_one⟩
instance : Add (BinaryFloat F) := ⟨add⟩
instance : Neg (BinaryFloat F) := ⟨neg⟩
instance : Sub (BinaryFloat F) := ⟨fun a b => a + -b⟩
instance : Mul (BinaryFloat F) := ⟨mul⟩
instance : Div (BinaryFloat F) := ⟨div⟩

def isFinite : BinaryFloat F → Bool
  | finite _ _ _ => true
  | infinity _ | nan => false

/-- The absolute value of a finite number. -/
def magnitude : BinaryFloat F → ℚ
  | finite _ u _ => u / 2 ^ F.bias
  | infinity _ | nan => 0

/-- Finite and not a zero. -/
def FiniteNonzero (a : BinaryFloat F) : Prop := a.isFinite = true ∧ a.magnitude ≠ 0

theorem finiteNonzero_finite {neg : Bool} {u : ℕ} {h : F.Representable u} :
    FiniteNonzero (finite neg u h) ↔ u ≠ 0 := by
  have hpow : (2 : ℚ) ^ F.bias ≠ 0 := by positivity
  simp [FiniteNonzero, isFinite, magnitude, hpow]

theorem finiteNonzero_one : FiniteNonzero (1 : BinaryFloat F) :=
  finiteNonzero_finite.mpr (by positivity)

theorem ofUnits_of_representable {neg : Bool} {u : ℕ} (h : F.Representable u) :
    ofUnits neg (u : ℚ) = finite neg u h := by
  have habs : F.round |(u : ℚ)| = u := by
    rw [Nat.abs_cast]
    exact h.1
  unfold ofUnits
  rw [dif_pos (by rw [habs]; exact h.2)]
  congr 1

instance : MulOneClass (BinaryFloat F) where
  one_mul a := by
    cases a with
    | finite t v h =>
      have hunits : ((2 ^ F.bias : ℕ) : ℚ) * v / 2 ^ F.bias = v := by
        push_cast
        field_simp
      change ofUnits (false ^^ t) (((2 ^ F.bias : ℕ) : ℚ) * v / 2 ^ F.bias) = _
      rw [hunits, Bool.false_xor, ofUnits_of_representable h]
    | infinity t =>
      have hne : (2 ^ F.bias : ℕ) ≠ 0 := by positivity
      change (if (2 ^ F.bias : ℕ) = 0 then nan else infinity (false ^^ t)) = _
      rw [if_neg hne, Bool.false_xor]
    | nan => rfl
  mul_one a := by
    cases a with
    | finite t v h =>
      have hunits : (v : ℚ) * ((2 ^ F.bias : ℕ) : ℚ) / 2 ^ F.bias = v := by
        push_cast
        field_simp
      change ofUnits (t ^^ false) ((v : ℚ) * ((2 ^ F.bias : ℕ) : ℚ) / 2 ^ F.bias) = _
      rw [hunits, Bool.xor_false, ofUnits_of_representable h]
    | infinity t =>
      have hne : (2 ^ F.bias : ℕ) ≠ 0 := by positivity
      change (if (2 ^ F.bias : ℕ) = 0 then nan else infinity (t ^^ false)) = _
      rw [if_neg hne, Bool.xor_false]
    | nan => rfl

theorem finiteNonzero_ofUnits {neg : Bool} {x : ℚ} (hx : 0 ≤ x) :
    FiniteNonzero (ofUnits neg x : BinaryFloat F) ↔
      1 / 2 < x ∧ x < 2 ^ F.top - 2 ^ (F.top - F.fraction - 2) := by
  have habs : F.round |x| = F.round x := by rw [abs_of_nonneg hx]
  have hzero := round_eq_zero_iff (F := F) hx
  have htop := round_lt_iff (F := F) hx
  rw [← habs] at hzero htop
  unfold ofUnits
  split
  · next h =>
    refine finiteNonzero_finite.trans ?_
    rw [ne_eq, hzero, not_le, ← htop]
    exact ⟨fun h' => ⟨h', h⟩, fun h' => h'.1⟩
  · next h =>
    constructor
    · intro h'
      exact absurd h'.1 (by simp [isFinite])
    · rintro ⟨-, h'⟩
      exact (h (htop.mpr h')).elim

theorem magnitude_finite_eq_zero {neg : Bool} {u : ℕ} {h : F.Representable u} :
    (finite neg u h).magnitude = 0 ↔ u = 0 := by
  have hpow : (2 : ℚ) ^ F.bias ≠ 0 := by positivity
  simp [magnitude, hpow]

/-- What is rounded to zero is at most half the least magnitude. -/
theorem magnitude_ofUnits_eq_zero {neg : Bool} {x : ℚ} (hx : 0 ≤ x)
    (h : (ofUnits neg x : BinaryFloat F).isFinite = true) :
    (ofUnits neg x : BinaryFloat F).magnitude = 0 ↔ x ≤ 1 / 2 := by
  have habs : F.round |x| = F.round x := by rw [abs_of_nonneg hx]
  unfold ofUnits at h ⊢
  split at h
  · next htop =>
    rw [dif_pos htop]
    exact magnitude_finite_eq_zero.trans (by rw [habs, round_eq_zero_iff hx])
  · cases h

theorem mul_finite (s t : Bool) {u v : ℕ} (hu : F.Representable u) (hv : F.Representable v) :
    finite s u hu * finite t v hv = (ofUnits (s ^^ t) (u * v / 2 ^ F.bias) : BinaryFloat F) := rfl

theorem div_finite (s t : Bool) {u v : ℕ} (hu : F.Representable u) (hv : F.Representable v)
    (hv0 : v ≠ 0) :
    finite s u hu / finite t v hv = (ofUnits (s ^^ t) (u * 2 ^ F.bias / v) : BinaryFloat F) := by
  change (if v = 0 then if u = 0 then nan else infinity (s ^^ t)
    else ofUnits (s ^^ t) (u * 2 ^ F.bias / v)) = _
  rw [if_neg hv0]

/-- A finite product has finite operands. -/
theorem isFinite_of_mul {a b : BinaryFloat F} (h : (a * b).isFinite = true) :
    a.isFinite = true ∧ b.isFinite = true := by
  have not_infinity : ∀ (u : ℕ) (s : Bool),
      (if u = 0 then nan else infinity s : BinaryFloat F).isFinite ≠ true := by
    intro u s
    split <;> simp [isFinite]
  cases a with
  | nan => cases h
  | infinity s =>
    cases b with
    | nan => cases h
    | infinity t => cases h
    | finite t v hv => exact (not_infinity v _ h).elim
  | finite s u hu =>
    cases b with
    | nan => cases h
    | infinity t => exact (not_infinity u _ h).elim
    | finite t v hv => exact ⟨rfl, rfl⟩

/-- A finite product is zero when the exact one is at most half the least magnitude. -/
theorem magnitude_mul_eq_zero {a b : BinaryFloat F} (h : (a * b).isFinite = true) :
    (a * b).magnitude = 0 ↔ a.magnitude * b.magnitude ≤ 1 / 2 ^ (F.bias + 1) := by
  obtain ⟨ha, hb⟩ := isFinite_of_mul h
  cases a with
  | nan | infinity _ => cases ha
  | finite s u hu =>
    cases b with
    | nan | infinity _ => cases hb
    | finite t v hv =>
      have hpow : (0 : ℚ) < 2 ^ F.bias := by positivity
      rw [mul_finite] at h ⊢
      rw [magnitude_ofUnits_eq_zero (by positivity) h, magnitude, magnitude, pow_succ', ← div_div,
        le_div_iff₀ hpow]
      field_simp

/-- A finite quotient has a finite numerator, over a number that is infinite or no zero. -/
theorem isFinite_of_div {a b : BinaryFloat F} (h : (a / b).isFinite = true) :
    a.isFinite = true ∧ ((∃ s, b = infinity s) ∨ FiniteNonzero b) := by
  cases a with
  | nan => cases h
  | infinity s => cases b <;> cases h
  | finite s u hu =>
    refine ⟨rfl, ?_⟩
    cases b with
    | nan => cases h
    | infinity t => exact Or.inl ⟨t, rfl⟩
    | finite t v hv =>
      refine Or.inr (finiteNonzero_finite.mpr ?_)
      rintro rfl
      change (if u = 0 then nan else infinity (s ^^ t) : BinaryFloat F).isFinite = true at h
      split at h <;> cases h

/-- A finite number over an infinite one is zero. -/
theorem magnitude_div_infinity (a : BinaryFloat F) (s : Bool) : (a / infinity s).magnitude = 0 := by
  cases a with
  | finite t u h => exact magnitude_finite_eq_zero.mpr rfl
  | infinity _ | nan => rfl

/-- A finite quotient is zero when the exact one is at most half the least magnitude. -/
theorem magnitude_div_eq_zero {a b : BinaryFloat F} (h : (a / b).isFinite = true)
    (hb : FiniteNonzero b) :
    (a / b).magnitude = 0 ↔ a.magnitude / b.magnitude ≤ 1 / 2 ^ (F.bias + 1) := by
  obtain ⟨ha, -⟩ := isFinite_of_div h
  cases a with
  | nan | infinity _ => cases ha
  | finite s u hu =>
    cases b with
    | nan | infinity _ => cases hb.1
    | finite t v hv =>
      have hv0 := finiteNonzero_finite.mp hb
      have hvpos : (0 : ℚ) < v := by exact_mod_cast Nat.pos_of_ne_zero hv0
      have hpow : (0 : ℚ) < 2 ^ F.bias := by positivity
      rw [div_finite s t hu hv hv0] at h ⊢
      rw [magnitude_ofUnits_eq_zero (by positivity) h, magnitude, magnitude, pow_succ', ← div_div,
        le_div_iff₀ hpow]
      field_simp

/-- Two finite nonzero numbers whose quotient neither rounds to zero nor overflows. -/
def QuotientInRange (a b : BinaryFloat F) : Prop :=
  FiniteNonzero a ∧ FiniteNonzero b ∧ 1 / 2 ^ (F.bias + 1) < a.magnitude / b.magnitude ∧
    a.magnitude / b.magnitude < (2 ^ F.top - 2 ^ (F.top - F.fraction - 2)) / 2 ^ F.bias

theorem finiteNonzero_div_iff (a b : BinaryFloat F) :
    FiniteNonzero (a / b) ↔ QuotientInRange a b := by
  have not_nan : ¬ FiniteNonzero (nan : BinaryFloat F) := fun h => absurd h.1 (by simp [isFinite])
  have not_infinity : ∀ s, ¬ FiniteNonzero (infinity s : BinaryFloat F) :=
    fun s h => absurd h.1 (by simp [isFinite])
  cases a with
  | nan => exact iff_of_false not_nan fun h => not_nan h.1
  | infinity s =>
    refine iff_of_false ?_ fun h => not_infinity s h.1
    cases b with
    | finite t _ _ => exact not_infinity _
    | infinity _ => exact not_nan
    | nan => exact not_nan
  | finite s u hu =>
    cases b with
    | nan => exact iff_of_false not_nan fun h => not_nan h.2.1
    | infinity t =>
      refine iff_of_false ?_ fun h => not_infinity t h.2.1
      intro h
      exact finiteNonzero_finite.mp h rfl
    | finite t v hv =>
      by_cases hv0 : v = 0
      · refine iff_of_false ?_ fun h => finiteNonzero_finite.mp h.2.1 hv0
        change ¬ FiniteNonzero (if v = 0 then if u = 0 then nan else infinity (s ^^ t)
          else ofUnits (s ^^ t) (u * 2 ^ F.bias / v))
        rw [if_pos hv0]
        split
        · exact not_nan
        · exact not_infinity _
      · have hvpos : (0 : ℚ) < v := by exact_mod_cast Nat.pos_of_ne_zero hv0
        have hpow : (0 : ℚ) < 2 ^ F.bias := by positivity
        have hquot :
            (finite s u hu : BinaryFloat F).magnitude / (finite t v hv).magnitude = u / v := by
          simp only [magnitude]
          field_simp
        have hunits : (u : ℚ) * 2 ^ F.bias / v = u / v * 2 ^ F.bias := by ring
        have hlow : (1 : ℚ) / 2 ^ (F.bias + 1) < u / v ↔ 1 / 2 < (u : ℚ) / v * 2 ^ F.bias := by
          rw [← div_lt_iff₀ hpow, pow_succ', div_div]
        rw [div_finite s t hu hv hv0, finiteNonzero_ofUnits (by positivity), QuotientInRange,
          finiteNonzero_finite, finiteNonzero_finite, hquot, hunits, hlow, lt_div_iff₀ hpow]
        constructor
        · rintro ⟨hhalf, hhigh⟩
          refine ⟨?_, hv0, hhalf, hhigh⟩
          rintro rfl
          norm_num at hhalf
        · rintro ⟨-, -, hhalf, hhigh⟩
          exact ⟨hhalf, hhigh⟩

end BinaryFloat
