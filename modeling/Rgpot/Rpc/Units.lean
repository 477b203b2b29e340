import Rgpot.ForceStructs
import Mathlib.Analysis.SpecialFunctions.Pow.Real

/-! The unit expression parser behind `unit_conversion_factor`. -/
namespace Rgpot.Units

/-- A `std::string`, each `char` a byte. -/
abbrev Text := List Char

/-- What `std::strtod` reads off the front of a string. -/
inductive Numeral where
  /-- `m` times ten to the `e`. -/
  | decimal (neg : Bool) (m : ℕ) (e : ℤ)
  /-- `m` times two to the `e`. -/
  | hex (neg : Bool) (m : ℕ) (e : ℤ)
  | infinity (neg : Bool)
  | nan
  deriving DecidableEq

/-- What the parser uses of `double`: the literals of its table, the numbers `std::stod` returns
(none when out of range), the tests for a finite result, `std::pow`, and for dimensions the
comparisons within `1e-10`, `std::round` and `std::to_string`. -/
class Number (K : Type) [Add K] [Sub K] [MulOneClass K] [Div K] [Zero K] where
  /-- The literal `m` times ten to the `e`. -/
  lit : ℤ → ℤ → K
  ofNumeral : Numeral → Option K
  pow : K → K → K
  mulFinite : K → K → Bool
  divFinite : K → K → Bool
  powFinite : K → K → Bool
  /-- `!(std::fabs(a - b) > 1e-10)`. -/
  near : K → K → Bool
  /-- `std::fabs(v) < 1e-10`. -/
  small : K → Bool
  round : K → ℤ
  text : K → String

variable {K : Type} [Add K] [Sub K] [MulOneClass K] [Div K] [Zero K]

/-- Exponents of length, time, mass, charge and temperature. -/
structure Dimension (K : Type) where
  exponents : Fin 5 → K

namespace Dimension

def mul (d other : Dimension K) : Dimension K := ⟨fun i => d.exponents i + other.exponents i⟩

def div (d other : Dimension K) : Dimension K := ⟨fun i => d.exponents i - other.exponents i⟩

def pow (d : Dimension K) (p : K) : Dimension K := ⟨fun i => d.exponents i * p⟩

/-- `operator==`. -/
def beq [Number K] (d other : Dimension K) : Bool :=
  decide (∀ i, Number.near (d.exponents i) (other.exponents i) = true)

variable [Number K]

/-- One factor of `to_string`. -/
def factorText (name : String) (v : K) : String :=
  name ++
    (if Number.small (v - 1) || Number.small (v + 1) then ""
    else if Number.small (v - Number.lit (Number.round v) 0) then "^" ++ toString (Number.round v)
    else "^" ++ Number.text v) ++
    (if Number.small (v + 1) then "^-1" else "")

def to_string (d : Dimension K) : String :=
  let present := (List.finRange 5).filter fun i => !Number.small (d.exponents i)
  if present = [] then "dimensionless"
  else " ".intercalate (present.map fun i : Fin 5 =>
    factorText (["L", "T", "M", "Q", "Th"].getD i.val "") (d.exponents i))

end Dimension

structure UnitValue (K : Type) where
  factor : K
  dim : Dimension K

section Table
variable [Number K]

/-- A dimension with integer exponents. -/
def dimOf (L T M Q Th : ℤ) : Dimension K :=
  ⟨![Number.lit L 0, Number.lit T 0, Number.lit M 0, Number.lit Q 0, Number.lit Th 0]⟩

def DIM_LENGTH : Dimension K := dimOf 1 0 0 0 0
def DIM_TIME : Dimension K := dimOf 0 1 0 0 0
def DIM_MASS : Dimension K := dimOf 0 0 1 0 0
def DIM_CHARGE : Dimension K := dimOf 0 0 0 1 0
def DIM_ENERGY : Dimension K := dimOf 2 (-2) 1 0 0
def DIM_NONE : Dimension K := dimOf 0 0 0 0 0

/-- SI factors, by lower-case name. -/
def BASE_UNITS : List (String × UnitValue K) :=
  [ ("angstrom", ⟨Number.lit 1 (-10), DIM_LENGTH⟩),
    ("a", ⟨Number.lit 1 (-10), DIM_LENGTH⟩),
    ("bohr", ⟨Number.lit 52917721054482 (-24), DIM_LENGTH⟩),
    ("nm", ⟨Number.lit 1 (-9), DIM_LENGTH⟩),
    ("nanometer", ⟨Number.lit 1 (-9), DIM_LENGTH⟩),
    ("meter", ⟨Number.lit 1 0, DIM_LENGTH⟩),
    ("m", ⟨Number.lit 1 0, DIM_LENGTH⟩),
    ("cm", ⟨Number.lit 1 (-2), DIM_LENGTH⟩),
    ("centimeter", ⟨Number.lit 1 (-2), DIM_LENGTH⟩),
    ("mm", ⟨Number.lit 1 (-3), DIM_LENGTH⟩),
    ("millimeter", ⟨Number.lit 1 (-3), DIM_LENGTH⟩),
    ("um", ⟨Number.lit 1 (-6), DIM_LENGTH⟩),
    ("\u00c2\u00b5m", ⟨Number.lit 1 (-6), DIM_LENGTH⟩),
    ("micrometer", ⟨Number.lit 1 (-6), DIM_LENGTH⟩),
    ("ev", ⟨Number.lit 1602176634 (-28), DIM_ENERGY⟩),
    ("mev", ⟨Number.lit 1602176634 (-28) * Number.lit 1 (-3), DIM_ENERGY⟩),
    ("hartree", ⟨Number.lit 4359744722206048 (-33), DIM_ENERGY⟩),
    ("ry", ⟨Number.lit 2179872361103024 (-33), DIM_ENERGY⟩),
    ("rydberg", ⟨Number.lit 2179872361103024 (-33), DIM_ENERGY⟩),
    ("joule", ⟨Number.lit 1 0, DIM_ENERGY⟩),
    ("j", ⟨Number.lit 1 0, DIM_ENERGY⟩),
    ("kcal", ⟨Number.lit 4184 0, DIM_ENERGY⟩),
    ("kj", ⟨Number.lit 1000 0, DIM_ENERGY⟩),
    ("s", ⟨Number.lit 1 0, DIM_TIME⟩),
    ("second", ⟨Number.lit 1 0, DIM_TIME⟩),
    ("ms", ⟨Number.lit 1 (-3), DIM_TIME⟩),
    ("millisecond", ⟨Number.lit 1 (-3), DIM_TIME⟩),
    ("us", ⟨Number.lit 1 (-6), DIM_TIME⟩),
    ("\u00c2\u00b5s", ⟨Number.lit 1 (-6), DIM_TIME⟩),
    ("microsecond", ⟨Number.lit 1 (-6), DIM_TIME⟩),
    ("ns", ⟨Number.lit 1 (-9), DIM_TIME⟩),
    ("nanosecond", ⟨Number.lit 1 (-9), DIM_TIME⟩),
    ("ps", ⟨Number.lit 1 (-12), DIM_TIME⟩),
    ("picosecond", ⟨Number.lit 1 (-12), DIM_TIME⟩),
    ("fs", ⟨Number.lit 1 (-15), DIM_TIME⟩),
    ("femtosecond", ⟨Number.lit 1 (-15), DIM_TIME⟩),
    ("u", ⟨Number.lit 16605390689252 (-40), DIM_MASS⟩),
    ("dalton", ⟨Number.lit 16605390689252 (-40), DIM_MASS⟩),
    ("kg", ⟨Number.lit 1 0, DIM_MASS⟩),
    ("kilogram", ⟨Number.lit 1 0, DIM_MASS⟩),
    ("g", ⟨Number.lit 1 (-3), DIM_MASS⟩),
    ("gram", ⟨Number.lit 1 (-3), DIM_MASS⟩),
    ("electron_mass", ⟨Number.lit 9109383713928 (-43), DIM_MASS⟩),
    ("m_e", ⟨Number.lit 9109383713928 (-43), DIM_MASS⟩),
    ("e", ⟨Number.lit 1602176634 (-28), DIM_CHARGE⟩),
    ("coulomb", ⟨Number.lit 1 0, DIM_CHARGE⟩),
    ("c", ⟨Number.lit 1 0, DIM_CHARGE⟩),
    ("mol", ⟨Number.lit 602214076 15, DIM_NONE⟩),
    ("hbar", ⟨Number.lit 10545718176462 (-47), dimOf 2 (-1) 1 0 0⟩) ]

end Table

inductive Token where
  | lparen
  | rparen
  | mul
  | div
  | pow
  | value (value : Text)
  deriving DecidableEq

namespace Token

def precedence : Token → ℤ
  | lparen | rparen => 0
  | mul | div => 10
  | pow => 20
  | value _ => -1

def as_str : Token → Text
  | lparen => ['(']
  | rparen => [')']
  | mul => ['*']
  | div => ['/']
  | pow => ['^']
  | value v => v

end Token

def operator : Char → Option Token
  | '*' => some .mul
  | '/' => some .div
  | '^' => some .pow
  | '(' => some .lparen
  | ')' => some .rparen
  | _ => none

/-- `std::isspace` of the C locale. -/
def isspace (c : Char) : Bool :=
  c == ' ' || c == '\t' || c == '\n' || c == '\u000b' || c == '\u000c' || c == '\r'

def flush (current : Text) : List Token := if current = [] then [] else [.value current]

/-- The loop of `tokenize`, with the value read so far. -/
def tokenizeFrom : Text → Text → List Token
  | [], current => flush current
  | '\u00c2' :: '\u00b5' :: unit, current => tokenizeFrom unit (current ++ ['\u00c2', '\u00b5'])
  | ch :: unit, current =>
    match operator ch with
    | some t => flush current ++ t :: tokenizeFrom unit []
    | none => tokenizeFrom unit (if isspace ch then current else current ++ [ch])

def tokenize (unit : Text) : List Token := tokenizeFrom unit []

def unbalanced : Exn := .invalidArgument "unit expression has unbalanced parentheses"

/-- Moves operators of no lower precedence to the output, the top of the stack first. -/
def popWhile (precedence : ℤ) : List Token → List Token → List Token × List Token
  | output, [] => (output, [])
  | output, top :: operators =>
    if precedence ≤ top.precedence then popWhile precedence (output ++ [top]) operators
    else (output, top :: operators)

/-- Moves operators to the output up to the matching parenthesis, which is dropped. -/
def popParen : List Token → List Token → Except Exn (List Token × List Token)
  | _, [] => .error unbalanced
  | output, .lparen :: operators => .ok (output, operators)
  | output, top :: operators => popParen (output ++ [top]) operators

def popAll : List Token → List Token → Except Exn (List Token)
  | output, [] => .ok output
  | _, .lparen :: _ => .error unbalanced
  | _, .rparen :: _ => .error unbalanced
  | output, top :: operators => popAll (output ++ [top]) operators

/-- One token of `shunting_yard`: output and operator stack. -/
def shuntToken : List Token × List Token → Token → Except Exn (List Token × List Token)
  | (output, operators), token =>
    match token with
    | .value _ => .ok (output ++ [token], operators)
    | .mul | .div | .pow =>
      let (output, operators) := popWhile token.precedence output operators
      .ok (output, token :: operators)
    | .lparen => .ok (output, token :: operators)
    | .rparen => popParen output operators

def shunting_yard (tokens : List Token) : Except Exn (List Token) := do
  let (output, operators) ← tokens.foldlM shuntToken ([], [])
  popAll output operators

inductive UnitExpr (K : Type) where
  | val (value : UnitValue K) (name : Text)
  | mul (lhs rhs : UnitExpr K)
  | div (lhs rhs : UnitExpr K)
  | pow (base exponent : UnitExpr K)

namespace UnitExpr

def to_string : UnitExpr K → String
  | val _ name => String.ofList name
  | mul lhs rhs => "(" ++ lhs.to_string ++ " * " ++ rhs.to_string ++ ")"
  | div lhs rhs => "(" ++ lhs.to_string ++ " / " ++ rhs.to_string ++ ")"
  | pow base exponent => "(" ++ base.to_string ++ " ^ " ++ exponent.to_string ++ ")"

variable [Number K]

def eval : UnitExpr K → Except Exn (UnitValue K)
  | val value _ => .ok value
  | mul lhs rhs => do
    let l ← lhs.eval
    let r ← rhs.eval
    if Number.mulFinite l.factor r.factor then
      return ⟨l.factor * r.factor, l.dim.mul r.dim⟩
    else throw (.invalidArgument ("unit conversion overflows: multiplication of '" ++
      lhs.to_string ++ " * " ++ rhs.to_string ++ "'"))
  | div lhs rhs => do
    let l ← lhs.eval
    let r ← rhs.eval
    if Number.divFinite l.factor r.factor then
      return ⟨l.factor / r.factor, l.dim.div r.dim⟩
    else throw (.invalidArgument ("unit conversion overflows: division of '" ++
      lhs.to_string ++ " / " ++ rhs.to_string ++ "'"))
  | pow base exponent => do
    let b ← base.eval
    let e ← exponent.eval
    if !e.dim.beq DIM_NONE then
      throw (.invalidArgument ("exponent must be dimensionless, got dimension " ++
        e.dim.to_string ++ " for '" ++ exponent.to_string ++ "'"))
    if Number.powFinite b.factor e.factor then
      return ⟨Number.pow b.factor e.factor, b.dim.pow e.factor⟩
    else throw (.invalidArgument ("unit conversion overflows: exponentiation of '" ++
      base.to_string ++ " ^ " ++ exponent.to_string ++ "'"))

end UnitExpr

section Numerals

def digitValue (base : ℕ) (c : Char) : Option ℕ :=
  let v :=
    if '0' ≤ c ∧ c ≤ '9' then c.toNat - '0'.toNat
    else if 'a' ≤ c ∧ c ≤ 'f' then c.toNat - 'a'.toNat + 10
    else if 'A' ≤ c ∧ c ≤ 'F' then c.toNat - 'A'.toNat + 10
    else base
  if v < base then some v else none

def isDigit (base : ℕ) (c : Char) : Bool := (digitValue base c).isSome

def valueOf (base : ℕ) (digits : Text) : ℕ :=
  digits.foldl (fun v c => base * v + (digitValue base c).getD 0) 0

/-- Digits with at most one radix point: their value, the digits behind the point, the rest. -/
def readMantissa (base : ℕ) (s : Text) : Option (ℕ × ℕ × Text) :=
  let whole := s.takeWhile (isDigit base)
  let (fraction, rest) :=
    match s.dropWhile (isDigit base) with
    | '.' :: rest => (rest.takeWhile (isDigit base), rest.dropWhile (isDigit base))
    | rest => ([], rest)
  if whole = [] ∧ fraction = [] then none
  else some (valueOf base (whole ++ fraction), fraction.length, rest)

def readSign : Text → Bool × Text
  | '-' :: s => (true, s)
  | '+' :: s => (false, s)
  | s => (false, s)

/-- The exponent behind `mark`; 0 when no digit follows. -/
def readExponent (mark : Char) : Text → ℤ
  | c :: s =>
    if c.toLower = mark then
      let (neg, s) := readSign s
      let e : ℤ := valueOf 10 (s.takeWhile (isDigit 10))
      if neg then -e else e
    else 0
  | [] => 0

def readDecimal (neg : Bool) (s : Text) : Option Numeral :=
  (readMantissa 10 s).map fun (m, behind, rest) =>
    .decimal neg m (readExponent 'e' rest - behind)

def readHex (neg : Bool) (s : Text) : Option Numeral :=
  (readMantissa 16 s).map fun (m, behind, rest) =>
    .hex neg m (readExponent 'p' rest - 4 * behind)

/-- The longest numeral a string starts with; what follows it is ignored. -/
def strtod (s : Text) : Option Numeral :=
  let (neg, s) := readSign (s.dropWhile isspace)
  if (s.take 3).map Char.toLower = ['i', 'n', 'f'] then some (.infinity neg)
  else if (s.take 3).map Char.toLower = ['n', 'a', 'n'] then some .nan
  else
    match s with
    | '0' :: x :: digits =>
      if x.toLower = 'x' then (readHex neg digits).or (readDecimal neg s) else readDecimal neg s
    | _ => readDecimal neg s

end Numerals

section Parser
variable [Number K]

def to_lower (s : Text) : Text := s.map fun c => if c.toNat < 128 then c.toLower else c

def lookup (name : Text) : Option (UnitValue K) :=
  (BASE_UNITS.find? fun entry => entry.1.toList == to_lower name).map Prod.snd

/-- Reads one expression off the end of the output, given from its last token on. -/
def read_expr : ℕ → List Token → Except Exn (UnitExpr K × List Token)
  | 0, _ | _, [] => .error (.invalidArgument "malformed unit expression: missing a value")
  | fuel + 1, token :: stream =>
    match token with
    | .value v =>
      match lookup v with
      | some value => .ok (.val value v, stream)
      | none =>
        match (strtod v).bind Number.ofNumeral with
        | some factor => .ok (.val ⟨factor, DIM_NONE⟩ v, stream)
        | none => .error (.invalidArgument ("unknown unit '" ++ String.ofList v ++ "'"))
    | .mul => do
      let (rhs, stream) ← read_expr fuel stream
      let (lhs, stream) ← read_expr fuel stream
      return (.mul lhs rhs, stream)
    | .div => do
      let (rhs, stream) ← read_expr fuel stream
      let (lhs, stream) ← read_expr fuel stream
      return (.div lhs rhs, stream)
    | .pow => do
      let (exponent, stream) ← read_expr fuel stream
      let (base, stream) ← read_expr fuel stream
      return (.pow base exponent, stream)
    | .lparen | .rparen =>
      .error (.invalidArgument ("unexpected symbol in unit expression: " ++
        String.ofList token.as_str))

/-- The expression of a unit with at least one token. -/
def parseTree (tokens : List Token) : Except Exn (UnitExpr K) := do
  let rpn ← shunting_yard tokens
  let (ast, rest) ← read_expr (rpn.length + 1) rpn.reverse
  if rest ≠ [] then
    throw (.invalidArgument ("malformed unit expression: leftover input '" ++
      " ".intercalate (rest.reverse.map fun t => String.ofList t.as_str) ++ "'"))
  return ast

def parse_unit_expression (unit : Text) : Except Exn (UnitValue K) :=
  let tokens := tokenize unit
  if tokens = [] then .ok ⟨1, DIM_NONE⟩
  else do
    let ast ← parseTree tokens
    ast.eval

def unit_conversion_factor (from_unit to_unit : Text) : Except Exn K :=
  if from_unit = [] ∨ to_unit = [] then .ok 1
  else do
    let from' ← parse_unit_expression from_unit
    let to' ← parse_unit_expression to_unit
    if !from'.dim.beq to'.dim then
      throw (.invalidArgument ("dimension mismatch: '" ++ String.ofList from_unit ++
        "' has dimension " ++ from'.dim.to_string ++ " but '" ++
        String.ofList to_unit ++ "' has dimension " ++ to'.dim.to_string))
    return from'.factor / to'.factor

end Parser

/-- Exact arithmetic. -/
noncomputable instance : Number ℝ where
  lit m e := m * 10 ^ e
  ofNumeral
    | .decimal neg m e => some ((if neg then -1 else 1) * (m * 10 ^ e))
    | .hex neg m e => some ((if neg then -1 else 1) * (m * 2 ^ e))
    | .infinity _ | .nan => none
  pow b e := b ^ e
  mulFinite _ _ := true
  divFinite _ r := decide (r ≠ 0)
  powFinite b e := decide (0 < b ∨ (b = 0 ∧ 0 ≤ e) ∨ (b < 0 ∧ (round e : ℝ) = e))
  near a b := decide (|a - b| ≤ 10 ^ (-10 : ℤ))
  small v := decide (|v| < 10 ^ (-10 : ℤ))
  round v := round v
  text v :=
    let n := round (v * 10 ^ 6)
    (if n < 0 then "-" else "") ++ toString (n.natAbs / 10 ^ 6) ++ "." ++
      String.ofList (((toString (10 ^ 6 + n.natAbs % 10 ^ 6)).toList).drop 1)

theorem unit_conversion_factor_eq [Number K] {from_unit to_unit : Text} {u v : UnitValue K}
    (hfrom : from_unit ≠ []) (hto : to_unit ≠ []) (hu : parse_unit_expression from_unit = .ok u)
    (hv : parse_unit_expression to_unit = .ok v) (hdim : u.dim.beq v.dim = true) :
    unit_conversion_factor from_unit to_unit = .ok (u.factor / v.factor) := by
  simp [unit_conversion_factor, hfrom, hto, hu, hv, hdim, bind, Except.bind, pure, Except.pure]

theorem Dimension.beq_self (d : Dimension ℝ) : d.beq d = true := by
  simp [Dimension.beq, Number.near]

end Rgpot.Units
