import Rgpot.Lib.Words

/-! The plain structures exchanged between the entry points and the kernels. -/
namespace Rgpot

/-- The exceptions the sources throw, with their texts. -/
inductive Exn where
  | invalidArgument (what : String)
  | overflowError (what : String)
  | runtimeError (what : String)
  deriving DecidableEq, Repr

/-- A `double` as its bit pattern: the cache copies and hashes nothing else. -/
abbrev Double := UInt64

/-- `pos`, `atmnrs` and `box` are the buffers an entry point hands down, with their sizes. -/
structure ForceInput where
  nAtoms : ℕ
  pos : List Double
  atmnrs : List UInt32
  box : List Double
  length_pos : pos.length = 3 * nAtoms
  length_atmnrs : atmnrs.length = nAtoms
  length_box : box.length = 9
  deriving DecidableEq

/-- `F` is the caller's force buffer; `hasStress` is 0 when the engine did not compute `stress`. -/
structure ForceOut where
  F : List Double
  energy : Double
  variance : Double
  stress : Fin 9 → Double
  hasStress : ℤ
  deriving DecidableEq

inductive PotType where
  | UNKNOWN | CuH2 | LJ | XTB | TBLite | Metatomic | NWChem | CPMD | Morse | LJCluster | ZBL
  | SWSi | EDIP | LenoskySi | TersoffSi | EAMAl | FeHe | WaterH | D3 | D4 | Expr | Uma | Skala
  | MOPAC
  deriving DecidableEq

/-- `static_cast<size_t>` of the enumerator. -/
def PotType.value (t : PotType) : UInt64 := UInt64.ofNat t.ctorIdx

theorem PotType.value_injective : Function.Injective PotType.value := by
  have hleft : ∀ t : PotType, PotType.ofNat t.value.toNat = t := by
    intro t
    cases t <;> rfl
  intro t u h
  rw [← hleft t, ← hleft u, h]

/-- The two buffers and the cell determine an input: the atom count is the species count. -/
theorem ForceInput.ext_buffers {a b : ForceInput} (hp : a.pos = b.pos)
    (ht : a.atmnrs = b.atmnrs) (hb : a.box = b.box) : a = b := by
  obtain ⟨n, p, t, x, _, rfl, _⟩ := a
  obtain ⟨m, q, u, y, _, rfl, _⟩ := b
  simp_all

/-- The result slot `operator()` starts from. -/
def ForceOut.zero (n : ℕ) : ForceOut where
  F := List.replicate (3 * n) 0
  energy := 0
  variance := 0
  stress := fun _ => 0
  hasStress := 0

/-- What `forceBatch` resets in a result slot before anything else. -/
def ForceOut.cleared (o : ForceOut) : ForceOut :=
  { o with variance := 0, hasStress := 0, stress := fun _ => 0 }

end Rgpot
