import Rgpot.ForceStructs

/-! Records of the result cache: their bytes, the two shapes on disk, and the store they live in. -/
namespace Rgpot.Cache
open Words

/-- A stored value, a `std::string` of bytes. -/
abbrev Record := List UInt8

/-- `"RGPOTR1"` with its terminating zero. -/
def resultMarker : Record := [82, 71, 80, 79, 84, 82, 49, 0]

def resultMetadataBytes : ℕ := resultMarker.length + 10 * 8 + 1

def energyForceBytes (nAtoms : ℕ) : ℕ := (1 + 3 * nAtoms) * 8

def hasResultMetadata (value : Record) (nAtoms : ℕ) : Bool :=
  value.length == energyForceBytes nAtoms + resultMetadataBytes &&
    (value.drop (energyForceBytes nAtoms)).take resultMarker.length == resultMarker &&
    decide (value.getLastD 0 ≤ 1)

/-- Overwrites every field of the result slot, or throws on a short record. -/
def deserializeHit (value : Record) (nAtoms : ℕ) : Except Exn ForceOut :=
  if value.length < energyForceBytes nAtoms then
    .error (.runtimeError "PotentialCache: incomplete energy/force record")
  else
    let out : ForceOut :=
      { F := readArray Double (3 * nAtoms) (value.drop 8)
        energy := Word.read (value.take 8)
        variance := 0
        stress := fun _ => 0
        hasStress := 0 }
    if hasResultMetadata value nAtoms then
      let metadata := value.drop (energyForceBytes nAtoms + resultMarker.length)
      .ok
        { out with
          variance := Word.read (metadata.take 8)
          stress := fun i => (readArray Double 9 (metadata.drop 8)).getD i 0
          hasStress := (value.getLastD 0).toNat }
    else .ok out

/-- Stress and flag of a result slot; the buffer stays zero without a stress. -/
def stressBytes (out : ForceOut) : Record :=
  if out.hasStress ≠ 0 then arrayBytes (List.ofFn out.stress) ++ [1] else List.replicate 73 0

/-- The buffer `add_serialized` writes for a result slot. -/
def serialized (out : ForceOut) (nAtoms : ℕ) : Record :=
  Word.bytes out.energy ++ arrayBytes (out.F.take (3 * nAtoms)) ++ resultMarker ++
    Word.bytes out.variance ++ stressBytes out

/-- The record of the energy-and-forces overload of `add_serialized`. -/
def legacyRecord (energy : Double) (forces : List Double) : Record :=
  Word.bytes energy ++ arrayBytes forces

/-- The RocksDB contents, by key. -/
abbrev Store := ℕ → Option Record

/-- `db` is null when the database did not open or none was set. -/
structure PotentialCache where
  db : Option Store

def PotentialCache.find (c : PotentialCache) (key : ℕ) : Option Record :=
  c.db.bind fun db => db key

/-- `Put` may fail without a word: `kept` says whether this one reached the database. -/
def PotentialCache.addSerialized (c : PotentialCache) (key : ℕ) (out : ForceOut) (nAtoms : ℕ)
    (kept : Bool) : PotentialCache :=
  match c.db with
  | none => c
  | some db => if kept then ⟨some (Function.update db key (some (serialized out nAtoms)))⟩ else c

/-- What a record keeps of a result: the stress only when the engine computed it. -/
def recorded (o : ForceOut) : ForceOut :=
  { o with
    stress := if o.hasStress ≠ 0 then o.stress else fun _ => 0
    hasStress := if o.hasStress ≠ 0 then 1 else 0 }

/-- What a legacy record keeps: energy and forces. -/
def legacyOut (energy : Double) (forces : List Double) : ForceOut where
  F := forces
  energy := energy
  variance := 0
  stress := fun _ => 0
  hasStress := 0

variable {out : ForceOut} {n : ℕ}

theorem length_word (a : Double) : (Word.bytes a).length = 8 := Word.length_bytes a

@[simp] theorem length_stressBytes (out : ForceOut) : (stressBytes out).length = 73 := by
  unfold stressBytes
  split
  · have hw : Word.width UInt64 = 8 := rfl
    simp [hw]
  · simp

theorem getLastD_stressBytes (out : ForceOut) :
    (stressBytes out).getLastD 0 = if out.hasStress ≠ 0 then 1 else 0 := by
  unfold stressBytes
  split
  · simp
  · decide

/-- The energy and force prefix of both record shapes. -/
theorem length_prefix (e : Double) {F : List Double} (hF : F.length = 3 * n) :
    (Word.bytes e ++ arrayBytes F).length = energyForceBytes n := by
  have hw : Word.width UInt64 = 8 := rfl
  simp [length_word, hF, hw, energyForceBytes]
  omega

theorem serialized_eq (hF : out.F.length = 3 * n) :
    serialized out n = (Word.bytes out.energy ++ arrayBytes out.F) ++
      (resultMarker ++ (Word.bytes out.variance ++ stressBytes out)) := by
  simp [serialized, List.take_of_length_le hF.le]

theorem getLastD_append {b : Record} (a : Record) (hb : b ≠ []) :
    (a ++ b).getLastD 0 = b.getLastD 0 := by
  simp only [List.getLastD_eq_getLast?, List.getLast?_append, List.getLast?_eq_some_getLast hb,
    Option.some_or]

theorem getLastD_serialized (hF : out.F.length = 3 * n) :
    (serialized out n).getLastD 0 = if out.hasStress ≠ 0 then 1 else 0 := by
  have hne : stressBytes out ≠ [] := fun h => by simpa [h] using length_stressBytes out
  have happ : ∀ a : Record, a ++ stressBytes out ≠ [] := fun a => by simp [hne]
  rw [serialized_eq hF, getLastD_append _ (by simp [resultMarker]), getLastD_append _ (happ _),
    getLastD_append _ hne, getLastD_stressBytes]

theorem hasResultMetadata_serialized (hF : out.F.length = 3 * n) :
    hasResultMetadata (serialized out n) n = true := by
  have hlen := length_prefix out.energy hF
  have hlast : (serialized out n).getLastD 0 ≤ 1 := by
    rw [getLastD_serialized hF]
    split <;> decide
  simp only [hasResultMetadata, hlast, decide_true, Bool.and_true, Bool.and_eq_true, beq_iff_eq]
  constructor
  · rw [serialized_eq hF, List.length_append, hlen]
    simp [length_word, resultMetadataBytes, resultMarker]
  · rw [serialized_eq hF, List.drop_left' hlen]
    exact List.take_left' rfl

/-- Energy and forces sit in front of a record, whatever follows them. -/
theorem read_prefix (e : Double) {F : List Double} (hF : F.length = 3 * n) (rest : Record) :
    Word.read (((Word.bytes e ++ arrayBytes F) ++ rest).take 8) = e ∧
      readArray Double (3 * n) (((Word.bytes e ++ arrayBytes F) ++ rest).drop 8) = F := by
  rw [List.append_assoc, List.take_left' (length_word e), List.drop_left' (length_word e), ← hF]
  exact ⟨Word.read_bytes e, readArray_arrayBytes F rest⟩

theorem read_stressBytes (out : ForceOut) (i : Fin 9) :
    (readArray Double 9 (stressBytes out)).getD i 0 = (recorded out).stress i := by
  by_cases h : out.hasStress = 0
  · have hzero : ∀ j : Fin 9, (readArray Double 9 (List.replicate 73 0)).getD j 0 = 0 := by
      decide
    simp only [stressBytes, recorded, h, ne_eq, not_true_eq_false, if_false, hzero]
  · have hread : readArray Double 9 (arrayBytes (List.ofFn out.stress) ++ [1]) =
        List.ofFn out.stress := by
      have hread := readArray_arrayBytes (List.ofFn out.stress) [1]
      rwa [List.length_ofFn] at hread
    simp only [stressBytes, recorded, ne_eq, h, not_false_eq_true, if_true, hread,
      List.getD_eq_getElem?_getD, List.getElem?_ofFn, i.isLt, dif_pos, Option.getD_some, Fin.eta]

/-- A record gives back the result it was written for. -/
theorem deserializeHit_serialized (hF : out.F.length = 3 * n) :
    deserializeHit (serialized out n) n = .ok (recorded out) := by
  have hlen := length_prefix out.energy hF
  have hlong : ¬ (serialized out n).length < energyForceBytes n := by
    rw [serialized_eq hF, List.length_append, hlen]
    omega
  have hmeta : (serialized out n).drop (energyForceBytes n + resultMarker.length) =
      Word.bytes out.variance ++ stressBytes out := by
    rw [serialized_eq hF, ← List.drop_drop, List.drop_left' hlen]
    exact List.drop_left' rfl
  obtain ⟨henergy, hforces⟩ := read_prefix out.energy hF
    (resultMarker ++ (Word.bytes out.variance ++ stressBytes out))
  have hvariance : Word.read ((Word.bytes out.variance ++ stressBytes out).take 8) =
      out.variance := by
    rw [List.take_left' (length_word _)]
    exact Word.read_bytes _
  have hstress := read_stressBytes out
  rw [← serialized_eq hF] at henergy hforces
  simp only [deserializeHit, if_neg hlong, hasResultMetadata_serialized hF, if_true, hmeta, henergy,
    hforces, hvariance, List.drop_left' (length_word _), hstress, getLastD_serialized hF]
  by_cases h : out.hasStress = 0 <;> simp [recorded, h]

theorem length_of_hasResultMetadata {value : Record} (h : hasResultMetadata value n = true) :
    value.length = energyForceBytes n + resultMetadataBytes := by
  simp only [hasResultMetadata, Bool.and_eq_true, beq_iff_eq] at h
  exact h.1.1

/-- The metadata is 89 bytes, no whole number of doubles: no legacy record passes for one with
metadata, of any atom count. -/
theorem hasResultMetadata_legacy (e : Double) {F : List Double} (hF : F.length = 3 * n) (m : ℕ) :
    hasResultMetadata (legacyRecord e F) m = false := by
  have hlen : (legacyRecord e F).length = energyForceBytes n := length_prefix e hF
  rw [Bool.eq_false_iff]
  intro h
  have hmeta := length_of_hasResultMetadata h
  have hbytes : resultMetadataBytes = 89 := rfl
  rw [hlen] at hmeta
  simp only [energyForceBytes, hbytes] at hmeta
  omega

/-- A legacy record is read as energy and forces alone. -/
theorem deserializeHit_legacy (e : Double) {F : List Double} (hF : F.length = 3 * n) :
    deserializeHit (legacyRecord e F) n = .ok (legacyOut e F) := by
  have hlen : (legacyRecord e F).length = energyForceBytes n := length_prefix e hF
  obtain ⟨henergy, hforces⟩ := read_prefix e hF []
  rw [List.append_nil] at henergy hforces
  change Word.read ((legacyRecord e F).take 8) = e at henergy
  change readArray Double (3 * n) ((legacyRecord e F).drop 8) = F at hforces
  simp [deserializeHit, hlen, hasResultMetadata_legacy e hF n, henergy, hforces, legacyOut]

/-- The legacy overload of `deserialize_hit`: energy and force matrix of any record. -/
def deserializeHitLegacy (hit : Record) (rows : ℕ) : Except Exn (Double × List Double) := do
  let out ← deserializeHit hit rows
  return (out.energy, out.F)

/-- The length of a record with metadata tells the atom count. -/
theorem hasResultMetadata_atoms {value : Record} {m : ℕ} (hn : hasResultMetadata value n = true)
    (hm : hasResultMetadata value m = true) : n = m := by
  have hlen := (length_of_hasResultMetadata hn).symm.trans (length_of_hasResultMetadata hm)
  simp only [energyForceBytes] at hlen
  omega

/-- A `size_t` computes the bytes of energy and forces for every force buffer it can count. -/
theorem energyForceBytes_sizeT (nAtoms : UInt64) (h : energyForceBytes nAtoms.toNat < 2 ^ 64) :
    ((1 + 3 * nAtoms) * 8).toNat = energyForceBytes nAtoms.toNat := by
  have h3 : (3 : UInt64).toNat = 3 := rfl
  have h1 : (1 : UInt64).toNat = 1 := rfl
  have h8 : (8 : UInt64).toNat = 8 := rfl
  simp only [energyForceBytes] at h ⊢
  rw [UInt64.toNat_mul, UInt64.toNat_add, UInt64.toNat_mul, h1, h3, h8]
  omega

/-- The record format: what is written for a result is read back, a legacy record is read as energy
and forces alone, and the two shapes and the atom counts are never taken for one another. -/
theorem record_round_trip (n : ℕ) :
    (∀ out : ForceOut, out.F.length = 3 * n →
      hasResultMetadata (serialized out n) n = true ∧
        deserializeHit (serialized out n) n = .ok (recorded out) ∧
        deserializeHitLegacy (serialized out n) n = .ok (out.energy, out.F)) ∧
    (∀ (e : Double) (F : List Double), F.length = 3 * n →
      (∀ m, hasResultMetadata (legacyRecord e F) m = false) ∧
        deserializeHit (legacyRecord e F) n = .ok (legacyOut e F) ∧
        deserializeHitLegacy (legacyRecord e F) n = .ok (e, F)) ∧
    ∀ (value : Record) (m : ℕ), hasResultMetadata value n = true →
      hasResultMetadata value m = true → n = m := by
  refine ⟨fun out hF => ⟨hasResultMetadata_serialized hF, deserializeHit_serialized hF, ?_⟩,
    fun e F hF => ⟨hasResultMetadata_legacy e hF, deserializeHit_legacy e hF, ?_⟩,
    fun value m hn hm => hasResultMetadata_atoms hn hm⟩
  · rw [deserializeHitLegacy, deserializeHit_serialized hF]
    rfl
  · rw [deserializeHitLegacy, deserializeHit_legacy e hF]
    rfl

/-- A stress-free result of one atom keeps its forces, variance and zero stress. -/
theorem record_round_trip_atom :
    deserializeHit (serialized
        { F := [1, 2, 3], energy := 7, variance := 5, stress := fun _ => 9, hasStress := 0 } 1) 1 =
      .ok { F := [1, 2, 3], energy := 7, variance := 5, stress := fun _ => 0, hasStress := 0 } :=
  ((record_round_trip 1).1 _ rfl).2.1

end Rgpot.Cache
