import Rgpot.Lib.Fallible
import Rgpot.Uma.Contract

/-! The numbers in the metadata of a package: when they are read exactly, and when they overflow. -/
namespace Rgpot.Uma
open Fallible

/-- A value that an `int64_t` can hold. -/
def Fits64 (z : ℤ) : Prop := -2 ^ 63 ≤ z ∧ z < 2 ^ 63

instance (z : ℤ) : Decidable (Fits64 z) := inferInstanceAs (Decidable (_ ∧ _))

theorem wrap64_of_fits {z : ℤ} (h : Fits64 z) : wrap64 z = z := by
  obtain ⟨hlow, hhigh⟩ := h
  unfold wrap64
  rw [Int.bmod_def]
  omega

/-- A minus sign, or none, and digits. -/
structure SignedRun where
  negative : Bool
  digits : List Char

namespace SignedRun

def text (run : SignedRun) : List Char := if run.negative then '-' :: run.digits else run.digits

def magnitude (run : SignedRun) : ℕ := Nat.ofDigitChars 10 run.digits 0

def value (run : SignedRun) : ℤ := if run.negative then -(run.magnitude : ℤ) else run.magnitude

/-- The run stands in `s`, no digit borders on it, and no minus where it has no sign. -/
def MaximalIn (run : SignedRun) (s : List Char) : Prop :=
  ∃ before after, s = before ++ (run.text ++ after) ∧ run.digits ≠ [] ∧
    (∀ c ∈ run.digits, c.isDigit = true) ∧ after.head?.any Char.isDigit = false ∧
    (run.negative = false → before.getLast?.any (fun c => c.isDigit || c = '-') = false)

end SignedRun

/-- The signed digit runs of a string in order of appearance. -/
def signedRuns : List Char → List SignedRun
  | [] => []
  | c :: s =>
    if c = '-' ∧ s.head?.any Char.isDigit then
      ⟨true, s.takeWhile Char.isDigit⟩ :: signedRuns (s.dropWhile Char.isDigit)
    else if c.isDigit then
      ⟨false, c :: s.takeWhile Char.isDigit⟩ :: signedRuns (s.dropWhile Char.isDigit)
    else signedRuns s
termination_by s => s.length
decreasing_by
  · exact Nat.lt_succ_of_le (List.dropWhile_suffix _).length_le
  · exact Nat.lt_succ_of_le (List.dropWhile_suffix _).length_le
  · exact Nat.lt_succ_self _

section Maximal

theorem head_dropWhile (s : List Char) : (s.dropWhile Char.isDigit).head?.any Char.isDigit = false := by
  induction s with
  | nil => rfl
  | cons c s ih =>
    by_cases hc : c.isDigit = true
    · rw [List.dropWhile_cons_of_pos hc]
      exact ih
    · rw [List.dropWhile_cons_of_neg hc]
      exact Bool.not_eq_true _ ▸ hc

/-- What may stand before the rest of a string: no digit or minus in front of a digit. -/
def Border (before s : List Char) : Prop :=
  s.head?.any Char.isDigit = true → before.getLast?.any (fun c => c.isDigit || c = '-') = false

theorem border_dropWhile (before s : List Char) : Border before (s.dropWhile Char.isDigit) := by
  intro hhead
  rw [head_dropWhile] at hhead
  cases hhead

theorem signedRuns_maximal {before s : List Char} (hborder : Border before s) {run : SignedRun}
    (h : run ∈ signedRuns s) : run.MaximalIn (before ++ s) := by
  have hdigits : ∀ s : List Char, ∀ c ∈ s.takeWhile Char.isDigit, c.isDigit = true :=
    fun s c hc => List.mem_takeWhile_imp hc
  induction s using signedRuns.induct generalizing before with
  | case1 =>
    rw [signedRuns] at h
    cases h
  | case2 c s hsign ih =>
    rw [signedRuns, if_pos hsign] at h
    obtain ⟨rfl, hnext⟩ := hsign
    have hsplit : '-' :: s = '-' :: s.takeWhile Char.isDigit ++ s.dropWhile Char.isDigit := by
      rw [List.cons_append, List.takeWhile_append_dropWhile]
    rcases List.mem_cons.mp h with rfl | hrest
    · refine ⟨before, _, congrArg (before ++ ·) hsplit, ?_, hdigits s, head_dropWhile s, ?_⟩
      · cases s with
        | nil => cases hnext
        | cons d s =>
          have hd : d.isDigit = true := hnext
          rw [List.takeWhile_cons_of_pos hd]
          exact List.cons_ne_nil _ _
      · intro hnone
        cases hnone
    · rw [hsplit, ← List.append_assoc]
      exact ih (border_dropWhile _ s) hrest
  | case3 c s hsign hc ih =>
    rw [signedRuns, if_neg hsign, if_pos hc] at h
    have hsplit : c :: s = c :: s.takeWhile Char.isDigit ++ s.dropWhile Char.isDigit := by
      rw [List.cons_append, List.takeWhile_append_dropWhile]
    rcases List.mem_cons.mp h with rfl | hrest
    · refine ⟨before, _, congrArg (before ++ ·) hsplit, List.cons_ne_nil _ _, ?_, head_dropWhile s,
        fun _ => hborder hc⟩
      intro d hd
      rcases List.mem_cons.mp hd with rfl | hd
      · exact hc
      · exact hdigits s d hd
    · rw [hsplit, ← List.append_assoc]
      exact ih (border_dropWhile _ s) hrest
  | case4 c s hsign hc ih =>
    rw [signedRuns, if_neg hsign, if_neg hc] at h
    have hnext : Border (before ++ [c]) s := by
      intro hhead
      rw [List.getLast?_concat, Option.any_some, Bool.or_eq_false_iff]
      refine ⟨Bool.not_eq_true _ ▸ hc, decide_eq_false ?_⟩
      rintro rfl
      exact hsign ⟨rfl, hhead⟩
    rw [← List.singleton_append, ← List.append_assoc]
    exact ih hnext h

end Maximal

/-- The values that `scanDigits` goes through fit. -/
def ScanFits (v : ℤ) : List Char → Prop
  | [] => True
  | c :: s =>
    if c.isDigit then
      Fits64 (v * 10) ∧ Fits64 (v * 10 + (c.toNat - '0'.toNat : ℕ)) ∧
        ScanFits (wrap64 (v * 10 + (c.toNat - '0'.toNat : ℕ))) s
    else True

namespace UmaContract

/-- The values that `integers` goes through fit. -/
def IntegersFit : List Char → Prop
  | [] => True
  | c :: s =>
    if c = '-' ∧ s.head?.any Char.isDigit then
      ScanFits 0 s ∧ Fits64 (-(scanDigits 0 s).1) ∧ IntegersFit (scanDigits 0 s).2
    else if _h : c.isDigit then ScanFits 0 (c :: s) ∧ IntegersFit (scanDigits 0 (c :: s)).2
    else IntegersFit s
termination_by s => s.length
decreasing_by
  · exact Nat.lt_succ_of_le (length_scanDigits_le 0 s)
  · exact length_scanDigits_lt _h
  · exact Nat.lt_succ_self _

/-- The numbers of a string are the values of its signed digit runs, and nothing overflows on the way. -/
structure Exact (s : List Char) : Prop where
  fits : IntegersFit s
  values : integers s = (signedRuns s).map SignedRun.value
  maximal : ∀ run ∈ signedRuns s, run.MaximalIn s

section Scan

theorem scanDigits_snd (v : ℤ) (s : List Char) : (scanDigits v s).2 = s.dropWhile Char.isDigit := by
  induction s generalizing v with
  | nil => rfl
  | cons c s ih =>
    unfold scanDigits
    by_cases hc : c.isDigit = true
    · rw [if_pos hc, List.dropWhile_cons_of_pos hc]
      exact ih _
    · rw [if_neg hc, List.dropWhile_cons_of_neg hc]

/-- A scan goes through values that fit exactly when the last one does. -/
theorem scanFits_iff {v : ℕ} (hv : v < 2 ^ 63) (s : List Char) :
    ScanFits v s ↔ Nat.ofDigitChars 10 (s.takeWhile Char.isDigit) v < 2 ^ 63 := by
  induction s generalizing v with
  | nil => exact iff_of_true trivial hv
  | cons c s ih =>
    unfold ScanFits
    by_cases hc : c.isDigit = true
    · rw [if_pos hc, List.takeWhile_cons_of_pos hc, Nat.ofDigitChars_cons]
      have hstep : (v : ℤ) * 10 + (c.toNat - '0'.toNat : ℕ) = ((10 * v + (c.toNat - '0'.toNat) : ℕ) : ℤ) := by
        push_cast
        ring
      have hle := le_ofDigitChars (s.takeWhile Char.isDigit) (10 * v + (c.toNat - '0'.toNat))
      rw [hstep]
      generalize 10 * v + (c.toNat - '0'.toNat) = next at hstep hle ⊢
      by_cases hnext : next < 2 ^ 63
      · have hfits : Fits64 next := ⟨by omega, by omega⟩
        have htimes : Fits64 ((v : ℤ) * 10) := ⟨by omega, by omega⟩
        rw [wrap64_of_fits hfits, ih hnext]
        exact ⟨fun h => h.2.2, fun h => ⟨htimes, hfits, h⟩⟩
      · refine iff_of_false ?_ (by omega)
        rintro ⟨-, ⟨-, hhigh⟩, -⟩
        exact hnext (by exact_mod_cast hhigh)
    · rw [if_neg hc, List.takeWhile_cons_of_neg hc]
      exact iff_of_true trivial hv

theorem scanDigits_fst {s : List Char} (h : Nat.ofDigitChars 10 (s.takeWhile Char.isDigit) 0 < 2 ^ 63) :
    (scanDigits 0 s).1 = (Nat.ofDigitChars 10 (s.takeWhile Char.isDigit) 0 : ℕ) := by
  have hscan := scanDigits_append (v := 0) (s := s.takeWhile Char.isDigit)
    (fun c hc => List.mem_takeWhile_imp hc) (head_dropWhile s) h
  rw [List.takeWhile_append_dropWhile] at hscan
  exact congrArg Prod.fst hscan

/-- `integers` goes through values that fit exactly when no digit run reaches 2⁶³. -/
theorem integersFit_iff (s : List Char) :
    IntegersFit s ↔ ∀ run ∈ signedRuns s, run.magnitude < 2 ^ 63 := by
  induction s using signedRuns.induct with
  | case1 =>
    rw [IntegersFit, signedRuns]
    exact iff_of_true trivial (List.forall_mem_nil _)
  | case2 c s hsign ih =>
    rw [IntegersFit, signedRuns, if_pos hsign, if_pos hsign, List.forall_mem_cons, scanDigits_snd, ih]
    have hscan := scanFits_iff (v := 0) (by decide) s
    rw [Nat.cast_zero] at hscan
    rw [hscan, ← and_assoc]
    refine and_congr_left fun _ => ⟨fun h => h.1, fun h => ⟨h, ?_⟩⟩
    have hmagnitude : Nat.ofDigitChars 10 (s.takeWhile Char.isDigit) 0 < 2 ^ 63 := h
    have hvalue := scanDigits_fst h
    exact ⟨by omega, by omega⟩
  | case3 c s hsign hc ih =>
    have hrun : (c :: s).takeWhile Char.isDigit = c :: s.takeWhile Char.isDigit :=
      List.takeWhile_cons_of_pos hc
    have hrest : (c :: s).dropWhile Char.isDigit = s.dropWhile Char.isDigit :=
      List.dropWhile_cons_of_pos hc
    rw [IntegersFit, signedRuns, if_neg hsign, if_neg hsign, dif_pos hc, if_pos hc,
      List.forall_mem_cons, scanDigits_snd, hrest, ih]
    have hscan := scanFits_iff (v := 0) (by decide) (c :: s)
    rw [Nat.cast_zero, hrun] at hscan
    exact and_congr_left fun _ => hscan
  | case4 c s hsign hc ih =>
    rw [IntegersFit, signedRuns, if_neg hsign, if_neg hsign, dif_neg hc, if_neg hc]
    exact ih

theorem integers_eq {s : List Char} (h : ∀ run ∈ signedRuns s, run.magnitude < 2 ^ 63) :
    integers s = (signedRuns s).map SignedRun.value := by
  induction s using signedRuns.induct with
  | case1 => rw [integers, signedRuns, List.map_nil]
  | case2 c s hsign ih =>
    rw [signedRuns, if_pos hsign] at h ⊢
    rw [List.forall_mem_cons] at h
    rw [integers, if_pos hsign, scanDigits_snd, ih h.2, scanDigits_fst h.1, List.map_cons]
    congr 1
    have hmagnitude : Nat.ofDigitChars 10 (s.takeWhile Char.isDigit) 0 < 2 ^ 63 := h.1
    rw [wrap64_of_fits ⟨by omega, by omega⟩]
    rfl
  | case3 c s hsign hc ih =>
    have hrun : (c :: s).takeWhile Char.isDigit = c :: s.takeWhile Char.isDigit :=
      List.takeWhile_cons_of_pos hc
    have hrest : (c :: s).dropWhile Char.isDigit = s.dropWhile Char.isDigit :=
      List.dropWhile_cons_of_pos hc
    rw [signedRuns, if_neg hsign, if_pos hc] at h ⊢
    rw [List.forall_mem_cons] at h
    have hvalue := scanDigits_fst (s := c :: s) (by rw [hrun]; exact h.1)
    rw [integers, if_neg hsign, dif_pos hc, scanDigits_snd, hrest, ih h.2, hvalue, hrun, List.map_cons]
    rfl
  | case4 c s hsign hc ih =>
    rw [signedRuns, if_neg hsign, if_neg hc] at h ⊢
    rw [integers, if_neg hsign, dif_neg hc, ih h]

/-- A string is read exactly when no digit run of it reaches 2⁶³. -/
theorem exact_iff (s : List Char) : Exact s ↔ ∀ run ∈ signedRuns s, run.magnitude < 2 ^ 63 := by
  constructor
  · intro h
    exact (integersFit_iff s).mp h.fits
  · intro h
    refine ⟨(integersFit_iff s).mpr h, integers_eq h, fun run hrun => ?_⟩
    have hborder : Border [] s := fun _ => rfl
    exact signedRuns_maximal hborder hrun

end Scan

section Metadata
variable (metadata : String → Option (List Char))

/-- The signed digit runs under a key that is there and not empty. -/
def runsOf (key : String) : List SignedRun := ((get metadata key).map signedRuns).getD []

/-- The numbers that are written under a key. -/
def written (key : String) : List ℤ := (runsOf metadata key).map SignedRun.value

/-- The keys whose values are read as numbers. -/
def numberKeys : List String := ["charge", "spin", "natoms", "z_set", "counts"]

/-- The charge, spin, atom count and counts of a contract are those written, and they fit. -/
structure Written (c : UmaContract) : Prop where
  charge : c.charge.toList = written metadata "charge"
  spin : c.spin.toList = written metadata "spin"
  natoms : c.natoms.toList = written metadata "natoms"
  counts : c.counts =
    (get metadata "counts").map fun _ => pairUp OrderedMap.empty (written metadata "counts")
  fits : ∀ key ∈ ["charge", "spin", "natoms", "counts"], ∀ z ∈ written metadata key, Fits64 z

variable {metadata}

theorem oneInt_eq_ok {key : String} {v : Option ℤ} (h : oneInt metadata key = .ok v) :
    v.toList = ((get metadata key).map integers).getD [] := by
  unfold oneInt at h
  cases hraw : get metadata key with
  | none =>
    rw [hraw] at h
    cases h
    rfl
  | some raw =>
    rw [hraw] at h
    dsimp only at h
    rw [Option.map_some, Option.getD_some]
    generalize integers raw = numbers at h ⊢
    rcases numbers with _ | ⟨z, _ | ⟨w, numbers⟩⟩
    · cases h
    · cases h
      rfl
    · cases h

variable (hrange : ∀ key ∈ numberKeys, ∀ run ∈ runsOf metadata key, run.magnitude < 2 ^ 63)
include hrange

theorem integers_written {key : String} (hkey : key ∈ numberKeys) :
    ((get metadata key).map integers).getD [] = written metadata key := by
  have hruns := hrange key hkey
  unfold runsOf at hruns
  unfold written runsOf
  cases hraw : get metadata key with
  | none => rfl
  | some raw =>
    rw [hraw] at hruns
    exact integers_eq hruns

/-- A contract that is returned holds what is written. -/
theorem written_of_ok {c : UmaContract} (h : fromMetadata metadata = .ok c) : Written metadata c := by
  unfold fromMetadata at h
  obtain ⟨charge, hcharge, h⟩ := bind_eq_ok.mp h
  obtain ⟨spin, hspin, h⟩ := bind_eq_ok.mp h
  obtain ⟨natoms, hnatoms, h⟩ := bind_eq_ok.mp h
  have hnumbers := integers_written hrange (show "counts" ∈ numberKeys by decide)
  have hfields : c.charge = charge ∧ c.spin = spin ∧ c.natoms = natoms ∧ c.counts =
      (get metadata "counts").map fun _ => pairUp OrderedMap.empty (written metadata "counts") := by
    dsimp only at h
    cases hraw : get metadata "counts" with
    | none =>
      rw [hraw] at h
      cases h
      exact ⟨rfl, rfl, rfl, rfl⟩
    | some raw =>
      rw [hraw] at h hnumbers
      have hcounts : integers raw = written metadata "counts" := hnumbers
      dsimp only at h
      split at h
      · cases h
      · cases h
        rw [← hcounts]
        exact ⟨rfl, rfl, rfl, rfl⟩
  obtain ⟨rfl, rfl, rfl, hcounts⟩ := hfields
  refine ⟨?_, ?_, ?_, hcounts, ?_⟩
  · exact (oneInt_eq_ok hcharge).trans (integers_written hrange (by decide))
  · exact (oneInt_eq_ok hspin).trans (integers_written hrange (by decide))
  · exact (oneInt_eq_ok hnatoms).trans (integers_written hrange (by decide))
  · intro key hkey z hz
    obtain ⟨run, hrun, rfl⟩ := List.mem_map.mp hz
    have hmember : key ∈ numberKeys := by
      simp only [numberKeys, List.mem_cons] at hkey ⊢
      tauto
    have hmagnitude := hrange key hmember run hrun
    unfold SignedRun.value Fits64
    split
    · exact ⟨by omega, by omega⟩
    · exact ⟨by omega, by omega⟩

end Metadata

section Numbers

/-- A string is read exactly when no digit run of it reaches 2⁶³, and so is a package's metadata, whose
contract then holds what is written. -/
theorem numbers_exact_iff (s : List Char) (metadata : String → Option (List Char)) :
    (Exact s ↔ ∀ run ∈ signedRuns s, run.magnitude < 2 ^ 63) ∧
    (((∀ key ∈ numberKeys, ∀ raw, get metadata key = some raw → Exact raw) ∧
        ∀ c, fromMetadata metadata = .ok c → Written metadata c) ↔
      ∀ key ∈ numberKeys, ∀ run ∈ runsOf metadata key, run.magnitude < 2 ^ 63) := by
  refine ⟨exact_iff s, ?_, ?_⟩
  · rintro ⟨hexact, -⟩ key hkey run hrun
    unfold runsOf at hrun
    cases hraw : get metadata key with
    | none =>
      rw [hraw] at hrun
      cases hrun
    | some raw =>
      rw [hraw] at hrun
      exact (exact_iff raw).mp (hexact key hkey raw hraw) run hrun
  · intro hrange
    refine ⟨fun key hkey raw hraw => (exact_iff raw).mpr fun run hrun => ?_,
      fun c hc => written_of_ok hrange hc⟩
    refine hrange key hkey run ?_
    unfold runsOf
    rw [hraw]
    exact hrun

/-- The charge 2⁶⁴ + 1. -/
def huge : List Char := "18446744073709551617".toList

/-- A package for that charge passes as one for the charge 1. -/
theorem not_numbers_exact : ¬ ((∀ s, Exact s) ∧
    ∀ metadata c, fromMetadata metadata = .ok c → Written metadata c) := by
  rintro ⟨hexact, -⟩
  have hread : integers huge = [1] := by decide +kernel
  have hwritten : (signedRuns huge).map SignedRun.value = [18446744073709551617] := by decide +kernel
  have hvalues := (hexact huge).values
  rw [hread, hwritten] at hvalues
  exact absurd (List.cons.inj hvalues).1 (by decide)

end Numbers
end UmaContract
end Rgpot.Uma
