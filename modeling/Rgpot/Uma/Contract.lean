import Rgpot.Lib.OrderedMap

/-! The system contract that a UMA package embeds, and the gate it puts before a system. -/
namespace Rgpot.Uma

/-- A value as an `int64_t`. -/
def wrap64 (z : ℤ) : ℤ := Int.bmod z (2 ^ 64)

/-- `std::to_string`. -/
def toString64 (z : ℤ) : List Char :=
  if z < 0 then '-' :: Nat.toDigits 10 z.natAbs else Nat.toDigits 10 z.natAbs

structure UmaContractError where
  field : String
  package : List Char
  actual : List Char
  «where» : String
  deriving DecidableEq

def UmaContractError.what (e : UmaContractError) : List Char :=
  "UmaPot: ".toList ++ e.where.toList ++ " ".toList ++ e.field.toList ++ " is ".toList ++ e.actual ++
    ", the package was exported for ".toList ++ e.package

/-- The fields of the configuration that the contract and the model's inputs read. -/
structure UmaConfig where
  task_name : List Char
  charge : ℤ
  spin : ℤ

structure UmaContract where
  task_name : Option (List Char)
  charge : Option ℤ
  spin : Option ℤ
  z_set : Option (List ℤ)
  counts : Option (OrderedMap ℤ ℤ)
  natoms : Option ℤ

namespace UmaContract

/-- `v = v * 10 + (s[j++] - '0')` over the digits that come next. -/
def scanDigits (v : ℤ) : List Char → ℤ × List Char
  | [] => (v, [])
  | c :: s => if c.isDigit then scanDigits (wrap64 (v * 10 + (c.toNat - '0'.toNat : ℕ))) s else (v, c :: s)

theorem length_scanDigits_le (v : ℤ) (s : List Char) : (scanDigits v s).2.length ≤ s.length := by
  induction s generalizing v with
  | nil => exact le_rfl
  | cons c s ih =>
    unfold scanDigits
    split
    · exact (ih _).trans (Nat.le_succ _)
    · exact le_rfl

theorem length_scanDigits_lt {c : Char} {s : List Char} (h : c.isDigit = true) :
    (scanDigits 0 (c :: s)).2.length < (c :: s).length := by
  rw [scanDigits, if_pos h]
  exact Nat.lt_succ_of_le (length_scanDigits_le _ s)

/-- Signed decimal integers in order of appearance; anything else separates them. -/
def integers : List Char → List ℤ
  | [] => []
  | c :: s =>
    if c = '-' ∧ s.head?.any Char.isDigit then
      wrap64 (-(scanDigits 0 s).1) :: integers (scanDigits 0 s).2
    else if _h : c.isDigit then
      (scanDigits 0 (c :: s)).1 :: integers (scanDigits 0 (c :: s)).2
    else integers s
termination_by s => s.length
decreasing_by
  · exact Nat.lt_succ_of_le (length_scanDigits_le 0 s)
  · exact length_scanDigits_lt _h
  · exact Nat.lt_succ_self _

/-- `m[v[k]] = v[k + 1]` for every second `k`. -/
def pairUp (m : OrderedMap ℤ ℤ) : List ℤ → OrderedMap ℤ ℤ
  | z :: n :: v => pairUp (m.set z n) v
  | _ => m

/-- A key that is there and not empty. -/
def get (metadata : String → Option (List Char)) (key : String) : Option (List Char) :=
  (metadata key).filter fun raw => raw ≠ []

def oneInt (metadata : String → Option (List Char)) (key : String) : Except (List Char) (Option ℤ) :=
  match get metadata key with
  | none => .ok none
  | some raw =>
    match integers raw with
    | [v] => .ok (some v)
    | _ => .error ("UmaPot: package metadata ".toList ++ key.toList ++ " is not one integer: ".toList ++ raw)

def fromMetadata (metadata : String → Option (List Char)) : Except (List Char) UmaContract := do
  let charge ← oneInt metadata "charge"
  let spin ← oneInt metadata "spin"
  let natoms ← oneInt metadata "natoms"
  let z_set := (get metadata "z_set").map fun raw => (integers raw).mergeSort
  let counts ← match get metadata "counts" with
    | none => Except.ok none
    | some raw =>
      if (integers raw).length % 2 ≠ 0 then
        .error ("UmaPot: package metadata counts is not \x7bZ: n\x7d pairs: ".toList ++ raw)
      else .ok (some (pairUp OrderedMap.empty (integers raw)))
  return ⟨get metadata "task_name", charge, spin, z_set, counts, natoms⟩

def strList (v : List ℤ) : List Char :=
  (v.zipIdx.foldl (fun s x => s ++ ((if x.2 ≠ 0 then ", ".toList else []) ++ toString64 x.1))
    "[".toList) ++ "]".toList

def strMap (m : OrderedMap ℤ ℤ) : List Char :=
  (m.entries.foldl (fun (s, first) x =>
    (s ++ ((if first then [] else ", ".toList) ++ toString64 x.1 ++ ": ".toList ++ toString64 x.2), false))
    ("\x7b".toList, true)).1 ++ "\x7d".toList

/-- `++have[atmnrs[i]]` for every atom. -/
def histogram (atmnrs : List ℤ) : OrderedMap ℤ ℤ :=
  atmnrs.foldl (fun m z => m.set z ((m.get? z).getD 0 + 1)) OrderedMap.empty

/-- Task, charge and spin of the calculator against the package. -/
def checkConfig (c : UmaContract) (cfg : UmaConfig) : Except UmaContractError Unit := do
  if let some task_name := c.task_name then
    if task_name ≠ cfg.task_name then
      throw ⟨"task_name", task_name, cfg.task_name, "config"⟩
  if let some charge := c.charge then
    if charge ≠ cfg.charge then
      throw ⟨"charge", toString64 charge, toString64 cfg.charge, "config"⟩
  if let some spin := c.spin then
    if spin ≠ cfg.spin then
      throw ⟨"spin", toString64 spin, toString64 cfg.spin, "config"⟩

/-- Atom count, element set and per-element counts of one system. -/
def checkSystem (c : UmaContract) (atmnrs : List ℤ) : Except UmaContractError Unit := do
  let nAtoms := wrap64 atmnrs.length
  if let some natoms := c.natoms then
    if natoms ≠ nAtoms then
      throw ⟨"natoms", toString64 natoms, toString64 atmnrs.length, "input"⟩
  if c.z_set.isNone ∧ c.counts.isNone then
    return
  let present := histogram atmnrs
  if let some counts := c.counts then
    if counts ≠ present then
      throw ⟨"counts", strMap counts, strMap present, "input"⟩
  if let some z_set := c.z_set then
    if present.entries.map Prod.fst ≠ z_set then
      throw ⟨"z_set", strList z_set, strList (present.entries.map Prod.fst), "input"⟩

section Printing

theorem wrap64_of_abs_lt {z : ℤ} (h : |z| < 2 ^ 63) : wrap64 z = z := by
  rw [abs_lt] at h
  unfold wrap64
  rw [Int.bmod_def]
  omega

theorem le_ofDigitChars (s : List Char) (v : ℕ) : v ≤ Nat.ofDigitChars 10 s v := by
  rw [Nat.ofDigitChars_eq_ofDigitChars_zero]
  exact (Nat.le_mul_of_pos_left v (by positivity)).trans (Nat.le_add_right _ _)

/-- The scan reads a number up to the next character that is no digit. -/
theorem scanDigits_append {s rest : List Char} {v : ℕ} (hs : ∀ c ∈ s, c.isDigit = true)
    (hrest : rest.head?.any Char.isDigit = false) (hv : Nat.ofDigitChars 10 s v < 2 ^ 63) :
    scanDigits v (s ++ rest) = (((Nat.ofDigitChars 10 s v : ℕ) : ℤ), rest) := by
  induction s generalizing v with
  | nil =>
    cases rest with
    | nil => rfl
    | cons c rest =>
      rw [List.head?_cons, Option.any_some] at hrest
      rw [List.nil_append, scanDigits, hrest]
      rfl
  | cons c s ih =>
    rw [Nat.ofDigitChars_cons] at hv ⊢
    have hstep : wrap64 ((v : ℤ) * 10 + (c.toNat - '0'.toNat : ℕ)) =
        ((10 * v + (c.toNat - '0'.toNat) : ℕ) : ℤ) := by
      have hle := le_ofDigitChars s (10 * v + (c.toNat - '0'.toNat))
      rw [wrap64_of_abs_lt]
      · push_cast
        ring
      · rw [abs_of_nonneg (by positivity)]
        omega
    rw [List.cons_append, scanDigits, if_pos (hs c List.mem_cons_self), hstep]
    exact ih (fun d hd => hs d (List.mem_cons_of_mem c hd)) hv

theorem scanDigits_toDigits {n : ℕ} {rest : List Char} (hn : n < 2 ^ 63)
    (hrest : rest.head?.any Char.isDigit = false) :
    scanDigits 0 (Nat.toDigits 10 n ++ rest) = ((n : ℤ), rest) := by
  have h := scanDigits_append (v := 0)
    (fun c hc => Nat.isDigit_of_mem_toDigits (b := 10) (by decide) (by decide) hc) hrest
    (by rwa [Nat.ofDigitChars_ten_toDigits])
  rwa [Nat.ofDigitChars_ten_toDigits] at h

theorem head_toDigits (n : ℕ) : ∃ c s, Nat.toDigits 10 n = c :: s ∧ c.isDigit = true := by
  cases h : Nat.toDigits 10 n with
  | nil => exact absurd h Nat.toDigits_ne_nil
  | cons c s =>
    refine ⟨c, s, rfl, Nat.isDigit_of_mem_toDigits (b := 10) (n := n) (by decide) (by decide) ?_⟩
    rw [h]
    exact List.mem_cons_self

/-- A printed number is read back and the scan goes on behind it. -/
theorem integers_toString64 {z : ℤ} {rest : List Char} (hz : |z| < 2 ^ 63)
    (hrest : rest.head?.any Char.isDigit = false) :
    integers (toString64 z ++ rest) = z :: integers rest := by
  have hn : z.natAbs < 2 ^ 63 := by
    rw [Int.abs_eq_natAbs] at hz
    exact_mod_cast hz
  obtain ⟨c, s, hhead, hc⟩ := head_toDigits z.natAbs
  have hscan := scanDigits_toDigits hn hrest
  unfold toString64
  split
  · rename_i hneg
    have hvalue : wrap64 (-(z.natAbs : ℤ)) = z := by
      rw [wrap64_of_abs_lt]
      · omega
      · rw [abs_neg, Nat.abs_cast]
        exact_mod_cast hn
    have hnext : (Nat.toDigits 10 z.natAbs ++ rest).head?.any Char.isDigit = true := by
      rw [hhead]
      exact hc
    rw [List.cons_append, integers, if_pos ⟨rfl, hnext⟩, hscan, hvalue]
  · rename_i hneg
    have hvalue : (z.natAbs : ℤ) = z := by omega
    have hminus : ¬ (c = '-' ∧ (s ++ rest).head?.any Char.isDigit = true) := by
      rintro ⟨rfl, -⟩
      exact absurd hc (by decide)
    rw [hhead, List.cons_append] at hscan ⊢
    rw [integers, if_neg hminus, dif_pos hc, hscan, hvalue]

theorem integers_separator {c : Char} {s : List Char} (hminus : c ≠ '-') (hc : c.isDigit = false) :
    integers (c :: s) = integers s := by
  rw [integers, if_neg fun h => hminus h.1, dif_neg (by rw [hc]; exact Bool.false_ne_true)]

/-- `", "` in front of a number. -/
def listed (z : ℤ) : List Char := ',' :: ' ' :: toString64 z

/-- `", "`, a number, `": "` and a number. -/
def pair (x : ℤ × ℤ) : List Char := ',' :: ' ' :: toString64 x.1 ++ ':' :: ' ' :: toString64 x.2

theorem foldl_listed (v : List ℤ) (s : List Char) (k : ℕ) :
    (v.zipIdx (k + 1)).foldl (fun s x =>
      s ++ ((if x.2 ≠ 0 then ", ".toList else []) ++ toString64 x.1)) s = s ++ v.flatMap listed := by
  induction v generalizing s k with
  | nil => simp
  | cons z v ih =>
    rw [List.zipIdx_cons, List.foldl_cons, ih, List.flatMap_cons]
    simp [listed]

theorem strList_cons (z : ℤ) (v : List ℤ) :
    strList (z :: v) = '[' :: (toString64 z ++ (v.flatMap listed ++ [']'])) := by
  rw [strList, List.zipIdx_cons, List.foldl_cons, foldl_listed]
  simp

theorem foldl_pair (v : List (ℤ × ℤ)) (s : List Char) :
    (v.foldl (fun (s, first) x => (s ++ ((if first then [] else ", ".toList) ++ toString64 x.1 ++
      ": ".toList ++ toString64 x.2), false)) (s, false)).1 = s ++ v.flatMap pair := by
  induction v generalizing s with
  | nil => simp
  | cons x v ih =>
    rw [List.foldl_cons, ih, List.flatMap_cons]
    simp [pair]

theorem strMap_cons (m : OrderedMap ℤ ℤ) (x : ℤ × ℤ) (v : List (ℤ × ℤ)) (h : m.entries = x :: v) :
    strMap m = '\x7b' :: (toString64 x.1 ++ (':' :: ' ' :: (toString64 x.2 ++
      (v.flatMap pair ++ ['\x7d'])))) := by
  rw [strMap, h, List.foldl_cons, foldl_pair]
  simp

theorem integers_close {c : Char} (hminus : c ≠ '-') (hc : c.isDigit = false) :
    integers [c] = [] := by
  rw [integers_separator hminus hc, integers]

theorem head_listed (v : List ℤ) : (v.flatMap listed ++ [']']).head?.any Char.isDigit = false := by
  cases v with
  | nil => rfl
  | cons z v => rfl

theorem head_pair (v : List (ℤ × ℤ)) :
    (v.flatMap pair ++ ['\x7d']).head?.any Char.isDigit = false := by
  cases v with
  | nil => rfl
  | cons x v => rfl

theorem integers_listed {v : List ℤ} (hv : ∀ z ∈ v, |z| < 2 ^ 63) :
    integers (v.flatMap listed ++ [']']) = v := by
  induction v with
  | nil => exact integers_close (by decide) rfl
  | cons z v ih =>
    have hz := hv z List.mem_cons_self
    rw [List.flatMap_cons, listed, List.append_assoc, List.cons_append, List.cons_append,
      integers_separator (by decide) rfl, integers_separator (by decide) rfl,
      integers_toString64 hz (head_listed v), ih fun w hw => hv w (List.mem_cons_of_mem z hw)]

/-- A printed list is read back. -/
theorem integers_strList {v : List ℤ} (hv : ∀ z ∈ v, |z| < 2 ^ 63) : integers (strList v) = v := by
  cases v with
  | nil =>
    have hprint : strList [] = '[' :: [']'] := rfl
    rw [hprint, integers_separator (by decide) rfl, integers_close (by decide) rfl]
  | cons z v =>
    rw [strList_cons, integers_separator (by decide) rfl,
      integers_toString64 (hv z List.mem_cons_self) (head_listed v),
      integers_listed fun w hw => hv w (List.mem_cons_of_mem z hw)]

/-- The keys and values of a map in turn. -/
def flatten (v : List (ℤ × ℤ)) : List ℤ := v.flatMap fun x => [x.1, x.2]

theorem integers_pair {v : List (ℤ × ℤ)} (hv : ∀ x ∈ v, |x.1| < 2 ^ 63 ∧ |x.2| < 2 ^ 63) :
    integers (v.flatMap pair ++ ['\x7d']) = flatten v := by
  induction v with
  | nil => exact integers_close (by decide) rfl
  | cons x v ih =>
    obtain ⟨hz, hn⟩ := hv x List.mem_cons_self
    rw [List.flatMap_cons, pair, List.append_assoc, List.append_assoc, List.cons_append,
      List.cons_append, List.cons_append, List.cons_append,
      integers_separator (by decide) rfl, integers_separator (by decide) rfl,
      integers_toString64 hz rfl, integers_separator (by decide) rfl,
      integers_separator (by decide) rfl, integers_toString64 hn (head_pair v),
      ih fun y hy => hv y (List.mem_cons_of_mem x hy)]
    rfl

theorem integers_strMap {m : OrderedMap ℤ ℤ}
    (hm : ∀ x ∈ m.entries, |x.1| < 2 ^ 63 ∧ |x.2| < 2 ^ 63) :
    integers (strMap m) = flatten m.entries := by
  cases h : m.entries with
  | nil =>
    have hprint : strMap m = '\x7b' :: ['\x7d'] := by
      rw [strMap, h]
      rfl
    rw [hprint, integers_separator (by decide) rfl, integers_close (by decide) rfl]
    rfl
  | cons x v =>
    rw [h] at hm
    obtain ⟨hz, hn⟩ := hm x List.mem_cons_self
    rw [strMap_cons m x v h, integers_separator (by decide) rfl, integers_toString64 hz rfl,
      integers_separator (by decide) rfl, integers_separator (by decide) rfl,
      integers_toString64 hn (head_pair v),
      integers_pair fun y hy => hm y (List.mem_cons_of_mem x hy)]
    rfl

theorem pairUp_flatten (m : OrderedMap ℤ ℤ) (v : List (ℤ × ℤ)) :
    pairUp m (flatten v) = v.foldl (fun m x => m.set x.1 x.2) m := by
  induction v generalizing m with
  | nil => rfl
  | cons x v ih => exact ih _

theorem even_length_flatten (v : List (ℤ × ℤ)) : (flatten v).length % 2 = 0 := by
  induction v with
  | nil => rfl
  | cons x v ih =>
    simp only [flatten, List.flatMap_cons, List.length_append, List.length_cons,
      List.length_nil] at ih ⊢
    omega

/-- A printed map is read back. -/
theorem pairUp_strMap {m : OrderedMap ℤ ℤ}
    (hm : ∀ x ∈ m.entries, |x.1| < 2 ^ 63 ∧ |x.2| < 2 ^ 63) :
    pairUp OrderedMap.empty (integers (strMap m)) = m := by
  rw [integers_strMap hm, pairUp_flatten]
  exact OrderedMap.foldl_set m.entries m.ordered

end Printing

section System

/-- The histogram of a system is a function of the multiset of its atoms. -/
theorem histogram_get? (atmnrs : List ℤ) (z : ℤ) : (histogram atmnrs).get? z =
    if z ∈ atmnrs then some (atmnrs.count z : ℤ) else none := by
  induction atmnrs using List.reverseRecOn with
  | nil => rfl
  | append_singleton l w ih =>
    have hlast : histogram (l ++ [w]) =
        (histogram l).set w (((histogram l).get? w).getD 0 + 1) := by
      rw [histogram, List.foldl_append]
      rfl
    rw [hlast, OrderedMap.get?_set, List.count_append, List.count_singleton]
    by_cases h : z = w
    · subst h
      rw [if_pos rfl, if_pos (by simp), ih]
      split
      · simp
      · rename_i hz
        simp [List.count_eq_zero_of_not_mem hz]
    · rw [if_neg h, ih]
      simp [h, Ne.symm h]

theorem histogram_perm {l l' : List ℤ} (h : l.Perm l') : histogram l = histogram l' := by
  apply OrderedMap.ext_get?
  intro z
  rw [histogram_get?, histogram_get?, h.count_eq]
  simp only [h.mem_iff]

/-- The gate does not see the order of the atoms, whatever the package embeds. -/
theorem checkSystem_perm (c : UmaContract) {l l' : List ℤ} (h : l.Perm l') :
    checkSystem c l = checkSystem c l' := by
  unfold checkSystem
  rw [histogram_perm h, h.length_eq]

/-- A gate that checks all three accepts the systems that agree with all three. -/
theorem checkSystem_eq_ok {c : UmaContract} {natoms : ℤ} {counts : OrderedMap ℤ ℤ} {z_set : List ℤ}
    (hnatoms : c.natoms = some natoms) (hcounts : c.counts = some counts)
    (hz : c.z_set = some z_set) (atmnrs : List ℤ) : checkSystem c atmnrs = .ok () ↔
      natoms = wrap64 atmnrs.length ∧ counts = histogram atmnrs ∧
        (histogram atmnrs).entries.map Prod.fst = z_set := by
  unfold checkSystem
  rw [hnatoms, hcounts, hz]
  by_cases h1 : natoms = wrap64 atmnrs.length
  · by_cases h2 : counts = histogram atmnrs
    · by_cases h3 : (histogram atmnrs).entries.map Prod.fst = z_set
      · simp [h1, h2, h3, pure, Except.pure]
      · simp [h1, h2, h3, throw, throwThe, MonadExceptOf.throw]
    · simp [h1, h2, bind, Except.bind, throw, throwThe, MonadExceptOf.throw]
  · simp [h1, bind, Except.bind, throw, throwThe, MonadExceptOf.throw]

end System

end UmaContract

/-- What a package is exported for: some atoms, whatever their order. -/
structure Composition where
  elements : Multiset ℤ
  element_lt : ∀ z ∈ elements, |z| < 2 ^ 63
  card_lt : Multiset.card elements < 2 ^ 63

namespace Composition

/-- The sorted list of the elements. -/
def zSet (c : Composition) : List ℤ := c.elements.toFinset.sort (· ≤ ·)

/-- Atomic numbers with their atom counts. -/
def counts (c : Composition) : OrderedMap ℤ ℤ where
  entries := c.zSet.map fun z => (z, (c.elements.count z : ℤ))
  ordered := List.pairwise_map.mpr (Finset.sortedLT_sort _).pairwise

theorem mem_zSet (c : Composition) {z : ℤ} : z ∈ c.zSet ↔ z ∈ c.elements := by
  rw [zSet, Finset.mem_sort, Multiset.mem_toFinset]

theorem counts_get? (c : Composition) (z : ℤ) :
    c.counts.get? z = if z ∈ c.elements then some (c.elements.count z : ℤ) else none := by
  split
  · rename_i hz
    exact OrderedMap.get?_eq_some.mpr (List.mem_map_of_mem (c.mem_zSet.mpr hz))
  · rename_i hz
    rw [Option.eq_none_iff_forall_ne_some]
    intro n hn
    obtain ⟨w, hw, heq⟩ := List.mem_map.mp (OrderedMap.get?_eq_some.mp hn)
    cases heq
    exact hz (c.mem_zSet.mp hw)

/-- The counts agree exactly for the reorderings. -/
theorem counts_eq_histogram_iff (c : Composition) (atmnrs : List ℤ) :
    c.counts = UmaContract.histogram atmnrs ↔ (atmnrs : Multiset ℤ) = c.elements := by
  constructor
  · intro h
    apply Multiset.ext.mpr
    intro z
    have hz := congrArg (fun m => m.get? z) h
    simp only [counts_get?, UmaContract.histogram_get?] at hz
    rw [Multiset.coe_count]
    by_cases hc : z ∈ c.elements
    · by_cases ha : z ∈ atmnrs
      · rw [if_pos hc, if_pos ha, Option.some.injEq] at hz
        exact_mod_cast hz.symm
      · rw [if_pos hc, if_neg ha] at hz
        cases hz
    · by_cases ha : z ∈ atmnrs
      · rw [if_neg hc, if_pos ha] at hz
        cases hz
      · rw [Multiset.count_eq_zero_of_notMem hc, List.count_eq_zero_of_not_mem ha]
  · intro h
    apply OrderedMap.ext_get?
    intro z
    rw [counts_get?, UmaContract.histogram_get?, ← h, Multiset.coe_count]
    simp only [Multiset.mem_coe]

theorem counts_lt (c : Composition) : ∀ x ∈ c.counts.entries, |x.1| < 2 ^ 63 ∧ |x.2| < 2 ^ 63 := by
  intro x hx
  obtain ⟨z, hz, rfl⟩ := List.mem_map.mp hx
  refine ⟨c.element_lt z (c.mem_zSet.mp hz), ?_⟩
  rw [Nat.abs_cast]
  exact_mod_cast (Multiset.count_le_card z c.elements).trans_lt c.card_lt

end Composition

/-- What an exporter writes into a package. -/
structure Export where
  composition : Composition
  charge : Option { q : ℤ // |q| < 2 ^ 63 }
  spin : Option { s : ℤ // |s| < 2 ^ 63 }
  task_name : Option (List Char)
  other : String → Option (List Char)

namespace Export

def metadata (e : Export) : String → Option (List Char)
  | "natoms" => some (toString64 (Multiset.card e.composition.elements))
  | "counts" => some (UmaContract.strMap e.composition.counts)
  | "z_set" => some (UmaContract.strList e.composition.zSet)
  | "charge" => e.charge.map fun q => toString64 q
  | "spin" => e.spin.map fun s => toString64 s
  | "task_name" => e.task_name
  | key => e.other key

/-- What the gate reads back. -/
def contract (e : Export) : UmaContract where
  task_name := UmaContract.get e.metadata "task_name"
  charge := e.charge.map Subtype.val
  spin := e.spin.map Subtype.val
  z_set := some e.composition.zSet
  counts := some e.composition.counts
  natoms := some (Multiset.card e.composition.elements)

open UmaContract

theorem toString64_ne_nil (z : ℤ) : toString64 z ≠ [] := by
  unfold toString64
  split
  · exact List.cons_ne_nil _ _
  · exact Nat.toDigits_ne_nil

theorem integers_toString64_end {z : ℤ} (hz : |z| < 2 ^ 63) : integers (toString64 z) = [z] := by
  have h : integers (toString64 z ++ []) = z :: integers [] := integers_toString64 hz rfl
  rwa [List.append_nil, integers] at h

theorem get_eq_some {metadata : String → Option (List Char)} {key : String} {raw : List Char}
    (h : metadata key = some raw) (hne : raw ≠ []) : UmaContract.get metadata key = some raw := by
  rw [UmaContract.get, h, Option.filter_some, if_pos (decide_eq_true hne)]

theorem oneInt_printed {metadata : String → Option (List Char)} {key : String}
    (z : Option { z : ℤ // |z| < 2 ^ 63 })
    (h : metadata key = z.map fun z => toString64 z) :
    oneInt metadata key = .ok (z.map Subtype.val) := by
  cases z with
  | none =>
    rw [oneInt, UmaContract.get, h]
    rfl
  | some z =>
    rw [oneInt, get_eq_some h (toString64_ne_nil z)]
    simp only [integers_toString64_end z.2]
    rfl

theorem fromMetadata_eq (e : Export) : fromMetadata e.metadata = .ok e.contract := by
  have hcard : |(Multiset.card e.composition.elements : ℤ)| < 2 ^ 63 := by
    rw [Nat.abs_cast]
    exact_mod_cast e.composition.card_lt
  have hnatoms : oneInt e.metadata "natoms" = .ok (some (Multiset.card e.composition.elements : ℤ)) :=
    oneInt_printed (some ⟨_, hcard⟩) rfl
  have hcharge : oneInt e.metadata "charge" = .ok (e.charge.map Subtype.val) := oneInt_printed _ rfl
  have hspin : oneInt e.metadata "spin" = .ok (e.spin.map Subtype.val) := oneInt_printed _ rfl
  have hz : UmaContract.get e.metadata "z_set" = some (strList e.composition.zSet) := by
    exact get_eq_some rfl (List.append_ne_nil_of_right_ne_nil _ (List.cons_ne_nil _ _))
  have hcounts : UmaContract.get e.metadata "counts" = some (strMap e.composition.counts) := by
    exact get_eq_some rfl (List.append_ne_nil_of_right_ne_nil _ (List.cons_ne_nil _ _))
  have hread : integers (strList e.composition.zSet) = e.composition.zSet :=
    integers_strList fun z hz => e.composition.element_lt z (e.composition.mem_zSet.mp hz)
  have hsort : e.composition.zSet.mergeSort = e.composition.zSet := by
    apply List.mergeSort_of_pairwise
    exact (Finset.pairwise_sort _ _).imp fun h => decide_eq_true h
  have heven : (integers (strMap e.composition.counts)).length % 2 = 0 := by
    rw [integers_strMap e.composition.counts_lt]
    exact even_length_flatten _
  rw [fromMetadata, hcharge, hspin, hnatoms, hz, hcounts]
  simp only [bind, Except.bind, pure, Except.pure, heven, ne_eq, not_true_eq_false, if_false,
    Option.map_some, hread, hsort, pairUp_strMap e.composition.counts_lt]
  rfl

end Export

/-- A package's gate reads the exported element list and counts back and passes exactly the
reorderings of the exported atoms; no gate sees the order of the atoms. -/
theorem checkSystem_iff_composition (e : Export) :
    (∃ c, UmaContract.fromMetadata e.metadata = .ok c ∧ c.counts = some e.composition.counts ∧
      c.z_set = some e.composition.zSet ∧ c.natoms = some (Multiset.card e.composition.elements : ℤ) ∧
      ∀ atmnrs : List ℤ, c.checkSystem atmnrs = .ok () ↔ (atmnrs : Multiset ℤ) = e.composition.elements) ∧
    ∀ (c : UmaContract) (l l' : List ℤ), l.Perm l' → c.checkSystem l = c.checkSystem l' := by
  refine ⟨⟨e.contract, e.fromMetadata_eq, rfl, rfl, rfl, ?_⟩, fun c l l' h => c.checkSystem_perm h⟩
  intro atmnrs
  rw [UmaContract.checkSystem_eq_ok rfl rfl rfl]
  constructor
  · rintro ⟨-, hcounts, -⟩
    exact (e.composition.counts_eq_histogram_iff atmnrs).mp hcounts
  · intro h
    have hcounts := (e.composition.counts_eq_histogram_iff atmnrs).mpr h
    have hcard : (Multiset.card e.composition.elements : ℤ) = atmnrs.length := by
      rw [← h, Multiset.coe_card]
    refine ⟨?_, hcounts, ?_⟩
    · rw [← hcard, UmaContract.wrap64_of_abs_lt]
      rw [Nat.abs_cast]
      exact_mod_cast e.composition.card_lt
    · rw [← hcounts, Composition.counts, List.map_map]
      exact List.map_id _

/-- Water. -/
def water : Composition where
  elements := {8, 1, 1}
  element_lt := by decide
  card_lt := by decide

def waterExport : Export where
  composition := water
  charge := some ⟨0, by decide⟩
  spin := some ⟨1, by decide⟩
  task_name := some "omol".toList
  other _ := none

theorem water_zSet : water.zSet = [1, 8] := by
  have hset : water.zSet.toFinset = [1, 8].toFinset := by
    rw [Composition.zSet, Finset.sort_toFinset]
    decide
  have hperm := List.perm_of_nodup_nodup_toFinset_eq (Finset.sort_nodup _ _) (by decide) hset
  exact List.Perm.eq_of_pairwise' (Finset.pairwise_sort _ _) (by decide) hperm

/-- The package takes water in any order of its atoms, and no peroxide. -/
theorem checkSystem_iff_composition_water :
    waterExport.metadata "z_set" = some "[1, 8]".toList ∧
    ∃ c, UmaContract.fromMetadata waterExport.metadata = .ok c ∧ c.checkSystem [1, 8, 1] = .ok () ∧
      c.checkSystem [8, 1, 1] = .ok () ∧ c.checkSystem [8, 1, 8, 1] ≠ .ok () := by
  obtain ⟨⟨c, hc, -, -, -, htakes⟩, hperm⟩ := checkSystem_iff_composition waterExport
  have hwater : c.checkSystem [1, 8, 1] = .ok () := (htakes _).mpr (by decide)
  refine ⟨?_, c, hc, hwater, ?_, fun h => absurd ((htakes _).mp h) (by decide)⟩
  · exact congrArg (fun z => some (UmaContract.strList z)) water_zSet
  · rw [hperm c [8, 1, 1] [1, 8, 1] (List.Perm.swap _ _ _)]
    exact hwater

end Rgpot.Uma
