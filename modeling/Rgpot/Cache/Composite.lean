import Rgpot.Cache.Configs

/-! The fingerprint of `ExprPot`: which composites it separates. -/
namespace Rgpot.Cache
open Fnv1a

/-- A potential: of a leaf class, or an `ExprPot` over named children. -/
inductive Pot where
  | leaf (c : Config)
  | expr (expression : Str) (terms : List (Str × Pot))

namespace Pot

def type : Pot → PotType
  | leaf c => c.type
  | expr _ _ => .Expr

mutual

/-- `paramsKey()`. -/
def paramsKey : Pot → UInt64
  | leaf c => c.paramsKey
  | expr expression terms => Fnv1a.h (u64 1 ++ (str expression ++ termBytes terms))

/-- What the constructor hashes of its terms: each name, and the child's key alone. -/
def termBytes : List (Str × Pot) → List UInt8
  | [] => []
  | (name, child) :: terms => str name ++ (u64 child.paramsKey ++ termBytes terms)

end

def exprBytes (expression : Str) (terms : List (Str × Pot)) : List UInt8 :=
  u64 1 ++ (str expression ++ termBytes terms)

/-- The bytes the key is the hash of; none for the default key. -/
def fingerprint : Pot → Option (List UInt8)
  | leaf c => c.fingerprint
  | expr expression terms => some (exprBytes expression terms)

/-- The first word hashed. -/
def salt : Pot → UInt64
  | leaf c => c.salt
  | expr _ _ => 1

mutual

/-- Every byte string hashed for a potential and the potentials under it. -/
def hashed : Pot → Set (List UInt8)
  | leaf c => { data | c.fingerprint = some data }
  | expr expression terms => insert (exprBytes expression terms) (hashedTerms terms)

def hashedTerms : List (Str × Pot) → Set (List UInt8)
  | [] => ∅
  | (_, child) :: terms => child.hashed ∪ hashedTerms terms

end

/-- One byte string, or the default key on both sides; a string that hashes to the default key is
not told from it. -/
def SameKey : Option (List UInt8) → Option (List UInt8) → Prop
  | none, none => True
  | some data, some data' => data = data'
  | some data, none => Fnv1a.h data = 0
  | none, some data => Fnv1a.h data = 0

mutual

/-- One tree: the expressions and the names, and at every leaf the potential type and the key. -/
def SameTree : Pot → Pot → Prop
  | leaf c, leaf c' => c.type = c'.type ∧ c.paramsKey = c'.paramsKey
  | expr expression terms, expr expression' terms' =>
    expression = expression' ∧ SameTerms terms terms'
  | leaf _, expr _ _ => False
  | expr _ _, leaf _ => False

def SameTerms : List (Str × Pot) → List (Str × Pot) → Prop
  | [], [] => True
  | (name, child) :: terms, (name', child') :: terms' =>
    name = name' ∧ child.SameTree child' ∧ SameTerms terms terms'
  | [], _ :: _ => False
  | _ :: _, [] => False

end

/-- Two potentials of different types whose classes hash the same bytes, or neither any. -/
structure Twins (p q : Pot) : Prop where
  type : p.type ≠ q.type
  bytes : SameKey p.fingerprint q.fingerprint

mutual

/-- One tree is the other with a twin, at one place or more, in the place of a child. -/
def Exchanged : Pot → Pot → Prop
  | expr expression terms, expr expression' terms' =>
    expression = expression' ∧ ExchangedTerms terms terms'
  | leaf c, leaf c' => Twins (leaf c) (leaf c')
  | leaf c, expr expression terms => Twins (leaf c) (expr expression terms)
  | expr expression terms, leaf c => Twins (expr expression terms) (leaf c)

def ExchangedTerms : List (Str × Pot) → List (Str × Pot) → Prop
  | (name, child) :: terms, (name', child') :: terms' =>
    name = name' ∧
      (child.Exchanged child' ∧ (SameTerms terms terms' ∨ ExchangedTerms terms terms') ∨
        child.SameTree child' ∧ ExchangedTerms terms terms')
  | [], [] => False
  | [], _ :: _ => False
  | _ :: _, [] => False

end

variable {p q : Pot} {expression expression' : Str} {terms terms' : List (Str × Pot)}

theorem paramsKey_eq (p : Pot) : p.paramsKey = (p.fingerprint.map Fnv1a.h).getD 0 := by
  cases p with
  | leaf c => cases hc : c.fingerprint <;> simp [paramsKey, fingerprint, Config.paramsKey, hc]
  | expr => simp only [paramsKey, fingerprint, exprBytes, Option.map_some, Option.getD_some]

theorem fingerprint_eq_salt {data : List UInt8} (h : p.fingerprint = some data) :
    ∃ rest, data = u64 p.salt ++ rest := by
  cases p with
  | leaf c => exact Config.fingerprint_eq_salt h
  | expr => exact ⟨_, (Option.some.inj h).symm⟩

theorem salt_cases (p : Pot) :
    p.salt = 1 ∨ (p.salt = 2 ∧ p.type = .Uma) ∨ (p.salt = 18 ∧ p.type = .UNKNOWN) := by
  cases p with
  | leaf c => exact c.salt_cases
  | expr => exact Or.inl rfl

theorem sameKey_iff {D : Set (List UInt8)} (hinj : D.InjOn Fnv1a.h)
    (hp : ∀ data, p.fingerprint = some data → data ∈ D)
    (hq : ∀ data, q.fingerprint = some data → data ∈ D) :
    p.paramsKey = q.paramsKey ↔ SameKey p.fingerprint q.fingerprint := by
  rw [paramsKey_eq p, paramsKey_eq q]
  cases hfp : p.fingerprint with
  | none =>
    cases q.fingerprint with
    | none => simp [SameKey]
    | some data' => exact eq_comm
  | some data =>
    cases hfq : q.fingerprint with
    | none => simp [SameKey]
    | some data' => simpa [SameKey] using hinj.eq_iff (hp data hfp) (hq data' hfq)

theorem fingerprint_mem_hashed (p : Pot) {data : List UInt8} (h : p.fingerprint = some data) :
    data ∈ p.hashed := by
  cases p with
  | leaf c => exact h
  | expr => exact Set.mem_insert_iff.mpr (Or.inl (Option.some.inj h).symm)

theorem termBytes_cons_ne_nil (t : Str × Pot) (terms : List (Str × Pot)) :
    termBytes (t :: terms) ≠ [] := by
  have hword : ∀ v : UInt64, (u64 v).length = 8 := Words.Word.length_bytes
  intro h
  have hlen := congrArg List.length h
  simp [termBytes, str, hword] at hlen

/-- Keys of two potentials whose own strings do not collide. -/
theorem sameKey_iff_of_hashed (hinj : (p.hashed ∪ q.hashed).InjOn Fnv1a.h) :
    p.paramsKey = q.paramsKey ↔ SameKey p.fingerprint q.fingerprint :=
  sameKey_iff hinj (fun _ h => Or.inl (p.fingerprint_mem_hashed h))
    fun _ h => Or.inr (q.fingerprint_mem_hashed h)

theorem exprBytes_inj : exprBytes expression terms = exprBytes expression' terms' ↔
    expression = expression' ∧ termBytes terms = termBytes terms' := by
  simp [exprBytes]

/-- A key of a leaf is that of another node exactly when the two are one leaf or twins. -/
theorem leaf_paramsKey_eq_iff {c c' : Config}
    (hinj : ((leaf c).hashed ∪ (leaf c').hashed).InjOn Fnv1a.h) :
    c.paramsKey = c'.paramsKey ↔ (leaf c).SameTree (leaf c') ∨ (leaf c).Exchanged (leaf c') := by
  have hkey : c.paramsKey = c'.paramsKey ↔ SameKey (leaf c).fingerprint (leaf c').fingerprint := by
    simpa only [paramsKey] using sameKey_iff_of_hashed hinj
  simp only [SameTree, Exchanged]
  by_cases htype : c.type = c'.type
  · have hnot : ¬ Twins (leaf c) (leaf c') := fun h => h.type htype
    simp [htype, hnot]
  · constructor
    · exact fun h => Or.inr ⟨htype, hkey.mp h⟩
    · rintro (⟨h, _⟩ | h)
      · exact (htype h).elim
      · exact hkey.mpr h.bytes

mutual

/-- Where no two of the strings hashed collide, keys agree exactly for one tree, and for a tree
with twins exchanged: induction over the first composite. -/
theorem paramsKey_eq_iff : ∀ p q : Pot, (p.hashed ∪ q.hashed).InjOn Fnv1a.h →
    (p.paramsKey = q.paramsKey ↔ p.SameTree q ∨ p.Exchanged q)
  | leaf c, leaf c', hinj => by
    simpa only [paramsKey] using leaf_paramsKey_eq_iff hinj
  | leaf c, expr expression terms, hinj => by
    rw [sameKey_iff_of_hashed hinj, SameTree, Exchanged, false_or]
    exact ⟨fun h => ⟨c.type_ne_expr, h⟩, fun h => h.bytes⟩
  | expr expression terms, leaf c, hinj => by
    rw [sameKey_iff_of_hashed hinj, SameTree, Exchanged, false_or]
    exact ⟨fun h => ⟨c.type_ne_expr.symm, h⟩, fun h => h.bytes⟩
  | expr expression terms, expr expression' terms', hinj => by
    have hterms : (hashedTerms terms ∪ hashedTerms terms').InjOn Fnv1a.h := by
      refine hinj.mono (Set.union_subset_union ?_ ?_)
      · exact Set.subset_insert _ _
      · exact Set.subset_insert _ _
    rw [sameKey_iff_of_hashed hinj]
    change exprBytes expression terms = exprBytes expression' terms' ↔ _
    rw [exprBytes_inj, termBytes_eq_iff terms terms' hterms]
    simp only [SameTree, Exchanged, and_or_left]

theorem termBytes_eq_iff : ∀ terms terms' : List (Str × Pot),
    (hashedTerms terms ∪ hashedTerms terms').InjOn Fnv1a.h →
    (termBytes terms = termBytes terms' ↔ SameTerms terms terms' ∨ ExchangedTerms terms terms')
  | [], [], _ => by simp [SameTerms]
  | [], t :: terms', _ => by
    simp [SameTerms, ExchangedTerms, termBytes.eq_1, (termBytes_cons_ne_nil t terms').symm]
  | t :: terms, [], _ => by
    simp [SameTerms, ExchangedTerms, termBytes.eq_1, termBytes_cons_ne_nil t terms]
  | (name, child) :: terms, (name', child') :: terms', hinj => by
    have hchild : (child.hashed ∪ child'.hashed).InjOn Fnv1a.h :=
      hinj.mono (Set.union_subset_union Set.subset_union_left Set.subset_union_left)
    have hrest : (hashedTerms terms ∪ hashedTerms terms').InjOn Fnv1a.h :=
      hinj.mono (Set.union_subset_union Set.subset_union_right Set.subset_union_right)
    simp only [termBytes, str_append_inj, u64_append_inj, SameTerms, ExchangedTerms,
      paramsKey_eq_iff child child' hchild, termBytes_eq_iff terms terms' hrest]
    tauto

end

mutual

/-- An exchanged leaf has another type, so a tree with one is not the same tree. -/
theorem Exchanged.not_sameTree : ∀ p q : Pot, p.Exchanged q → ¬ p.SameTree q
  | leaf c, leaf c' => by
    simp only [Exchanged, SameTree]
    exact fun h hsame => h.type hsame.1
  | leaf c, expr expression terms => by simp [SameTree]
  | expr expression terms, leaf c => by simp [SameTree]
  | expr expression terms, expr expression' terms' => by
    simp only [Exchanged, SameTree]
    exact fun h hsame => ExchangedTerms.not_sameTerms terms terms' h.2 hsame.2

theorem ExchangedTerms.not_sameTerms : ∀ terms terms' : List (Str × Pot),
    ExchangedTerms terms terms' → ¬ SameTerms terms terms'
  | [], [] => by simp [ExchangedTerms]
  | [], _ :: _ => by simp [ExchangedTerms]
  | _ :: _, [] => by simp [ExchangedTerms]
  | (name, child) :: terms, (name', child') :: terms' => by
    simp only [ExchangedTerms, SameTerms]
    rintro ⟨_, ⟨hchild, _⟩ | ⟨_, hrest⟩⟩ ⟨_, hsame, hsames⟩
    · exact Exchanged.not_sameTree child child' hchild hsame
    · exact ExchangedTerms.not_sameTerms terms terms' hrest hsames

end

/-- Bytes that nodes of two types hash begin with the salt 1, so neither is a UMA potential or a
plugin. -/
theorem Twins.salt {data : List UInt8} (h : Twins p q) (hp : p.fingerprint = some data)
    (hq : q.fingerprint = some data) : ∃ rest, data = u64 1 ++ rest := by
  obtain ⟨rest, hrest⟩ := fingerprint_eq_salt hp
  obtain ⟨rest', hrest'⟩ := fingerprint_eq_salt hq
  have hsalt : p.salt = q.salt := (u64_append_inj.mp (hrest.symm.trans hrest')).1
  have htype := h.type
  rcases salt_cases p with hone | ⟨hp2, hpt⟩ | ⟨hp18, hpt⟩
  · exact ⟨rest, hone ▸ hrest⟩
  · rcases salt_cases q with hone | ⟨_, hqt⟩ | ⟨hq18, _⟩
    · exact ⟨rest', hone ▸ hrest'⟩
    · exact (htype (hpt.trans hqt.symm)).elim
    · rw [hp2, hq18] at hsalt
      cases hsalt
  · rcases salt_cases q with hone | ⟨hq2, _⟩ | ⟨_, hqt⟩
    · exact ⟨rest', hone ▸ hrest'⟩
    · rw [hp18, hq2] at hsalt
      cases hsalt
    · exact (htype (hpt.trans hqt.symm)).elim

/-- One key means one expression over the same tree of terms, with equal types, names and keys at
every depth, exactly for composites of which neither is the other with twins exchanged. -/
theorem paramsKey_separates_iff (expression expression' : Str) (terms terms' : List (Str × Pot))
    (hinj : ((expr expression terms).hashed ∪ (expr expression' terms').hashed).InjOn Fnv1a.h) :
    ((expr expression terms).paramsKey = (expr expression' terms').paramsKey →
        expression = expression' ∧ SameTerms terms terms') ↔
      ¬ (expression = expression' ∧ ExchangedTerms terms terms') := by
  rw [paramsKey_eq_iff _ _ hinj]
  simp only [SameTree, Exchanged]
  constructor
  · intro h hex
    exact ExchangedTerms.not_sameTerms terms terms' hex.2 (h (Or.inr hex)).2
  · rintro h (hsame | hex)
    · exact hsame
    · exact (h hex).elim

/-- The expression `a` over one child named `a`. -/
def single (c : Config) : Pot :=
  expr ⟨[97], by decide⟩ [(⟨[97], by decide⟩, leaf c)]

/-- The expression `x+y` over a composite and a leaf. -/
def nested (c : Config) : Pot :=
  expr ⟨[120, 43, 121], by decide⟩
    [(⟨[120], by decide⟩, single c), (⟨[121], by decide⟩, leaf (.fortran .SW))]

/-- The defaults of `LJConfig` and of `LJClusterConfig`. -/
def defaultLJ : LJConfig where
  u0 := 0x3ff0000000000000
  cutoff := 0x402e000000000000
  psi := 0x3ff0000000000000
  switch_width := 0

/-- The defaults of `ZBLConfig`. -/
def defaultZBL : ZBLConfig where
  cut_inner := 0x4000000000000000
  cut_global := 0x4004000000000000

/-- No collisions within a list of strings whose hashes are pairwise different. -/
theorem injOn_of_nodup {D : Set (List UInt8)} (l : List (List UInt8)) (hD : ∀ data ∈ D, data ∈ l)
    (hnodup : (l.map Fnv1a.h).Nodup) : D.InjOn Fnv1a.h := by
  intro a ha b hb h
  exact List.inj_on_of_nodup_map hnodup (hD a ha) (hD b hb) h

theorem injOn_single :
    ((single (.lj defaultLJ)).hashed ∪ (single (.ljCluster defaultLJ)).hashed).InjOn Fnv1a.h := by
  refine injOn_of_nodup [defaultLJ.fingerprint, exprBytes ⟨[97], by decide⟩
    [(⟨[97], by decide⟩, leaf (.lj defaultLJ))]] ?_ (by decide +kernel)
  rintro data ((rfl | hdata | hdata) | rfl | hdata | hdata)
  · exact List.mem_cons_of_mem _ List.mem_cons_self
  · exact Option.some.inj hdata ▸ List.mem_cons_self
  · cases hdata
  · exact List.mem_cons_of_mem _ List.mem_cons_self
  · exact Option.some.inj hdata ▸ List.mem_cons_self
  · cases hdata

/-- A periodic child and its cluster twin: the composites share a key. -/
theorem not_paramsKey_separates :
    ¬ ∀ (expression expression' : Str) (terms terms' : List (Str × Pot)),
      ((expr expression terms).hashed ∪ (expr expression' terms').hashed).InjOn Fnv1a.h →
      (expr expression terms).paramsKey = (expr expression' terms').paramsKey →
      expression = expression' ∧ SameTerms terms terms' := by
  intro h
  obtain ⟨_, _, hsame, _⟩ := h _ _ _ _ injOn_single rfl
  cases hsame.1

/-- The strings hashed for `nested` of `c`, which has the bytes `data`. -/
def nestedStrings (c : Config) (data : List UInt8) : List (List UInt8) :=
  [data, exprBytes ⟨[97], by decide⟩ [(⟨[97], by decide⟩, leaf c)],
    exprBytes ⟨[120, 43, 121], by decide⟩
      [(⟨[120], by decide⟩, single c), (⟨[121], by decide⟩, leaf (.fortran .SW))]]

theorem mem_nestedStrings {c : Config} {data s : List UInt8} (hc : c.fingerprint = some data)
    (hs : s ∈ (nested c).hashed) : s ∈ nestedStrings c data := by
  rcases hs with rfl | (rfl | hs | hs) | hs | hs
  · simp [nestedStrings]
  · simp [nestedStrings]
  · obtain rfl : data = s := Option.some.inj (hc.symm.trans hs)
    simp [nestedStrings]
  · cases hs
  · cases hs
  · cases hs

/-- Two levels down, a Lennard-Jones leaf and a ZBL leaf are told apart. -/
theorem paramsKey_separates_nested :
    (nested (.lj defaultLJ)).paramsKey ≠ (nested (.zbl defaultZBL)).paramsKey := by
  have hinj : ((nested (.lj defaultLJ)).hashed ∪ (nested (.zbl defaultZBL)).hashed).InjOn
      Fnv1a.h := by
    refine injOn_of_nodup (nestedStrings (.lj defaultLJ) defaultLJ.fingerprint ++
      nestedStrings (.zbl defaultZBL) defaultZBL.fingerprint) ?_ (by decide +kernel)
    rintro s (hs | hs)
    · exact List.mem_append_left _ (mem_nestedStrings rfl hs)
    · exact List.mem_append_right _ (mem_nestedStrings rfl hs)
  have hleaf : ¬ Twins (leaf (.lj defaultLJ)) (leaf (.zbl defaultZBL)) := fun h => by
    have hbytes : defaultLJ.fingerprint = defaultZBL.fingerprint := h.bytes
    exact absurd hbytes (by decide)
  have hsame : ¬ Twins (leaf (.fortran .SW)) (leaf (.fortran .SW)) := fun h => h.type rfl
  intro hkey
  have h := (paramsKey_separates_iff _ _ _ _ hinj).mpr
    (by simp [single, ExchangedTerms, Exchanged, hleaf, hsame]) hkey
  cases h.2.2.1.2.2.1.1

end Pot

end Rgpot.Cache
