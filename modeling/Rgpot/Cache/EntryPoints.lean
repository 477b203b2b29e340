import Rgpot.Cache.Coherence

/-! `operator()` and `forceBatch` of one system, compared on every shape of stored record. -/
namespace Rgpot.Cache
open Fallible

variable {p : PurePotential} {H : List UInt8 → ℕ} {c : PotentialCache} {fi : ForceInput}
  {env : Env} {out : ForceOut} {hit : Record}

/-- A record of the current version for `nAtoms` atoms. -/
def IsCurrent (hit : Record) (nAtoms : ℕ) : Prop :=
  ∃ o : ForceOut, o.F.length = 3 * nAtoms ∧ hit = serialized o nAtoms

/-- A record of energy and forces alone. -/
def IsLegacy (hit : Record) (nAtoms : ℕ) : Prop :=
  ∃ e F, F.length = 3 * nAtoms ∧ hit = legacyRecord e F

/-- The entry points return the same reply, or both throw. -/
def SameReply (r : Outcome Reply) (b : Outcome (List ForceOut)) : Prop :=
  ∀ x, r.result = .ok x ↔ ∃ o, b.result = .ok [o] ∧ reply o = x

/-- The record under a key after a call. -/
def recordAfter {α : Type} (r : Outcome α) (key : ℕ) : Option Record :=
  r.cache.bind fun c => c.find key

/-- The hits the two entry points act on, once decided. -/
def callHit (p : PurePotential) (H : List UInt8 → ℕ) (env : Env) (c : PotentialCache)
    (fi : ForceInput) : Option Record :=
  (p.decideHits env [c.find (p.key H fi)]).head?.join

def batchHit (p : PurePotential) (H : List UInt8 → ℕ) (env : Env) (c : PotentialCache)
    (fi : ForceInput) : Option Record :=
  (p.decideHits env [p.batchLookup H c fi]).head?.join

theorem decideHits_singleton (hit : Option Record) :
    p.decideHits env [hit] = [(p.decideHits env [hit]).head?.join] := by
  unfold Potential.decideHits
  split <;> simp [keepAgreed, calculatorAgree]

theorem decideHits_eq (p : Potential) (env : Env) (hit : Option Record) :
    (p.decideHits env [hit]).head?.join = hit ∨ (p.decideHits env [hit]).head?.join = none := by
  unfold Potential.decideHits
  split
  · cases hit with
    | none => simp [keepAgreed, calculatorAgree]
    | some hit => cases h : env.others 0 <;> simp [keepAgreed, calculatorAgree, h]
  · simp

/-- The kernel evaluates the reset slot of a batch of one as it evaluates the slot of a call. -/
theorem forceBatchImpl_single (out o : ForceOut) :
    p.forceBatchImpl [⟨fi, out.cleared⟩] = .ok [o] ↔ p.eval fi = .ok o := by
  rw [forceBatchImpl_eq_ok_iff fun s hs => ?_]
  · simp
  · obtain rfl := List.mem_singleton.mp hs
    exact p.forceImpl_cleared _ _

theorem forceBatchImpl_single_length {outs : List ForceOut}
    (h : p.forceBatchImpl [⟨fi, out.cleared⟩] = .ok outs) : ∃ o, outs = [o] := by
  rw [forceBatchImpl_eq_ok_iff fun s hs => ?_] at h
  · obtain ⟨o, _, _, hrest, rfl⟩ := List.forall₂_cons_left_iff.mp h
    obtain rfl := List.forall₂_nil_left_iff.mp hrest
    exact ⟨o, rfl⟩
  · obtain rfl := List.mem_singleton.mp hs
    exact p.forceImpl_cleared _ _

/-- `forceBatch` of one system, by its decided hit. -/
theorem forceBatch_single :
    p.forceBatch H (some c) env [⟨fi, out⟩] =
      match batchHit p H env c fi with
      | some hit => ⟨(deserializeHit hit fi.nAtoms).map fun o => [o], some c, []⟩
      | none =>
        match p.forceBatchImpl [⟨fi, out.cleared⟩] with
        | .error e => ⟨.error e, some c, [fi]⟩
        | .ok outs =>
          let o := outs.headD out
          ⟨.ok [o], some (c.addSerialized (p.key H fi) o fi.nAtoms (env.kept 0)), [fi]⟩ := by
  have hunfold : p.forceBatch H (some c) env [⟨fi, out⟩] =
      p.finishBatch H env c [⟨fi, out.cleared⟩] [batchHit p H env c fi] := by
    rw [batchHit, ← decideHits_singleton]
    rfl
  rw [hunfold]
  cases batchHit p H env c fi with
  | some hit =>
    cases hd : deserializeHit hit fi.nAtoms with
    | error e => simp [Potential.finishBatch, serveHit, hd, bind, Except.bind, Except.map]
    | ok o =>
      simp [Potential.finishBatch, serveHit, hd, bind, Except.bind, pure, Except.pure, Except.map,
        missIndices]
  | none =>
    cases hk : p.forceBatchImpl [⟨fi, out.cleared⟩] with
    | error e =>
      simp [Potential.finishBatch, serveHit, hk, bind, Except.bind, pure, Except.pure,
        missIndices, compactMisses]
    | ok outs =>
      obtain ⟨o, rfl⟩ := forceBatchImpl_single_length hk
      simp [Potential.finishBatch, serveHit, hk, bind, Except.bind, pure, Except.pure,
        missIndices, compactMisses, Potential.writeBack, copyBack_eq, List.modify_cons]

section Compare

theorem recordAfter_mk {α : Type} (r : Except Exn α) (c : PotentialCache)
    (received : List ForceInput) (key : ℕ) :
    recordAfter ⟨r, some c, received⟩ key = c.find key := rfl

/-- Entry points that act on one decided hit agree: both serve it, or both compute and write. -/
theorem agree_of_hits_eq (h : batchHit p H env c fi = callHit p H env c fi) :
    SameReply (p.call H (some c) env fi) (p.forceBatch H (some c) env [⟨fi, out⟩]) ∧
      recordAfter (p.call H (some c) env fi) (p.key H fi) =
        recordAfter (p.forceBatch H (some c) env [⟨fi, out⟩]) (p.key H fi) := by
  have hcall : p.call H (some c) env fi =
      p.finishCall H env c fi (callHit p H env c fi) := rfl
  rw [forceBatch_single, hcall, h]
  cases callHit p H env c fi with
  | some hit =>
    refine ⟨fun x => ?_, rfl⟩
    cases hd : deserializeHit hit fi.nAtoms <;> simp [Potential.finishCall, hd, Except.map]
  | none =>
    cases hk : p.forceBatchImpl [⟨fi, out.cleared⟩] with
    | ok outs =>
      obtain ⟨o, rfl⟩ := forceBatchImpl_single_length hk
      have he : p.forceImpl fi (ForceOut.zero fi.nAtoms) = .ok o := (forceBatchImpl_single out o).mp hk
      simp [Potential.finishCall, he, SameReply, recordAfter]
    | error e =>
      cases he : p.forceImpl fi (ForceOut.zero fi.nAtoms) with
      | error e' => simp [Potential.finishCall, he, SameReply, recordAfter]
      | ok o =>
        rw [(forceBatchImpl_single out o).mpr he] at hk
        cases hk

/-- Only a legacy record that `operator()` serves makes the decided hits differ, and only for a
potential that reports stress. -/
theorem hits_eq (hshape : ∀ hit, c.find (p.key H fi) = some hit →
      IsCurrent hit fi.nAtoms ∨ IsLegacy hit fi.nAtoms)
    (h : ¬ (p.caps.stress = true ∧ ∃ hit, callHit p H env c fi = some hit ∧
      IsLegacy hit fi.nAtoms)) :
    batchHit p H env c fi = callHit p H env c fi := by
  unfold batchHit callHit Potential.batchLookup at *
  cases hf : c.find (p.key H fi) with
  | none => rfl
  | some hit =>
    rw [hf] at h
    rcases hshape hit hf with ⟨o, hF, rfl⟩ | ⟨e, F, hF, rfl⟩
    · simp [hasResultMetadata_serialized hF]
    · cases hs : p.caps.stress with
      | false => simp
      | true =>
        simp only [hasResultMetadata_legacy e hF, Bool.not_false, Bool.and_true, if_true]
        rcases decideHits_eq p.toPotential env (some (legacyRecord e F)) with hkeep | hdrop
        · exact (h ⟨hs, _, hkeep, e, F, hF, rfl⟩).elim
        · rcases decideHits_eq p.toPotential env none with hnone | hnone <;> rw [hdrop, hnone]

end Compare

/-- The two entry points agree on reply and record unless `operator()` serves a legacy record of a
potential that reports stress: it then returns the stored energy and forces with variance 0 and
leaves the record, while `forceBatch` evaluates the system again and replaces the record. -/
theorem entry_points_agree (p : PurePotential) (H : List UInt8 → ℕ) (c : PotentialCache)
    (fi : ForceInput) (out : ForceOut) (env : Env)
    (hshape : ∀ hit, c.find (p.key H fi) = some hit →
      IsCurrent hit fi.nAtoms ∨ IsLegacy hit fi.nAtoms) :
    let r := p.call H (some c) env fi
    let b := p.forceBatch H (some c) env [⟨fi, out⟩]
    let key := p.key H fi
    (¬ (p.caps.stress = true ∧ ∃ hit, callHit p H env c fi = some hit ∧ IsLegacy hit fi.nAtoms) →
      SameReply r b ∧ recordAfter r key = recordAfter b key) ∧
    ∀ e F, p.caps.stress = true → F.length = 3 * fi.nAtoms →
      callHit p H env c fi = some (legacyRecord e F) →
      (r.result = .ok ⟨e, F, 0⟩ ∧ recordAfter r key = some (legacyRecord e F)) ∧
        (∀ o, b.result = .ok [o] ↔ p.eval fi = .ok o) ∧
        recordAfter b key = match p.eval fi with
          | .ok o => if env.kept 0 then some (serialized o fi.nAtoms) else some (legacyRecord e F)
          | .error _ => some (legacyRecord e F) := by
  refine ⟨fun h => agree_of_hits_eq (hits_eq hshape h), fun e F hs hF hhit => ?_⟩
  have hfind : c.find (p.key H fi) = some (legacyRecord e F) := by
    rcases decideHits_eq p.toPotential env (c.find (p.key H fi)) with hsame | hnone
    · exact hsame.symm.trans hhit
    · rw [callHit, hnone] at hhit
      cases hhit
  have hbatch : batchHit p H env c fi = none := by
    unfold batchHit Potential.batchLookup
    simp only [hfind, hs, hasResultMetadata_legacy e hF, Bool.not_false, Bool.and_true, if_true]
    rcases decideHits_eq p.toPotential env none with hnone | hnone <;> exact hnone
  have hcall : p.call H (some c) env fi =
      p.finishCall H env c fi (callHit p H env c fi) := rfl
  constructor
  · rw [hcall, hhit]
    simp [Potential.finishCall, deserializeHit_legacy e hF, Except.map, reply, legacyOut,
      recordAfter, hfind]
  · rw [forceBatch_single, hbatch]
    cases hk : p.forceBatchImpl [⟨fi, out.cleared⟩] with
    | ok outs =>
      obtain ⟨o, rfl⟩ := forceBatchImpl_single_length hk
      have he := (forceBatchImpl_single out o).mp hk
      refine ⟨fun o' => by simp [he], ?_⟩
      simp only [he, recordAfter_mk, List.headD_cons]
      obtain ⟨_ | db⟩ := c
      · cases hfind
      · cases env.kept 0
        · exact hfind
        · simp [PotentialCache.addSerialized, PotentialCache.find]
    | error ex =>
      have hnot : ∀ o, p.eval fi ≠ .ok o := by
        intro o ho
        rw [(forceBatchImpl_single out o).mpr ho] at hk
        cases hk
      refine ⟨fun o => by simp [hnot o], ?_⟩
      cases he : p.eval fi with
      | ok o => exact (hnot o he).elim
      | error _ => exact hfind

/-- A legacy record of the atom at 1, under every key. -/
def legacyCache : PotentialCache := ⟨some fun _ => some (legacyRecord 1 [1, 0, 0])⟩

theorem isLegacy_legacyCache : ∀ hit, legacyCache.find (echo.key Words.number (atomAt 1)) = some hit →
    IsCurrent hit (atomAt 1).nAtoms ∨ IsLegacy hit (atomAt 1).nAtoms := by
  intro hit h
  exact Or.inr ⟨1, [1, 0, 0], rfl, (Option.some.inj h).symm⟩

theorem entry_points_agree_legacy :
    (echo.call Words.number (some legacyCache) alone (atomAt 1)).result = .ok ⟨1, [1, 0, 0], 0⟩ :=
  ((entry_points_agree echo Words.number legacyCache (atomAt 1) (ForceOut.zero 1) alone
    isLegacy_legacyCache).2 1 [1, 0, 0] rfl rfl rfl).1.1

theorem not_entry_points_agree :
    ¬ ∀ (p : PurePotential) (H : List UInt8 → ℕ) (c : PotentialCache) (fi : ForceInput)
        (out : ForceOut) (env : Env),
      (∀ hit, c.find (p.key H fi) = some hit → IsCurrent hit fi.nAtoms ∨ IsLegacy hit fi.nAtoms) →
      SameReply (p.call H (some c) env fi) (p.forceBatch H (some c) env [⟨fi, out⟩]) ∧
        recordAfter (p.call H (some c) env fi) (p.key H fi) =
          recordAfter (p.forceBatch H (some c) env [⟨fi, out⟩]) (p.key H fi) := by
  intro h
  have hsame := (h echo Words.number legacyCache (atomAt 1) (ForceOut.zero 1) alone
    isLegacy_legacyCache).1 ⟨1, [1, 0, 0], 0⟩
  have hcall : (echo.call Words.number (some legacyCache) alone (atomAt 1)).result =
      .ok ⟨1, [1, 0, 0], 0⟩ := by
    decide +kernel
  obtain ⟨o, ho, hreply⟩ := hsame.mp hcall
  have hbatch : (echo.forceBatch Words.number (some legacyCache) alone
      [⟨atomAt 1, ForceOut.zero 1⟩]).result.map (fun outs => outs.map fun o => o.variance) =
        .ok [0x3fd0000000000000] := by
    decide +kernel
  rw [ho] at hbatch
  have hvariance : o.variance = 0x3fd0000000000000 := by simpa [Except.map] using hbatch
  have hzero : o.variance = 0 := congrArg Reply.variance hreply
  rw [hvariance] at hzero
  exact absurd hzero (by decide)

end Rgpot.Cache
