import Rgpot.GroupCache.Programs
import Rgpot.Cache.Coherence

/-! No rank is left alone in a collective of a cached potential. -/
namespace Rgpot.GroupCache
open Collective RankPart Cache Mpi

variable {n : ℕ} {exchange : ℕ → (Fin (n + 1) → Buffer) → Buffer}
variable {H : List UInt8 → ℕ} {S : Set ForceInput}

section Agreement

/-- The chunks of a vector of flags. -/
def agreeCalls (count : ℕ) : List Sig :=
  if _ : count = 0 then []
  else .mpi ⟨.AllreduceLand, min count INT_MAX, .UNSIGNED_CHAR⟩ ::
    agreeCalls (count - min count INT_MAX)
  termination_by count
  decreasing_by
    simp only [INT_MAX]
    omega

/-- The flags of all ranks, combined. -/
def conjunction (count : ℕ) (flags : Fin (n + 1) → List UInt8) : List UInt8 :=
  (List.range count).map fun k => if ∀ r, (flags r).getD k 0 ≠ 0 then 1 else 0

theorem conjunction_drop {count chunk : ℕ} (hchunk : chunk ≤ count)
    {flags : Fin (n + 1) → List UInt8} :
    conjunction chunk (fun r => (flags r).take chunk) ++
      conjunction (count - chunk) (fun r => (flags r).drop chunk) = conjunction count flags := by
  have hsplit : List.range count =
      List.range chunk ++ (List.range (count - chunk)).map (chunk + ·) := by
    rw [← List.range_add, Nat.add_sub_cancel' hchunk]
  rw [conjunction, conjunction, conjunction, hsplit, List.map_append, List.map_map]
  congr 1
  · apply List.map_congr_left
    intro k hk
    have hlt : k < chunk := List.mem_range.mp hk
    simp [List.getD_eq_getElem?_getD, hlt]
  · apply List.map_congr_left
    intro k _
    simp [List.getD_eq_getElem?_getD]

/-- Vectors of one length all end as the conjunction, over any number of chunks. -/
theorem agreeChunks_lockstep (count : ℕ) (flags : Fin (n + 1) → List UInt8)
    (hlength : ∀ r, (flags r).length = count) (s : Fin (n + 1) → Rank) :
    Lockstep (value exchange) (fun r => agreeChunks (flags r) (s r)) (agreeCalls count)
      fun r => (.ok (conjunction count flags), s r) := by
  induction count using Nat.strong_induction_on generalizing flags with
  | _ count ih =>
    unfold agreeCalls
    by_cases h : count = 0
    · have hnil : ∀ r, flags r = [] := fun r => List.length_eq_zero_iff.mp ((hlength r).trans h)
      simp only [h, hnil, dif_pos]
      unfold agreeChunks
      exact Leads.refl _
    · have hcons : ∀ r, flags r ≠ [] := by
        intro r hr
        have hcount := hlength r
        rw [hr] at hcount
        exact h hcount.symm
      have hchunk : min count INT_MAX ≤ count := min_le_left _ _
      let sig : Sig := .mpi ⟨.AllreduceLand, min count INT_MAX, .UNSIGNED_CHAR⟩
      let v : Fin (n + 1) → Buffer := fun r => .bytes ((flags r).take (min count INT_MAX))
      let next : Fin (n + 1) → Buffer → Prog Sig Buffer (Except Exn (List UInt8) × Rank) :=
        fun r x => agreeChunks ((flags r).drop (min count INT_MAX)) (s r) >>= fun p =>
          ExceptT.bindCont (fun rest => (pure (x.toBytes ++ rest) : Run (List UInt8))) p.1 p.2
      have hunfold : (fun r => agreeChunks (flags r) (s r)) = fun r => .call sig (v r) (next r) := by
        funext r
        rw [agreeChunks, dif_neg (hcons r), hlength r]
        rfl
      have hrest := ih (count - min count INT_MAX) (by simp only [INT_MAX]; omega)
        (fun r => (flags r).drop (min count INT_MAX)) (by simp [hlength])
      have hcombined : value exchange sig v =
          .bytes (conjunction (min count INT_MAX) fun r => (flags r).take (min count INT_MAX)) := rfl
      have hnext : Lockstep (value exchange) (fun r => next r (value exchange sig v))
          (agreeCalls (count - min count INT_MAX) ++ [])
          fun r => (.ok (conjunction count flags), s r) := by
        apply hrest.bind
        rw [hcombined, ← conjunction_drop hchunk]
        exact Leads.refl _
      rw [dif_neg h, hunfold]
      rw [List.append_nil] at hnext
      exact .call sig v next hnext

/-- `calculatorAgree` is the logical AND of the flags over the calculator's ranks. -/
theorem calculatorAgree_jointly {Inv : Rank → Prop} (count : ℕ) (flags : Fin (n + 1) → List UInt8)
    (hlength : ∀ r, (flags r).length = count) :
    Jointly (value exchange) Inv (fun r => calculatorAgree (n + 1) (flags r)) fun agreed =>
      ∀ r, (agreed r).length = count ∧
        ∀ k, k < count → ((agreed r).getD k 0 ≠ 0 ↔ ∀ q, (flags q).getD k 0 ≠ 0) := by
  unfold calculatorAgree
  by_cases hranks : n + 1 < 2
  · simp only [hranks, if_true]
    apply Jointly.pure
    intro r
    obtain rfl : n = 0 := by omega
    refine ⟨hlength r, fun k _ => ?_⟩
    constructor
    · intro h q
      obtain rfl : q = r := Fin.ext (by omega)
      exact h
    · exact fun h => h r
  · simp only [hranks, if_false]
    intro s hs
    refine ⟨_, _, s, agreeChunks_lockstep count flags hlength s, hs, ?_⟩
    intro r
    refine ⟨by simp [conjunction], fun k hk => ?_⟩
    simp [conjunction, hk]

end Agreement

/-- No record found for one of the systems `S` is too short for it. -/
def Readable (H : List UInt8 → ℕ) (S : Set ForceInput) (s : Rank) : Prop :=
  ∀ id (e : Evaluation), e.input ∈ S → ∀ hit, (s.store id).find (cacheKey H e) = some hit →
    energyForceBytes e.input.nAtoms ≤ hit.length

/-- Keys of systems in `S` with different atom counts are different. -/
def Separates (H : List UInt8 → ℕ) (S : Set ForceInput) : Prop :=
  ∀ x y : Evaluation, x.input ∈ S → y.input ∈ S → cacheKey H x = cacheKey H y →
    x.input.nAtoms = y.input.nAtoms

/-- A result as long as its system. -/
def Sized (x : Item) (o : ForceOut) : Prop := o.F.length = 3 * x.2.input.nAtoms

section Entries
variable {b : Base} {ranks : ℕ} {T : Prop}

theorem Base.add_alone (hH : Separates H S) {i : ℕ} {fi : ForceInput} (hfi : fi ∈ S)
    {out : ForceOut} (hF : out.F.length = 3 * fi.nAtoms) :
    Alone (Readable H S) T (b.add H i fi out) fun _ => True := by
  apply Alone.write
  intro s hs j e he hit hfind
  by_cases hij : j = i
  · subst hij
    simp only [Function.update_self] at hfind
    rcases find_addSerialized (s.store j) (b.key H fi) (cacheKey H e) out fi.nAtoms (s.kept 0) with
      hkept | ⟨hkey, hwritten⟩
    · exact hs j e he hit (hkept ▸ hfind)
    · rw [hwritten] at hfind
      obtain rfl := Option.some.inj hfind
      have hatoms : e.input.nAtoms = fi.nAtoms := hH e ⟨b.type, b.paramsKey, fi⟩ he hfi hkey
      rw [hatoms, serialized_eq hF, List.length_append, length_prefix _ hF]
      omega
  · simp only [Function.update_of_ne hij] at hfind
    exact hs j e he hit hfind

/-- Serving readable hits goes through and leaves places, systems and hits as they are. -/
theorem serve_ok {xs : List (Item × Option Record)}
    (h : ∀ x ∈ xs, ∀ hit, x.2 = some hit → energyForceBytes x.1.2.input.nAtoms ≤ hit.length) :
    ∃ served, xs.mapM serve = .ok served ∧
      List.Forall₂ (fun x y => y.1.1 = x.1.1 ∧ y.1.2.input = x.1.2.input ∧ y.2 = x.2) xs served := by
  have hone : ∀ x ∈ xs, ∃ y, serve x = .ok y := by
    intro x hx
    obtain ⟨item, hit⟩ := x
    cases hit with
    | none => exact ⟨_, rfl⟩
    | some hit =>
      have hlength : energyForceBytes item.2.input.nAtoms ≤ hit.length := h _ hx hit rfl
      have hread : ¬ hit.length < energyForceBytes item.2.input.nAtoms := by omega
      simp only [serve, serveHit, deserializeHit, if_neg hread]
      split <;> exact ⟨_, rfl⟩
  obtain ⟨served, hserved⟩ := Fallible.exists_mapM_eq_ok.mpr hone
  refine ⟨served, hserved, (Fallible.mapM_eq_ok_iff.mp hserved).imp ?_⟩
  intro x y hy
  obtain ⟨s, hs, heq⟩ := Fallible.bind_eq_ok.mp hy
  cases heq
  refine ⟨rfl, ?_, rfl⟩
  obtain ⟨item, hit⟩ := x
  cases hit with
  | none =>
    cases hs
    rfl
  | some hit =>
    obtain ⟨out, _, heq⟩ := Fallible.bind_eq_ok.mp hs
    cases heq
    rfl

/-- Which places are missed is decided by the hits. -/
theorem misses_spec {batch : List Item} {hits : List (Option Record)}
    {served : List (Item × Option Record)} (hlength : batch.length = hits.length)
    (h : List.Forall₂ (fun x y => y.1.1 = x.1.1 ∧ y.1.2.input = x.1.2.input ∧ y.2 = x.2)
      (batch.zip hits) served) (hS : ∀ x ∈ batch, x.2.input ∈ S) :
    (misses served).map Prod.fst =
        ((batch.map Prod.fst).zip (hits.map Option.isNone)).filterMap
          (fun p => if p.2 then some p.1 else none) ∧
      ∀ x ∈ misses served, x.2.input ∈ S := by
  induction batch generalizing hits served with
  | nil =>
    cases h
    simp [misses]
  | cons x batch ih =>
    cases hits with
    | nil => simp at hlength
    | cons hit hits =>
      obtain ⟨y, served', ⟨htag, hinput, hhit⟩, hrest, rfl⟩ := List.forall₂_cons_left_iff.mp h
      obtain ⟨htags, hin⟩ := ih (Nat.succ.inj hlength) hrest
        fun z hz => hS z (List.mem_cons_of_mem x hz)
      have hx := hS x List.mem_cons_self
      cases hit with
      | none =>
        have hmiss : misses (y :: served') = y.1 :: misses served' := by
          simp [misses, show y.2 = none from hhit]
        rw [hmiss]
        constructor
        · simpa [htag] using htags
        · intro z hz
          rcases List.mem_cons.mp hz with rfl | hz
          · rw [hinput]
            exact hx
          · exact hin z hz
      | some hit =>
        have hmiss : misses (y :: served') = misses served' := by
          simp [misses, show y.2 = some hit from hhit]
        rw [hmiss]
        exact ⟨by simpa using htags, hin⟩

/-- The hits of a readable store, one for each system, are long enough. -/
def Fit (batch : List Item) (hits : List (Option Record)) : Prop :=
  List.Forall₂ (fun x hit => ∀ h, hit = some h →
    energyForceBytes x.2.input.nAtoms ≤ h.length) batch hits

theorem Base.batchLookup_fit {s : Rank} (hs : Readable H S s) {i : ℕ} {batch : List Item}
    (hS : ∀ x ∈ batch, x.2.input ∈ S) :
    Fit batch (batch.map fun x => b.batchLookup H (s.store i) x.2.input) := by
  rw [Fit, List.forall₂_map_right_iff, List.forall₂_same]
  intro x hx h hlookup
  unfold Base.batchLookup at hlookup
  cases hfind : (s.store i).find (b.key H x.2.input) with
  | none => simp [hfind] at hlookup
  | some hit =>
    have hfit := hs i ⟨b.type, b.paramsKey, x.2.input⟩ (hS x hx) hit hfind
    simp only [hfind] at hlookup
    split at hlookup
    · cases hlookup
    · obtain rfl := Option.some.inj hlookup
      exact hfit

/-- Dropping hits keeps the rest fit. -/
theorem Fit.zipWith {batch : List Item} {hits : List (Option Record)} (h : Fit batch hits)
    {flags : List UInt8} (hlength : flags.length = hits.length) :
    Fit batch (List.zipWith (fun hit flag => if flag ≠ 0 then hit else none) hits flags) := by
  induction h generalizing flags with
  | nil => exact .nil
  | cons hx _ ih =>
    cases flags with
    | nil => simp at hlength
    | cons flag flags =>
      refine .cons ?_ (ih (Nat.succ.inj hlength))
      intro h hh
      by_cases hflag : flag ≠ 0
      · exact hx h (by simpa [hflag] using hh)
      · simp [hflag] at hh

theorem Fit.zip {batch : List Item} {hits : List (Option Record)} (h : Fit batch hits) :
    ∀ x ∈ batch.zip hits, ∀ hit, x.2 = some hit →
      energyForceBytes x.1.2.input.nAtoms ≤ hit.length := by
  intro x hx
  exact (List.forall₂_iff_zip.mp h).2 hx

theorem Base.decideHits_alone (hb : b.caps.groupCollective = false) {hits : List (Option Record)} :
    Alone (Readable H S) T (b.decideHits ranks hits) fun agreed => agreed = hits := by
  unfold Base.decideHits
  rw [hb]
  exact Alone.pure rfl

/-- The write-back of the kernel's results. -/
theorem Base.addAll_alone (hH : Separates H S) {i : ℕ} {items : List Item} {outs : List ForceOut}
    (hS : ∀ x ∈ items, x.2.input ∈ S) (houts : List.Forall₂ Sized items outs) :
    Alone (Readable H S) T
      (each (fun x : Item × ForceOut => b.add H i x.1.2.input x.2) (items.zip outs)) fun _ => True := by
  refine (Alone.each (R := fun _ _ => True) ?_).mono fun _ _ => trivial
  intro x hx
  have hsized : Sized x.1 x.2 := (List.forall₂_iff_zip.mp houts).2 hx
  exact Base.add_alone hH (hS x.1 (List.of_mem_zip hx).1) hsized

section AloneEntries
variable {batchImpl : List Item → Run (List ForceOut)} {batch : List Item}

/-- A cached potential that is not group-collective makes its decisions alone. -/
theorem Base.forceBatch_alone (hH : Separates H S) (hb : b.caps.groupCollective = false)
    (himpl : ∀ items : List Item, (∀ x ∈ items, x.2.input ∈ S) →
      Alone (Readable H S) T (batchImpl items) (List.Forall₂ Sized items))
    (hS : ∀ x ∈ batch, x.2.input ∈ S) :
    Alone (Readable H S) T (b.forceBatch H ranks batchImpl batch) fun _ => True := by
  unfold Base.forceBatch
  split
  · exact Alone.pure trivial
  · have hcleared : ∀ x ∈ batch.map fun x : Item => (x.1, { x.2 with out := x.2.out.cleared }),
        x.2.input ∈ S := by
      intro x hx
      obtain ⟨y, hy, rfl⟩ := List.mem_map.mp hx
      exact hS y hy
    generalize (batch.map fun x : Item => (x.1, { x.2 with out := x.2.out.cleared })) = batch
      at hcleared
    dsimp only
    split
    · exact (himpl batch hcleared).mono fun _ _ => trivial
    · rename_i id _
      apply (Alone.read fun s hs => Base.batchLookup_fit (b := b) (i := id) hs hcleared).bind
      intro hits hfit
      apply (decideHits_alone hb).bind
      rintro _ rfl
      obtain ⟨served, hserved, hrel⟩ := serve_ok hfit.zip
      have hmiss := (misses_spec (List.Forall₂.length_eq hfit) hrel hcleared).2
      apply (Alone.compute_ok hserved).bind
      rintro _ rfl
      split
      · exact Alone.pure trivial
      · apply (himpl _ hmiss).bind
        intro outs houts
        apply (addAll_alone hH hmiss houts).bind
        intro _ _
        exact Alone.pure trivial

theorem Base.find_fit {s : Rank} (hs : Readable H S s) {i : ℕ} {fi : ForceInput} (hfi : fi ∈ S) :
    ∀ hit, (s.store i).find (b.key H fi) = some hit → energyForceBytes fi.nAtoms ≤ hit.length :=
  hs i ⟨b.type, b.paramsKey, fi⟩ hfi

theorem deserializeHit_ok {hit : Record} {fi : ForceInput}
    (h : energyForceBytes fi.nAtoms ≤ hit.length) : ∃ out, deserializeHit hit fi.nAtoms = .ok out := by
  have hread : ¬ hit.length < energyForceBytes fi.nAtoms := by omega
  simp only [deserializeHit, if_neg hread]
  split <;> exact ⟨_, rfl⟩

theorem Base.call_alone (hH : Separates H S) (hb : b.caps.groupCollective = false)
    {impl : ForceInput → ForceOut → Run ForceOut} {fi : ForceInput} (hfi : fi ∈ S)
    (himpl : ∀ out, Alone (Readable H S) T (impl fi out) fun o => o.F.length = 3 * fi.nAtoms) :
    Alone (Readable H S) T (b.call H ranks impl fi) fun _ => True := by
  unfold Base.call
  split
  · apply (himpl _).bind
    intro _ _
    exact Alone.pure trivial
  · rename_i id _
    apply (Alone.read (P := fun hit => ∀ h, hit = some h → energyForceBytes fi.nAtoms ≤ h.length)
      fun s hs => Base.find_fit (b := b) (i := id) hs hfi).bind
    intro hit hfit
    apply (decideHits_alone hb).bind
    rintro _ rfl
    cases hit with
    | some hit =>
      obtain ⟨out, hout⟩ := deserializeHit_ok (hfit hit rfl)
      apply (Alone.compute_ok hout).bind
      intro _ _
      exact Alone.pure trivial
    | none =>
      apply (himpl _).bind
      intro out hout
      apply (Base.add_alone hH hfi hout).bind
      intro _ _
      exact Alone.pure trivial

end AloneEntries

section JointEntries

/-- After the joint decision the ranks miss the same systems. -/
theorem Base.decideHits_jointly (hb : b.caps.groupCollective = true)
    {batch : Fin (n + 1) → List Item} {hits : Fin (n + 1) → List (Option Record)} {c : ℕ}
    (hcount : ∀ r, (hits r).length = c) (hfit : ∀ r, Fit (batch r) (hits r)) :
    Jointly (value exchange) (Readable H S) (fun r => b.decideHits (n + 1) (hits r)) fun agreed =>
      (∀ r, Fit (batch r) (agreed r)) ∧ ∃ missed, ∀ r, (agreed r).map Option.isNone = missed := by
  unfold Base.decideHits
  simp only [hb, if_true]
  apply (calculatorAgree_jointly c _ fun r => (List.length_map _).trans (hcount r)).bind
  intro agreed hagreed
  apply Jointly.pure
  refine ⟨fun r => (hfit r).zipWith ((hagreed r).1.trans (hcount r).symm),
    (List.range c).map fun k => ¬ ∀ q, ((hits q).map
      fun hit => if hit.isSome then (1 : UInt8) else 0).getD k 0 ≠ 0, fun r => ?_⟩
  apply List.ext_getElem
  · simp [hcount, (hagreed r).1]
  · intro k hk _
    have hlt : k < c := by simpa [hcount, (hagreed r).1] using hk
    have hflag := (hagreed r).2 k hlt
    have hagreedBound : k < (agreed r).length := (hagreed r).1.symm ▸ hlt
    have hget : (agreed r).getD k 0 = (agreed r)[k] := List.getD_eq_getElem _ _ _
    rw [hget] at hflag
    have hbound : k < (hits r).length := (hcount r).symm ▸ hlt
    have hheld : ((hits r).map fun hit => if hit.isSome then (1 : UInt8) else 0).getD k 0 =
        if ((hits r)[k]).isSome then 1 else 0 := by
      rw [List.getD_eq_getElem _ _ (by simpa [hcount] using hlt), List.getElem_map]
    simp only [List.getElem_map, List.getElem_zipWith, List.getElem_range]
    by_cases hall : ∀ q, ((hits q).map
        fun hit => if hit.isSome then (1 : UInt8) else 0).getD k 0 ≠ 0
    · have hr := hall r
      rw [hheld] at hr
      rw [if_pos (hflag.mpr hall)]
      rw [decide_eq_false (not_not_intro hall)]
      cases hhit : (hits r)[k] with
      | none => simp [hhit] at hr
      | some hit => rfl
    · rw [if_neg (fun h => hall (hflag.mp h))]
      exact (decide_eq_true hall).symm

section Kernel
variable {impl : Fin (n + 1) → List Item → Run (List ForceOut)} {batch : Fin (n + 1) → List Item}
  {tags : List ℕ}

/-- A batch of a potential that decides jointly, or has no cache, is one joint run of its kernel: the
systems that reach it have the same places on all ranks. -/
theorem Base.forceBatch_jointly (hH : Separates H S)
    (hb : b.caps.groupCollective = true ∨ b.cache = none)
    (himpl : ∀ (items : Fin (n + 1) → List Item) (tags : List ℕ),
      (∀ r, (items r).map Prod.fst = tags) → (∀ r, ∀ x ∈ items r, x.2.input ∈ S) →
      Jointly (value exchange) (Readable H S) (fun r => impl r (items r)) fun outs =>
        ∀ r, List.Forall₂ Sized (items r) (outs r))
    (htags : ∀ r, (batch r).map Prod.fst = tags) (hS : ∀ r, ∀ x ∈ batch r, x.2.input ∈ S) :
    Jointly (value exchange) (Readable H S)
      (fun r => b.forceBatch H (n + 1) (impl r) (batch r)) fun _ => True := by
  unfold Base.forceBatch
  by_cases hempty : tags = []
  · have hnil : ∀ r, batch r = [] := fun r => List.map_eq_nil_iff.mp ((htags r).trans hempty)
    simp only [hnil, if_true]
    exact Jointly.pure trivial
  · have hcons : ∀ r, batch r ≠ [] := by
      intro r hr
      have hmap := htags r
      rw [hr] at hmap
      exact hempty hmap.symm
    simp only [hcons, if_false]
    have hcleared : ∀ r, ∀ x ∈ (batch r).map
        fun x : Item => (x.1, { x.2 with out := x.2.out.cleared }), x.2.input ∈ S := by
      intro r x hx
      obtain ⟨y, hy, rfl⟩ := List.mem_map.mp hx
      exact hS r y hy
    have hplaces : ∀ r, ((batch r).map
        fun x : Item => (x.1, { x.2 with out := x.2.out.cleared })).map Prod.fst = tags := by
      intro r
      rw [List.map_map]
      exact htags r
    generalize hbatch : (fun r => (batch r).map
      fun x : Item => (x.1, { x.2 with out := x.2.out.cleared })) = cleared at *
    have hget : ∀ r, ((batch r).map
        fun x : Item => (x.1, { x.2 with out := x.2.out.cleared })) = cleared r := by
      intro r
      rw [← hbatch]
    simp only [hget] at hcleared hplaces ⊢
    cases hcache : b.cache with
    | none => exact (himpl cleared tags hplaces hcleared).mono fun _ _ => trivial
    | some id =>
      have hgroup : b.caps.groupCollective = true := by
        rcases hb with hb | hb
        · exact hb
        · rw [hcache] at hb
          cases hb
      apply (Jointly.of_alone (P := fun r hits => Fit (cleared r) hits) fun r =>
        Alone.read fun s hs => Base.batchLookup_fit (i := id) hs (hcleared r)).bind
      intro hits hfit
      have hcount : ∀ r, (hits r).length = tags.length := by
        intro r
        rw [← List.Forall₂.length_eq (hfit r), ← hplaces r, List.length_map]
      apply (decideHits_jointly hgroup hcount hfit).bind
      rintro agreed ⟨hagreed, missed, hmissed⟩
      choose served hserved hrel using fun r => serve_ok (hagreed r).zip
      have hmisses := fun r => misses_spec (List.Forall₂.length_eq (hagreed r)) (hrel r) (hcleared r)
      apply (Jointly.of_alone fun r => Alone.compute_ok (hserved r)).bind
      intro served' hserved'
      obtain rfl : served' = served := funext hserved'
      have hmissTags : ∀ r, (misses (served' r)).map Prod.fst =
          (tags.zip missed).filterMap fun p => if p.2 then some p.1 else none := by
        intro r
        rw [(hmisses r).1, hplaces r, hmissed r]
      by_cases hnone : ((tags.zip missed).filterMap fun p => if p.2 then some p.1 else none) = []
      · have hserves : ∀ r, misses (served' r) = [] := fun r =>
          List.map_eq_nil_iff.mp ((hmissTags r).trans hnone)
        simp only [hserves, if_true]
        exact Jointly.pure trivial
      · have hcomputes : ∀ r, misses (served' r) ≠ [] := by
          intro r hr
          have hmap := hmissTags r
          rw [hr] at hmap
          exact hnone hmap.symm
        simp only [hcomputes, if_false]
        apply (himpl _ _ hmissTags fun r => (hmisses r).2).bind
        intro outs houts
        apply (Jointly.of_alone fun r =>
          Base.addAll_alone (b := b) (i := id) hH (hmisses r).2 (houts r)).bind
        intro _ _
        exact Jointly.pure trivial

end Kernel

/-- A single call of a potential that decides jointly, or has no cache. -/
theorem Base.call_jointly (hH : Separates H S)
    (hb : b.caps.groupCollective = true ∨ b.cache = none)
    {impl : Fin (n + 1) → ForceInput → ForceOut → Run ForceOut} {fi : Fin (n + 1) → ForceInput}
    (hfi : ∀ r, fi r ∈ S)
    (himpl : ∀ out : Fin (n + 1) → ForceOut, Jointly (value exchange) (Readable H S)
      (fun r => impl r (fi r) (out r)) fun o => ∀ r, (o r).F.length = 3 * (fi r).nAtoms) :
    Jointly (value exchange) (Readable H S)
      (fun r => b.call H (n + 1) (impl r) (fi r)) fun _ => True := by
  unfold Base.call
  cases hcache : b.cache with
  | none =>
    apply (himpl _).bind
    intro _ _
    exact Jointly.pure trivial
  | some id =>
    have hgroup : b.caps.groupCollective = true := by
      rcases hb with hb | hb
      · exact hb
      · rw [hcache] at hb
        cases hb
    apply (Jointly.of_alone (P := fun r hit => ∀ h, hit = some h →
      energyForceBytes (fi r).nAtoms ≤ h.length) fun r =>
        Alone.read fun s hs => Base.find_fit (b := b) (i := id) hs (hfi r)).bind
    intro hit hfit
    have hone : ∀ r, Fit [(0, ⟨fi r, ForceOut.zero 0⟩)] [hit r] := fun r => .cons (hfit r) .nil
    apply (decideHits_jointly hgroup (c := 1) (fun r => rfl) hone).bind
    rintro agreed ⟨hagreed, missed, hmissed⟩
    have hsingle : ∀ r, ∃ a, agreed r = [a] ∧ [a.isNone] = missed ∧
        ∀ h, a = some h → energyForceBytes (fi r).nAtoms ≤ h.length := by
      intro r
      obtain ⟨a, rest, ha, hrest, heq⟩ := List.forall₂_cons_left_iff.mp (hagreed r)
      cases hrest
      refine ⟨a, heq, ?_, ha⟩
      rw [← hmissed r, heq]
      rfl
    choose a ha hpattern hread using hsingle
    simp only [ha, List.head?_cons, Option.join_some]
    by_cases hmiss : missed = [true]
    · have hnone : ∀ r, a r = none := by
        intro r
        have hr := (hpattern r).trans hmiss
        simpa using hr
      simp only [hnone]
      apply (himpl _).bind
      intro out hout
      apply (Jointly.of_alone fun r =>
        Base.add_alone (b := b) (i := id) hH (hfi r) (hout r)).bind
      intro _ _
      exact Jointly.pure trivial
    · have hsome : ∀ r, ∃ hit, a r = some hit := by
        intro r
        cases har : a r with
        | none =>
          have hr := hpattern r
          rw [har] at hr
          exact (hmiss hr.symm).elim
        | some hit => exact ⟨hit, rfl⟩
      choose found hfound using hsome
      simp only [hfound]
      choose out hout using fun r => deserializeHit_ok (hread r (found r) (hfound r))
      apply (Jointly.of_alone fun r => Alone.compute_ok (hout r)).bind
      intro _ _
      exact Jointly.pure trivial

end JointEntries

end Entries

namespace Pot

/-- A group-collective potential is somewhere in the tree. -/
def Joins : Pot → Prop
  | .leaf .. => False
  | .collective .. => True
  | .expr _ _ _ terms => ∃ i, (terms i).Joins

/-- No potential of the tree throws on systems of `S`. -/
def Total (S : Set ForceInput) : Pot → Prop
  | .leaf _ _ _ _ k => (∀ fi ∈ S, ∀ out, ∃ o, k.forceImpl fi out = .ok o) ∧
    ∀ batch : List System, (∀ s ∈ batch, s.input ∈ S) → ∃ outs, k.forceBatchImpl batch = .ok outs
  | .collective .. => True
  | .expr _ _ _ terms => ∀ i, (terms i).Total S

/-- An `ExprPot` over a group-collective potential has no cache, and the potentials under it do not
throw. -/
def Guarded (S : Set ForceInput) : Pot → Prop
  | .leaf .. => True
  | .collective .. => True
  | .expr _ cache _ terms => (∃ i, (terms i).Joins) →
    cache = none ∧ ∀ i, (terms i).Guarded S ∧ (terms i).Total S

theorem groupCollective_of_not_joins {p : Pot} (hp : ¬ p.Joins) :
    p.base.caps.groupCollective = false := by
  cases p with
  | leaf => rfl
  | collective => exact (hp trivial).elim
  | expr => rfl

theorem total_of_joins {p : Pot} (hp : p.Guarded S) (hjoins : p.Joins) : p.Total S := by
  cases p with
  | leaf => exact hjoins.elim
  | collective => trivial
  | expr _ cache composite terms => exact fun i => ((hp hjoins).2 i).2

theorem decides_of_joins {p : Pot} (hp : p.Guarded S) (hjoins : p.Joins) :
    p.base.caps.groupCollective = true ∨ p.base.cache = none := by
  cases p with
  | leaf => exact hjoins.elim
  | collective => exact Or.inl rfl
  | expr _ cache composite terms => exact Or.inr (hp hjoins).1

end Pot
end Rgpot.GroupCache
