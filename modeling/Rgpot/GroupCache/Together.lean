import Rgpot.GroupCache.Protocol
import Rgpot.Cache.EntryPoints

/-! The ranks of a calculator stay together over every run of calls. -/
namespace Rgpot.GroupCache
open Collective RankPart Cache Mpi

variable {n : ℕ} {exchange : ℕ → (Fin (n + 1) → Buffer) → Buffer}
variable {H : List UInt8 → ℕ} {S : Set ForceInput} {T : Prop} {ranks : ℕ}

namespace Pot

/-- A batch through `forceImpl`, or through the class's own kernel. -/
theorem forceBatchImpl_alone {p : Pot} (hT : T → p.Total S)
    (h : ∀ system, ∀ fi ∈ S, ∀ out, Alone (Readable H S) T (p.forceImpl H ranks system fi out)
      fun o => o.F.length = 3 * fi.nAtoms)
    {items : List Item} (hS : ∀ x ∈ items, x.2.input ∈ S) :
    Alone (Readable H S) T (p.forceBatchImpl (p.forceImpl H ranks) items)
      (List.Forall₂ Sized items) := by
  have heach : Alone (Readable H S) T
      (each (fun x : Item => p.forceImpl H ranks x.1 x.2.input x.2.out) items)
      (List.Forall₂ Sized items) := Alone.each fun x hx => h x.1 x.2.input (hS x hx) x.2.out
  cases p with
  | leaf type key stress cache k =>
    apply Alone.compute
    · intro outs houts
      have hbatch := k.length_batch _ _ houts
      rw [List.forall₂_map_left_iff] at hbatch
      exact hbatch
    · intro hholds
      apply (hT hholds).2
      intro s hs
      obtain ⟨x, hx, rfl⟩ := List.mem_map.mp hs
      exact hS x hx
  | collective => exact heach
  | expr => exact heach

/-- Without a group-collective potential in the tree, a rank is on its own: induction over the tree. -/
theorem forceImpl_alone (hH : Separates H S) {p : Pot} (hp : ¬ p.Joins) (hT : T → p.Total S)
    (system : ℕ) {fi : ForceInput} (hfi : fi ∈ S) (out : ForceOut) :
    Alone (Readable H S) T (p.forceImpl H ranks system fi out)
      fun o => o.F.length = 3 * fi.nAtoms := by
  induction p generalizing system fi out with
  | leaf type key stress cache k =>
    exact Alone.compute (k.length_F fi out) fun h => (hT h).1 fi hfi out
  | collective => exact (hp trivial).elim
  | @expr m key cache composite terms ih =>
    have hterm : ∀ i, ¬ (terms i).Joins := fun i hi => hp ⟨i, hi⟩
    have hchildren : Alone (Readable H S) T
        (each (fun i => (terms i).base.forceBatch H ranks
          ((terms i).forceBatchImpl ((terms i).forceImpl H ranks))
          [(system, ⟨fi, ForceOut.zero fi.nAtoms⟩)]) (List.finRange m))
        (List.Forall₂ (fun _ _ => True) (List.finRange m)) := by
      apply Alone.each
      intro i _
      refine Base.forceBatch_alone hH (groupCollective_of_not_joins (hterm i)) ?_ ?_
      · intro items hitems
        exact forceBatchImpl_alone (fun h => hT h i)
          (fun system fi hfi out => ih i (hterm i) (fun h => hT h i) system hfi out) hitems
      · intro x hx
        obtain rfl := List.mem_singleton.mp hx
        exact hfi
    apply hchildren.bind
    intro outs _
    exact Alone.pure (composite.length_F fi outs.flatten out)

theorem forceBatchImpl_jointly {p : Pot} (hjoins : p.Joins)
    (h : ∀ system (fi out : Fin (n + 1) → _), (∀ r, fi r ∈ S) →
      Jointly (value exchange) (Readable H S)
        (fun r => p.forceImpl H (n + 1) system (fi r) (out r))
        fun o => ∀ r, (o r).F.length = 3 * (fi r).nAtoms)
    {items : Fin (n + 1) → List Item} {tags : List ℕ} (htags : ∀ r, (items r).map Prod.fst = tags)
    (hS : ∀ r, ∀ x ∈ items r, x.2.input ∈ S) :
    Jointly (value exchange) (Readable H S)
      (fun r => p.forceBatchImpl (p.forceImpl H (n + 1)) (items r))
      fun outs => ∀ r, List.Forall₂ Sized (items r) (outs r) := by
  have heach : Jointly (value exchange) (Readable H S)
      (fun r => each (fun x : Item => p.forceImpl H (n + 1) x.1 x.2.input x.2.out) (items r))
      fun outs => ∀ r, List.Forall₂ Sized (items r) (outs r) := by
    refine Jointly.each (f := fun _ (x : Item) => p.forceImpl H (n + 1) x.1 x.2.input x.2.out)
      (R := fun _ => Sized) (Q := fun _ x => x.2.input ∈ S) htags hS ?_
    intro system x hx
    have hplace : ∀ r, (x r).1 = system := fun r => (hx r).1
    simp only [hplace]
    exact h system (fun r => (x r).2.input) (fun r => (x r).2.out) fun r => (hx r).2
  cases p with
  | leaf => exact hjoins.elim
  | collective => exact heach
  | expr => exact heach

/-- The ranks enter the force calls of a tree together: induction over the tree, with the potentials
that no collective is under run by each rank alone. -/
theorem forceImpl_jointly (hH : Separates H S) {p : Pot} (hp : p.Guarded S) (hT : p.Total S)
    (system : ℕ) (fi out : Fin (n + 1) → _) (hfi : ∀ r, fi r ∈ S) :
    Jointly (value exchange) (Readable H S)
      (fun r => p.forceImpl H (n + 1) system (fi r) (out r))
      fun o => ∀ r, (o r).F.length = 3 * (fi r).nAtoms := by
  induction p generalizing system fi out with
  | leaf type key stress cache k =>
    refine Jointly.of_alone (P := fun r (o : ForceOut) => o.F.length = 3 * (fi r).nAtoms) fun r => ?_
    have hleaf : ¬ (leaf type key stress cache k).Joins := not_false
    exact forceImpl_alone hH hleaf (fun _ => hT) system (hfi r) (out r)
  | collective type key stress cache k =>
    simp only [forceImpl]
    apply (Jointly.joint (c := value exchange) (Sig.force k.id system)
      fun r => k.contribute (fi r)).bind
    intro got _
    exact Jointly.pure fun r => k.length_F (fi r) (out r) (got r)
  | @expr m key cache composite terms ih =>
    by_cases hjoins : (Pot.expr key cache composite terms).Joins
    · obtain ⟨-, hterms⟩ := hp hjoins
      have hchildren : Jointly (value exchange) (Readable H S)
          (fun r => each (fun i => (terms i).base.forceBatch H (n + 1)
            ((terms i).forceBatchImpl ((terms i).forceImpl H (n + 1)))
            [(system, ⟨fi r, ForceOut.zero (fi r).nAtoms⟩)]) (List.finRange m))
          fun outs => ∀ r, List.Forall₂ (fun _ _ => True) (List.finRange m) (outs r) := by
        refine Jointly.each (t := id) (Q := fun _ _ => True) (R := fun _ _ _ => True)
          (f := fun r i => (terms i).base.forceBatch H (n + 1)
            ((terms i).forceBatchImpl ((terms i).forceImpl H (n + 1)))
            [(system, ⟨fi r, ForceOut.zero (fi r).nAtoms⟩)])
          (fun r => List.map_id _) (fun _ _ _ => trivial) ?_
        intro i x hx
        have hplace : ∀ r, x r = i := fun r => (hx r).1
        simp only [hplace]
        have hsystem : ∀ r, ∀ y ∈ [((system, ⟨fi r, ForceOut.zero (fi r).nAtoms⟩) : Item)],
            y.2.input ∈ S := by
          intro r y hy
          obtain rfl := List.mem_singleton.mp hy
          exact hfi r
        obtain ⟨hguarded, htotal⟩ := hterms i
        by_cases hi : (terms i).Joins
        · have htags : ∀ r, [((system, ⟨fi r, ForceOut.zero (fi r).nAtoms⟩) : Item)].map Prod.fst =
              [system] := fun _ => rfl
          have himpl : ∀ (items : Fin (n + 1) → List Item) (tags : List ℕ),
              (∀ r, (items r).map Prod.fst = tags) → (∀ r, ∀ x ∈ items r, x.2.input ∈ S) →
              Jointly (value exchange) (Readable H S)
                (fun r => (terms i).forceBatchImpl ((terms i).forceImpl H (n + 1)) (items r))
                fun outs => ∀ r, List.Forall₂ Sized (items r) (outs r) :=
            fun items tags htags hS => forceBatchImpl_jointly hi (ih i hguarded htotal) htags hS
          exact (Base.forceBatch_jointly hH (decides_of_joins hguarded hi) himpl htags
            hsystem).mono fun _ _ _ => trivial
        · refine (Jointly.of_alone (P := fun _ _ => True) fun r => ?_).mono fun _ _ _ => trivial
          refine Base.forceBatch_alone hH (groupCollective_of_not_joins hi) ?_ (hsystem r)
          intro items hitems
          exact forceBatchImpl_alone (fun _ => htotal)
            (fun system fi hfi out => forceImpl_alone hH hi (fun _ => htotal) system hfi out) hitems
      simp only [forceImpl]
      apply hchildren.bind
      intro outs _
      exact Jointly.pure fun r => composite.length_F (fi r) (outs r).flatten (out r)
    · refine Jointly.of_alone (P := fun r (o : ForceOut) => o.F.length = 3 * (fi r).nAtoms) fun r => ?_
      exact forceImpl_alone hH hjoins (fun _ => hT) system (hfi r) (out r)

end Pot

/-- The systems of a call. -/
def Action.inputs : Action → List ForceInput
  | .call fi => [fi]
  | .batch systems => systems.map System.input

section Host

theorem map_fst_zipIdx (systems : List System) :
    (systems.zipIdx.map fun x => ((x.2, x.1) : Item)).map Prod.fst = List.range systems.length := by
  rw [List.map_map, List.range_eq_range']
  exact List.zipIdx_map_snd 0 systems

theorem mem_zipIdx_input {systems : List System} (hS : ∀ fi ∈ systems.map System.input, fi ∈ S) :
    ∀ x ∈ (systems.zipIdx.map fun x => ((x.2, x.1) : Item)), x.2.input ∈ S := by
  intro x hx
  obtain ⟨y, hy, rfl⟩ := List.mem_map.mp hx
  exact hS _ (List.mem_map_of_mem (List.fst_mem_of_mem_zipIdx hy))

theorem Pot.perform_alone (hH : Separates H S) {p : Pot} (hp : ¬ p.Joins) {action : Action}
    (hS : ∀ fi ∈ action.inputs, fi ∈ S) :
    Alone (Readable H S) False (p.perform H ranks action) fun _ => True := by
  have hforce : ∀ system, ∀ fi ∈ S, ∀ out, Alone (Readable H S) False
      (p.forceImpl H ranks system fi out) fun o => o.F.length = 3 * fi.nAtoms :=
    fun system fi hfi out => forceImpl_alone hH hp False.elim system hfi out
  have hb := groupCollective_of_not_joins hp
  cases action with
  | call fi =>
    have hfi : fi ∈ S := hS fi List.mem_cons_self
    apply (Base.call_alone hH hb hfi fun out => hforce 0 fi hfi out).bind
    intro _ _
    exact Alone.pure trivial
  | batch systems =>
    apply (Base.forceBatch_alone hH hb
      (fun items hitems => forceBatchImpl_alone False.elim hforce hitems) (mem_zipIdx_input hS)).bind
    intro _ _
    exact Alone.pure trivial

theorem Pot.perform_jointly (hH : Separates H S) {p : Pot} (hp : p.Guarded S) (hjoins : p.Joins)
    {action : Fin (n + 1) → Action} {nSystems : Option ℕ}
    (hsame : ∀ r, (action r).nSystems = nSystems) (hS : ∀ r, ∀ fi ∈ (action r).inputs, fi ∈ S) :
    Jointly (value exchange) (Readable H S) (fun r => p.perform H (n + 1) (action r))
      fun _ => True := by
  have hforce : ∀ system (fi out : Fin (n + 1) → _), (∀ r, fi r ∈ S) →
      Jointly (value exchange) (Readable H S) (fun r => p.forceImpl H (n + 1) system (fi r) (out r))
        fun o => ∀ r, (o r).F.length = 3 * (fi r).nAtoms :=
    fun system fi out hfi => forceImpl_jointly hH hp (total_of_joins hp hjoins) system fi out hfi
  have hb := decides_of_joins hp hjoins
  cases nSystems with
  | none =>
    have hcalls : ∀ r, ∃ fi, action r = .call fi := by
      intro r
      have hr := hsame r
      cases haction : action r with
      | call fi => exact ⟨fi, rfl⟩
      | batch systems => simp [haction, Action.nSystems] at hr
    choose fi hfi using hcalls
    obtain rfl : action = fun r => .call (fi r) := funext hfi
    have hin : ∀ r, fi r ∈ S := fun r => hS r (fi r) List.mem_cons_self
    apply (Base.call_jointly hH hb hin fun out => hforce 0 fi out hin).bind
    intro _ _
    exact Jointly.pure trivial
  | some count =>
    have hbatches : ∀ r, ∃ systems, action r = .batch systems ∧ systems.length = count := by
      intro r
      have hr := hsame r
      cases haction : action r with
      | call fi => simp [haction, Action.nSystems] at hr
      | batch systems =>
        rw [haction] at hr
        exact ⟨systems, rfl, Option.some.inj hr⟩
    choose systems haction hcount using hbatches
    obtain rfl : action = fun r => .batch (systems r) := funext haction
    have hplaces : ∀ r, ((systems r).zipIdx.map fun x => ((x.2, x.1) : Item)).map Prod.fst =
        List.range count := fun r => (map_fst_zipIdx (systems r)).trans (by rw [hcount r])
    apply (Base.forceBatch_jointly hH hb
      (fun items tags htags hitems => forceBatchImpl_jointly hjoins hforce htags hitems) hplaces
      fun r => mem_zipIdx_input (hS r)).bind
    intro _ _
    exact Jointly.pure trivial

/-- One call that all ranks make: they meet again where the next one starts. -/
theorem perform_lockstep (hH : Separates H S) (entry : Entry n) (hp : entry.pot.Guarded S)
    (hS : ∀ r, ∀ fi ∈ (entry.action r).inputs, fi ∈ S) (s : Fin (n + 1) → Rank)
    (hs : ∀ r, Readable H S (s r)) :
    ∃ (t : List Sig) (a : Fin (n + 1) → Except Exn Unit) (s' : Fin (n + 1) → Rank),
      Lockstep (value exchange) (fun r => entry.pot.perform H (n + 1) (entry.action r) (s r)) t
        (fun r => (a r, s' r)) ∧ ∀ r, Readable H S (s' r) := by
  by_cases hjoins : entry.pot.Joins
  · have hmeet : Jointly (value exchange) (Readable H S)
        (fun r => entry.pot.perform H (n + 1) (entry.action r)) fun _ => True :=
      entry.pot.perform_jointly hH hp hjoins entry.same hS
    obtain ⟨t, a, s', hrun, hs', -⟩ := hmeet s hs
    exact ⟨t, fun r => .ok (a r), s', hrun, hs'⟩
  · have halone : ∀ r, Alone (Readable H S) False (entry.pot.perform H (n + 1) (entry.action r))
        fun _ => True := fun r => entry.pot.perform_alone hH hjoins (hS r)
    choose a s' hrun hs' _ _ using fun r => halone r (s r) (hs r)
    refine ⟨[], a, s', ?_, hs'⟩
    rw [funext hrun]
    exact Leads.refl _

/-- A run of calls: induction on the calls. -/
theorem host_lockstep (hH : Separates H S) {script : List (Entry n)}
    (hguarded : ∀ entry ∈ script, entry.pot.Guarded S)
    (hS : ∀ entry ∈ script, ∀ r, ∀ fi ∈ (entry.action r).inputs, fi ∈ S)
    {s : Fin (n + 1) → Rank} (hs : ∀ r, Readable H S (s r)) :
    ∃ t a, Lockstep (value exchange) (fun r => host H r script (s r)) t a := by
  induction script generalizing s with
  | nil => exact ⟨[], s, Leads.refl _⟩
  | cons entry script ih =>
    obtain ⟨t, a, s', hrun, hs'⟩ := perform_lockstep hH entry (hguarded entry List.mem_cons_self)
      (hS entry List.mem_cons_self) s hs
    obtain ⟨u, b, hrest⟩ := ih (fun e he => hguarded e (List.mem_cons_of_mem entry he))
      (fun e he => hS e (List.mem_cons_of_mem entry he)) hs'
    exact ⟨t ++ u, b, hrun.bind hrest⟩

/-- The group-collective protocol: in every run in which no `ExprPot` over a group-collective potential
has a cache, a rank in a collective is never left alone, and the joint flags are the logical AND. -/
theorem collective_protocol (exchange : ℕ → (Fin (n + 1) → Buffer) → Buffer) (hH : Separates H S)
    (script : List (Entry n)) (hguarded : ∀ entry ∈ script, entry.pot.Guarded S)
    (hS : ∀ entry ∈ script, ∀ r, ∀ fi ∈ (entry.action r).inputs, fi ∈ S)
    (s : Fin (n + 1) → Rank) (hs : ∀ r, Readable H S (s r)) :
    (∃ t a, Together (value exchange) (fun r => host H r script (s r)) t a) ∧
    ∀ (count : ℕ) (flags : Fin (n + 1) → List UInt8), (∀ r, (flags r).length = count) →
      Jointly (value exchange) (fun _ => True) (fun r => calculatorAgree (n + 1) (flags r))
        fun agreed => ∀ r, (agreed r).length = count ∧
          ∀ k, k < count → ((agreed r).getD k 0 ≠ 0 ↔ ∀ q, (flags q).getD k 0 ≠ 0) := by
  constructor
  · have hlockstep : ∃ t a, Lockstep (value exchange) (fun r => host H r script (s r)) t a :=
      host_lockstep hH hguarded hS hs
    obtain ⟨t, a, hrun⟩ := hlockstep
    exact ⟨t, a, hrun.together⟩
  · exact fun count flags hlength => calculatorAgree_jointly count flags hlength

end Host

section Split

/-- A force call that meets the other ranks and returns zeros. -/
def meeting : CollectiveKernel where
  id := 0
  contribute _ := .ints []
  answer fi _ _ := ForceOut.zero fi.nAtoms
  length_F fi _ _ := by simp [ForceOut.zero]

/-- An `ExprPot` that keeps nothing of its child. -/
def zeros : Composite where
  evaluate fi _ _ := ForceOut.zero fi.nAtoms
  length_F fi _ _ := by simp [ForceOut.zero]

/-- An `ExprPot` over the potential, with the cache 0 or none. -/
def wrapped (cache : Option ℕ) : Pot :=
  .expr 1 cache zeros fun _ : Fin 1 => .collective .CPMD 2 false none meeting

/-- Rank 0 holds a record of every system, rank 1 holds none. -/
def split (r : Fin 2) : Rank where
  store _ := if r = 0 then legacyCache else emptyCache
  kept _ := true

/-- Both ranks ask for the atom at 1. -/
def ask (cache : Option ℕ) : Entry 1 := ⟨wrapped cache, fun _ => .call (atomAt 1), none, fun _ => rfl⟩

theorem separates_oneAtom (H : List UInt8 → ℕ) : Separates H {fi | fi.nAtoms = 1} := by
  rintro ⟨_, _, _⟩ ⟨_, _, _⟩ (hx : _ = 1) (hy : _ = 1) _
  exact hx.trans hy.symm

theorem readable_split (H : List UInt8 → ℕ) (r : Fin 2) :
    Readable H {fi | fi.nAtoms = 1} (split r) := by
  rintro id ⟨_, _, _⟩ (hone : _ = 1) hit hfind
  by_cases hr : r = 0
  · have hrecord : some (legacyRecord 1 [1, 0, 0]) = some hit := by
      simpa [split, hr, legacyCache, PotentialCache.find] using hfind
    obtain rfl := Option.some.inj hrecord
    rw [hone]
    exact le_of_eq (by decide : energyForceBytes 1 = (legacyRecord 1 [1, 0, 0]).length)
  · simp [split, hr, emptyCache, PotentialCache.find] at hfind

/-- Behind the cache of the `ExprPot` rank 0 is served, and rank 1 waits in the force call. -/
theorem not_collective_protocol :
    ¬ ∀ (n : ℕ) (exchange : ℕ → (Fin (n + 1) → Buffer) → Buffer) (H : List UInt8 → ℕ)
      (S : Set ForceInput), Separates H S → ∀ script : List (Entry n),
      (∀ entry ∈ script, entry.pot.Total S) →
      (∀ entry ∈ script, ∀ r, ∀ fi ∈ (entry.action r).inputs, fi ∈ S) →
      ∀ s : Fin (n + 1) → Rank, (∀ r, Readable H S (s r)) →
        ∃ t a, Together (value exchange) (fun r => host H r script (s r)) t a := by
  intro h
  obtain ⟨t, a, htogether⟩ := h 1 (fun _ _ => .ints []) Words.number {fi | fi.nAtoms = 1}
    (separates_oneAtom _) [ask (some 0)]
    (by
      intro entry hentry
      obtain rfl := List.mem_singleton.mp hentry
      exact fun _ => trivial)
    (by
      intro entry hentry r fi hfi
      obtain rfl := List.mem_singleton.mp hentry
      obtain rfl := List.mem_singleton.mp hfi
      rfl)
    split (readable_split _)
  obtain ⟨v, k, hcall⟩ := htogether.meet _ Relation.ReflTransGen.refl 1 0 (.force 0 0) _ _ rfl
  have hserved : (start (fun r => host Words.number r [ask (some 0)] (split r)) 0).prog =
      .ret (split 0) := rfl
  rw [hserved] at hcall
  cases hcall

/-- The group-collective potential with the cache 0 of its own. -/
def direct : Pot := .collective .CPMD 2 false (some 0) meeting

/-- Both ranks ask for the atom at 1, and then for a batch of it and the atom at 2. -/
def script : List (Entry 1) :=
  [⟨direct, fun _ => .call (atomAt 1), none, fun _ => rfl⟩,
   ⟨direct, fun _ => .batch [⟨atomAt 1, ForceOut.zero 1⟩, ⟨atomAt 2, ForceOut.zero 1⟩], some 2,
    fun _ => rfl⟩]

/-- Rank 0 has a record of both atoms and rank 1 of none: they miss together, and the flags of a
system that one of them has are combined to a miss. -/
theorem collective_protocol_cached :
    (∃ t a, Together (value fun _ _ => .ints [])
      (fun r : Fin 2 => host Words.number r script (split r)) t a) ∧
    Jointly (value fun _ _ => .ints []) (fun _ => True)
      (fun r : Fin 2 => calculatorAgree 2 [if r = 0 then 1 else 0, 1])
      fun agreed => ∀ r, (agreed r).length = 2 ∧
        ∀ k, k < 2 → ((agreed r).getD k 0 ≠ 0 ↔
          ∀ q : Fin 2, [if q = 0 then (1 : UInt8) else 0, 1].getD k 0 ≠ 0) := by
  have h := collective_protocol (fun _ _ => .ints []) (separates_oneAtom Words.number) script
    (by
      intro entry hentry
      have hpot : entry.pot = direct := by
        rcases List.mem_pair.mp hentry with rfl | rfl <;> rfl
      rw [hpot]
      trivial)
    (by
      intro entry hentry r fi hfi
      rcases List.mem_pair.mp hentry with rfl | rfl
      · obtain rfl := List.mem_singleton.mp hfi
        rfl
      · rcases List.mem_pair.mp hfi with rfl | rfl <;> rfl)
    split (readable_split _)
  exact ⟨h.1, h.2 2 (fun r => [if r = 0 then 1 else 0, 1]) fun _ => rfl⟩

end Split
end Rgpot.GroupCache
