import Rgpot.Uma.Batch

/-! What a band package gives each system of a batch. -/
namespace Rgpot.Uma
open Fill Fallible

variable {D : Type} [Reals D]

section Edges

/-- The edges are among vesin's pairs. -/
theorem vesinFairchemEdges_eq_ok {nAtoms : ℕ} {sorts : Sorts}
    {nl : Except (Option String) (List (VesinPair nAtoms))} {m : ℤ} {e : EdgeList}
    (h : vesinFairchemEdges sorts nl m = .ok e) :
    ∃ pairs keep, nl = .ok pairs ∧ e = EdgeList.ofCands keep ∧
      ∀ a ∈ keep, ∃ p ∈ pairs, p.cand = a := by
  unfold vesinFairchemEdges at h
  split at h
  · cases h
  · cases h
  · rename_i pairs
    obtain rfl := Except.ok.inj h
    refine ⟨pairs, _, rfl, rfl, ?_⟩
    have hsorted : ∀ a ∈ sorts.cands.sort ((pairs.filter fun p =>
        ¬ p.distance < shortest).map VesinPair.cand), ∃ p ∈ pairs, p.cand = a := by
      intro a ha
      obtain ⟨p, hp, rfl⟩ := List.mem_map.mp ((sorts.cands.perm _).mem_iff.mp ha)
      exact ⟨p, (List.mem_filter.mp hp).1, rfl⟩
    intro a ha
    split at ha
    · obtain ⟨c, -, hac⟩ := List.mem_flatMap.mp ha
      obtain ⟨id, -, rfl⟩ := List.mem_map.mp hac
      exact hsorted _ (List.get_mem _ _)
    · exact hsorted a ha

/-- Edges run between atoms of the system. -/
theorem vesinFairchemEdges_lt {nAtoms : ℕ} {sorts : Sorts}
    {nl : Except (Option String) (List (VesinPair nAtoms))} {m : ℤ} {e : EdgeList}
    (h : vesinFairchemEdges sorts nl m = .ok e) :
    e.center.length = e.count ∧ ∀ k < e.count, e.neighborAt k < nAtoms ∧ e.centerAt k < nAtoms := by
  obtain ⟨pairs, keep, -, rfl, hkeep⟩ := vesinFairchemEdges_eq_ok h
  refine ⟨?_, ?_⟩
  · simp [EdgeList.ofCands, EdgeList.count]
  · intro k hk
    have hlt : k < keep.length := by simpa [EdgeList.ofCands, EdgeList.count] using hk
    obtain ⟨p, -, hp⟩ := hkeep keep[k] (List.getElem_mem hlt)
    have hn : keep[k].n < nAtoms ∧ keep[k].c < nAtoms := by
      rw [← hp]
      exact ⟨p.neighbor.isLt, p.center.isLt⟩
    simpa [EdgeList.ofCands, EdgeList.neighborAt, EdgeList.centerAt, hlt] using hn

theorem length_resize {α β : Type} {xs : List α} {ys : List β} (h : xs.length = ys.length) (m : ℤ) :
    (resize xs m).length = (resize ys m).length := by
  unfold resize
  rw [h]
  split
  · rw [List.length_take, List.length_take, h]
  · exact h

/-- The number of edges. -/
theorem vesinFairchemEdges_count {nAtoms : ℕ} {m : ℤ} (hm : 0 < m) (sorts : Sorts) (nl : List (VesinPair nAtoms)) :
    ∃ e, vesinFairchemEdges sorts (.ok nl) m = .ok e ∧
      e.count = ((List.range nAtoms).map fun c => (resize (longPairs nl c) m).length).sum := by
  refine ⟨_, vesinFairchemEdges_eq hm, ?_⟩
  rw [EdgeList.count, EdgeList.ofCands, List.length_map, List.length_flatMap]
  refine congrArg List.sum (List.map_congr_left fun c _ => ?_)
  rw [trimmed_eq]
  refine length_resize ?_ m
  rw [(closestOf_perm sorts (List.Perm.refl nl) c).length_eq, List.length_map]

theorem localInput_plain {impl : Impl D} (hframe : Reals.positive impl.molecular_box = false)
    (input : ForceInput D) : localInput impl input = .ok input := by
  unfold localInput
  rw [hframe]
  rfl

/-- A system that is evaluated in the frame it comes in. -/
theorem systemOf_plain {env : Env D} {impl : Impl D} {input : ForceInput D} {e : EdgeList}
    (hframe : Reals.positive impl.molecular_box = false)
    (he : vesinFairchemEdges env.sorts (env.vesin input impl.cutoff) impl.max_neighbors = .ok e) :
    systemOf env impl input = .ok ⟨input.pos, input.atmnrs, input.box, e⟩ := by
  refine bind_eq_ok.mpr ⟨_, localInput_plain hframe input, ?_⟩
  rw [he]
  rfl

/-- The atoms and edges of a system that could be built. -/
theorem systemOf_eq_ok {env : Env D} {impl : Impl D} {input : ForceInput D} {s : System D}
    (h : systemOf env impl input = .ok s) :
    s.pos.length = input.nAtoms ∧ s.atomic_numbers = input.atmnrs ∧
      s.edges.center.length = s.edges.count ∧
      ∀ k < s.edges.count, s.edges.neighborAt k < input.nAtoms ∧ s.edges.centerAt k < input.nAtoms := by
  obtain ⟨moved, hlocal, hrest⟩ := bind_eq_ok.mp h
  have hatoms : moved.nAtoms = input.nAtoms ∧ moved.atmnrs = input.atmnrs := by
    unfold localInput at hlocal
    split at hlocal
    · split at hlocal
      · cases hlocal
      · cases hlocal
        exact ⟨rfl, rfl⟩
    · cases hlocal
      exact ⟨rfl, rfl⟩
  split at hrest
  · cases hrest
  · rename_i edges hedges
    cases hrest
    rw [← hatoms.1]
    obtain ⟨hlength, hlt⟩ := vesinFairchemEdges_lt hedges
    exact ⟨moved.length_pos, hatoms.2, hlength, hlt⟩

end Edges

section Ranges

/-- Each system's edges, as many as its count says, lie between its own atoms `b n`, …,
`(b + 1) n - 1`. -/
structure EdgesInRange (n : ℕ) (inputs : Inputs D) (counts : List ℕ) : Prop where
  nedges : inputs.nedges = some (counts.map fun c : ℕ => (c : ℤ))
  neighbor_length : inputs.neighbor.length = counts.sum
  center_length : inputs.center.length = counts.sum
  within : ∀ b < counts.length, ∀ e, (counts.take b).sum ≤ e → e < (counts.take (b + 1)).sum →
    ∃ i j : ℕ, inputs.neighbor[e]? = some (i : ℤ) ∧ inputs.center[e]? = some (j : ℤ) ∧
      b * n ≤ i ∧ i < (b + 1) * n ∧ b * n ≤ j ∧ j < (b + 1) * n

omit [Reals D] in
/-- The edges of systems in a row. -/
theorem movedBy_within {n : ℕ} (at_ : EdgeList → ℕ → ℕ) (systems : List (System D))
    (h : ∀ s ∈ systems, ∀ k < s.edges.count, at_ s.edges k < n) :
    (systems.zipIdx.flatMap fun x => movedBy n x.2 x.1 at_).length =
      (systems.map fun s => s.edges.count).sum ∧
    ∀ b < systems.length, ∀ e, ((systems.map fun s => s.edges.count).take b).sum ≤ e →
      e < ((systems.map fun s => s.edges.count).take (b + 1)).sum →
      ∃ i : ℕ, (systems.zipIdx.flatMap fun x => movedBy n x.2 x.1 at_)[e]? = some (i : ℤ) ∧
        b * n ≤ i ∧ i < (b + 1) * n := by
  induction systems using List.reverseRecOn with
  | nil => exact ⟨rfl, fun b hb => absurd hb (Nat.not_lt_zero b)⟩
  | append_singleton systems s ih =>
    obtain ⟨hlength, hwithin⟩ := ih fun x hx => h x (List.mem_append_left _ hx)
    have hs := h s (List.mem_append_right _ List.mem_cons_self)
    have hzip : (systems ++ [s]).zipIdx = systems.zipIdx ++ [(s, systems.length)] := by
      rw [List.zipIdx_append, Nat.zero_add]
      rfl
    have hlast : (movedBy n systems.length s at_).length = s.edges.count := by
      rw [movedBy, List.length_map, List.length_range]
    rw [hzip, List.flatMap_append, List.flatMap_singleton, List.map_append]
    refine ⟨?_, ?_⟩
    · rw [List.length_append, hlength, hlast, List.sum_append]
      simp
    · intro b hb e hlo hhi
      rw [List.length_append, List.length_singleton] at hb
      rcases Nat.lt_succ_iff_lt_or_eq.mp hb with hlt | rfl
      · -- an edge of an earlier system
        rw [List.take_append_of_le_length (by rw [List.length_map]; omega)] at hlo hhi
        obtain ⟨i, hi, hrange⟩ := hwithin b hlt e hlo hhi
        refine ⟨i, ?_, hrange⟩
        rw [List.getElem?_append_left]
        · exact hi
        · exact (List.getElem?_eq_some_iff.mp hi).1
      · rw [List.take_append_of_le_length (by rw [List.length_map]),
          List.take_of_length_le (by rw [List.length_map])] at hlo
        rw [List.take_of_length_le (by simp), List.sum_append] at hhi
        simp only [List.map_cons, List.map_nil, List.sum_singleton] at hhi
        have hk : e - (systems.map fun s => s.edges.count).sum < s.edges.count := by omega
        refine ⟨at_ s.edges (e - (systems.map fun s => s.edges.count).sum) + systems.length * n,
          ?_, by omega, ?_⟩
        · rw [List.getElem?_append_right (by omega), hlength, movedBy, List.getElem?_map,
            List.getElem?_range hk]
          rfl
        · have := hs _ hk
          rw [Nat.succ_mul]
          omega

omit [Reals D] in
theorem collate_edgesInRange {n : ℕ} {systems : List (System D)} (charge spin : ℤ)
    (h : ∀ s ∈ systems, ∀ k < s.edges.count, s.edges.neighborAt k < n ∧ s.edges.centerAt k < n) :
    EdgesInRange n (collate n systems charge spin) (systems.map fun s => s.edges.count) := by
  have hneighbor := movedBy_within EdgeList.neighborAt systems
    fun s hs k hk => (h s hs k hk).1
  have hcenter := movedBy_within EdgeList.centerAt systems fun s hs k hk => (h s hs k hk).2
  refine ⟨?_, hneighbor.1, hcenter.1, ?_⟩
  · rw [List.map_map]
    rfl
  · intro b hb e hlo hhi
    rw [List.length_map] at hb
    obtain ⟨i, hi, hilo, hihi⟩ := hneighbor.2 b hb e hlo hhi
    obtain ⟨j, hj, hjlo, hjhi⟩ := hcenter.2 b hb e hlo hhi
    exact ⟨i, j, hi, hj, hilo, hihi, hjlo, hjhi⟩

end Ranges

section Padding

theorem filterMap_range_getElem {α : Type} (l : List α) :
    (List.range l.length).filterMap (fun b => l[b]?) = l := by
  induction l using List.reverseRecOn with
  | nil => rfl
  | append_singleton l x ih =>
    rw [List.length_append, List.length_singleton, List.range_succ, List.filterMap_append]
    have hfirst : (List.range l.length).filterMap (fun b => (l ++ [x])[b]?) =
        (List.range l.length).filterMap fun b => l[b]? := by
      apply List.filterMap_congr
      intro b hb
      rw [List.getElem?_append_left (List.mem_range.mp hb)]
    rw [hfirst, ih]
    simp

omit [Reals D] in
/-- A chunk is followed by its last system up to the traced size. -/
theorem padded_eq {bmax : ℕ} {chunk : List (ForceInput D)} (hne : chunk ≠ [])
    (hle : chunk.length ≤ bmax) : padded bmax chunk =
      chunk ++ List.replicate (bmax - chunk.length) (chunk.getLast hne) := by
  have hpos := List.length_pos_iff.mpr hne
  obtain ⟨pad, rfl⟩ := Nat.exists_eq_add_of_le hle
  rw [padded, List.range_add, List.filterMap_append, List.filterMap_map, Nat.add_sub_cancel_left]
  congr 1
  · conv_rhs => rw [← filterMap_range_getElem chunk]
    apply List.filterMap_congr
    intro b hb
    rw [if_pos (List.mem_range.mp hb)]
  · have hlast : chunk[chunk.length - 1]? = some (chunk.getLast hne) := by
      rw [List.getElem?_eq_getElem (by omega), List.getLast_eq_getElem]
    have hconst : ((fun b => chunk[if b < chunk.length then b else chunk.length - 1]?) ∘
        fun x => chunk.length + x) = fun _ => some (chunk.getLast hne) := by
      funext b
      rw [Function.comp_apply, if_neg (by omega), hlast]
    rw [hconst]
    induction pad with
    | zero => rfl
    | succ pad ih =>
      rw [List.range_succ, List.filterMap_append, ih (Nat.le_add_right _ _), List.replicate_succ']
      rfl

omit [Reals D] in
theorem length_padded {bmax : ℕ} {chunk : List (ForceInput D)} (hne : chunk ≠ [])
    (hle : chunk.length ≤ bmax) : (padded bmax chunk).length = bmax := by
  rw [padded_eq hne hle, List.length_append, List.length_replicate]
  omega

omit [Reals D] in
theorem mem_padded {bmax : ℕ} {chunk : List (ForceInput D)} (hne : chunk ≠ [])
    (hle : chunk.length ≤ bmax) (input : ForceInput D) : input ∈ padded bmax chunk ↔ input ∈ chunk := by
  rw [padded_eq hne hle, List.mem_append]
  refine or_iff_left_of_imp ?_
  intro h
  rw [(List.mem_replicate.mp h).2]
  exact List.getLast_mem hne

end Padding

section Chunk

/-- A compiled band graph that evaluates each system from its own atoms and edges. -/
structure BandModel (run : Inputs D → Except Exn (List (List D))) (n bmax : ℕ) (charge spin : ℤ) where
  energy : System D → D
  forces : System D → List D
  length_forces : ∀ s, s.pos.length = n → (forces s).length = n * 3
  run_collate : ∀ systems : List (System D), systems.length = bmax →
    (∀ s ∈ systems, s.pos.length = n ∧ s.atomic_numbers.length = n) →
    (∃ s ∈ systems, 0 < s.edges.count) →
    ∃ rest, run (collate n systems charge spin) =
      .ok (systems.map energy :: systems.flatMap forces :: rest)

variable {env : Env D} {impl : Impl D} {n bmax : ℕ} {zs : List ℤ}

/-- Systems of one composition. -/
def Uniform (n : ℕ) (zs : List ℤ) (systems : List (ForceInput D)) : Prop :=
  ∀ input ∈ systems, input.nAtoms = n ∧ input.atmnrs = zs

/-- A chunk that the band graph can be run on: vesin has a list for every system, and not all are
empty. -/
def Runs (env : Env D) (impl : Impl D) (chunk : List (ForceInput D)) : Prop :=
  (∀ input ∈ chunk, ∃ s, systemOf env impl input = .ok s) ∧
    ∃ input ∈ chunk, ∃ s, systemOf env impl input = .ok s ∧ 0 < s.edges.count

omit [Reals D] in
theorem foldl_count_eq_zero (systems : List (System D)) :
    systems.foldl (fun total s => total + s.edges.count) 0 = 0 ↔ ∀ s ∈ systems, s.edges.count = 0 := by
  induction systems using List.reverseRecOn with
  | nil => simp
  | append_singleton systems s ih =>
    rw [List.foldl_append, List.foldl_cons, List.foldl_nil, Nat.add_eq_zero_iff, ih]
    simp [or_imp, forall_and]

/-- The inputs of a chunk are its systems' batch. -/
theorem chunkInputs_eq_ok {chunk : List (ForceInput D)} {inputs : Inputs D} (hne : chunk ≠ [])
    (hle : chunk.length ≤ bmax) (hu : Uniform n zs chunk)
    (h : chunkInputs env impl n bmax chunk = .ok inputs) :
    ∃ systems, (padded bmax chunk).mapM (systemOf env impl) = .ok systems ∧
      inputs = collate n systems impl.config.charge impl.config.spin ∧
      (∀ s ∈ systems, s.pos.length = n ∧ s.atomic_numbers.length = n) ∧
      ∃ s ∈ systems, 0 < s.edges.count := by
  obtain ⟨systems, hs, hrest⟩ := bind_eq_ok.mp h
  have hatoms : ∀ s ∈ systems, s.pos.length = n ∧ s.atomic_numbers.length = n := by
    intro s hmem
    obtain ⟨input, hinput, hsys⟩ := mapM_mem hs hmem
    obtain ⟨hn, -⟩ := hu input ((mem_padded hne hle input).mp hinput)
    obtain ⟨hpos, hnumbers, -⟩ := systemOf_eq_ok hsys
    rw [hnumbers, hpos, input.length_atmnrs, hn]
    exact ⟨rfl, rfl⟩
  split at hrest
  · cases hrest
  · rename_i hedges
    rw [foldl_count_eq_zero] at hedges
    push Not at hedges
    obtain ⟨s, hmem, hcount⟩ := hedges
    cases hrest
    exact ⟨systems, hs, bandInputs_eq_collate env.empty systems _ _ hatoms, hatoms,
      s, hmem, Nat.pos_of_ne_zero hcount⟩

theorem chunkInputs_of_runs {chunk : List (ForceInput D)} (hne : chunk ≠ [])
    (hle : chunk.length ≤ bmax) (h : Runs env impl chunk) :
    ∃ inputs, chunkInputs env impl n bmax chunk = .ok inputs := by
  obtain ⟨hbuilt, input, hinput, s, hs, hcount⟩ := h
  obtain ⟨systems, hsystems⟩ := exists_mapM_eq_ok.mpr fun input hmem =>
    hbuilt input ((mem_padded hne hle input).mp hmem)
  have hmem : s ∈ systems := by
    obtain ⟨i, hi, rfl⟩ := List.mem_iff_getElem.mp ((mem_padded hne hle input).mpr hinput)
    have hforall := mapM_eq_ok_iff.mp hsystems
    have hlen := hforall.length_eq
    have hget := hforall.get hi (hlen ▸ hi)
    simp only [List.get_eq_getElem] at hget
    rw [hs] at hget
    rw [Except.ok.inj hget]
    exact List.getElem_mem _
  have hedges : ¬ systems.foldl (fun total s => total + s.edges.count) 0 = 0 := by
    rw [foldl_count_eq_zero]
    intro hzero
    exact absurd (hzero s hmem) hcount.ne'
  refine ⟨bandInputs n env.empty systems impl.config.charge impl.config.spin, ?_⟩
  rw [chunkInputs, hsystems]
  simp only [bind, Except.bind, if_neg hedges, pure, Except.pure]

theorem runs_of_chunkInputs {chunk : List (ForceInput D)} {inputs : Inputs D} (hne : chunk ≠ [])
    (hle : chunk.length ≤ bmax) (hu : Uniform n zs chunk)
    (h : chunkInputs env impl n bmax chunk = .ok inputs) : Runs env impl chunk := by
  obtain ⟨systems, hs, -, -, s, hmem, hcount⟩ := chunkInputs_eq_ok hne hle hu h
  refine ⟨?_, ?_⟩
  · intro input hinput
    exact exists_mapM_eq_ok.mp ⟨systems, hs⟩ input ((mem_padded hne hle input).mpr hinput)
  · obtain ⟨input, hinput, hsys⟩ := mapM_mem hs hmem
    exact ⟨input, (mem_padded hne hle input).mp hinput, s, hsys, hcount⟩

/-- The edge tensors of every run stay within the systems they belong to. -/
theorem chunkInputs_edgesInRange {chunk : List (ForceInput D)} {inputs : Inputs D} (hne : chunk ≠ [])
    (hle : chunk.length ≤ bmax) (hu : Uniform n zs chunk)
    (h : chunkInputs env impl n bmax chunk = .ok inputs) :
    ∃ counts, counts.length = bmax ∧ EdgesInRange n inputs counts := by
  obtain ⟨systems, hs, rfl, -, -⟩ := chunkInputs_eq_ok hne hle hu h
  refine ⟨systems.map fun s => s.edges.count, ?_, collate_edgesInRange _ _ ?_⟩
  · rw [List.length_map, ← (mapM_eq_ok_iff.mp hs).length_eq, length_padded hne hle]
  · intro s hmem k hk
    obtain ⟨input, hinput, hsys⟩ := mapM_mem hs hmem
    obtain ⟨hn, -⟩ := hu input ((mem_padded hne hle input).mp hinput)
    rw [← hn]
    exact (systemOf_eq_ok hsys).2.2.2 k hk

theorem runs_of_evalChunk {chunk : List (ForceInput D)} {r : List D × List D} (hne : chunk ≠ [])
    (hle : chunk.length ≤ bmax) (hu : Uniform n zs chunk)
    (h : evalChunk env impl n bmax chunk = .ok r) : Runs env impl chunk := by
  obtain ⟨inputs, hinputs, -⟩ := bind_eq_ok.mp h
  exact runs_of_chunkInputs hne hle hu hinputs

omit [Reals D] in
theorem outputsOf_eq {inputs : Inputs D} {e f : List D} {rest : List (List D)}
    (h : env.run inputs = .ok (e :: f :: rest)) : outputsOf env inputs = .ok (e, f) := by
  rw [outputsOf, h]
  rfl

/-- A run gives each system of the chunk what the model gives it alone. -/
theorem evalChunk_of_runs (model : BandModel env.run n bmax impl.config.charge impl.config.spin)
    {chunk : List (ForceInput D)} (hne : chunk ≠ []) (hle : chunk.length ≤ bmax)
    (hu : Uniform n zs chunk) (h : Runs env impl chunk) :
    ∃ energies forces, evalChunk env impl n bmax chunk = .ok (energies, forces) ∧
      ∀ b (hb : b < chunk.length) s, systemOf env impl chunk[b] = .ok s →
        energies.getD b 0 = model.energy s ∧
        ∀ i < n * 3, forces.getD (b * n * 3 + i) 0 = (model.forces s).getD i 0 := by
  obtain ⟨inputs, hinputs⟩ := chunkInputs_of_runs (n := n) hne hle h
  obtain ⟨systems, hs, rfl, hatoms, hedges⟩ := chunkInputs_eq_ok hne hle hu hinputs
  have hforall := mapM_eq_ok_iff.mp hs
  have hlength : systems.length = bmax := by
    rw [← hforall.length_eq, length_padded hne hle]
  obtain ⟨rest, hrun⟩ := model.run_collate systems hlength hatoms hedges
  have hsizes : ∀ s ∈ systems, (model.forces s).length = n * 3 :=
    fun s hmem => model.length_forces s (hatoms s hmem).1
  have hforces : (systems.flatMap model.forces).length = bmax * n * 3 := by
    rw [List.length_flatMap, List.map_congr_left hsizes, List.map_const', List.sum_replicate, hlength,
      smul_eq_mul, Nat.mul_assoc]
  refine ⟨systems.map model.energy, systems.flatMap model.forces, ?_, ?_⟩
  · rw [evalChunk, hinputs]
    simp only [bind, Except.bind, outputsOf_eq hrun, List.length_map, hlength, hforces, ne_eq,
      not_true_eq_false, or_self, if_false, pure, Except.pure]
  · intro b hb s hsys
    have hbs : b < systems.length := by omega
    have hbp : b < (padded bmax chunk).length := by
      rw [length_padded hne hle]
      omega
    have hget := hforall.get hbp hbs
    have hsame : (padded bmax chunk)[b] = chunk[b] := by
      simp only [padded_eq hne hle]
      exact List.getElem_append_left hb
    simp only [List.get_eq_getElem, hsame] at hget
    rw [hsys] at hget
    obtain rfl := Except.ok.inj hget
    refine ⟨?_, ?_⟩
    · rw [List.getD_eq_getElem _ _ (by rwa [List.length_map]), List.getElem_map]
    · intro i hi
      rw [Nat.mul_assoc]
      exact getD_flatMap hsizes hbs hi 0

end Chunk

section Writes

theorem Outs.write_out (s : Outs D) (slot k : ℕ) (energy : D) (count : ℕ) (f : ℕ → D) :
    (s.write slot energy count f).out k =
      if k = slot then ⟨fill (s.out slot).F 0 count f, energy, 0⟩ else s.out k :=
  Function.update_apply _ _ _ _

/-- What a slot holds after a result was written to it. -/
def ForceOut.filled (o : ForceOut D) (energy : D) (count : ℕ) (f : ℕ → D) : ForceOut D :=
  ⟨fill o.F 0 count f, energy, 0⟩

/-- A chunk's results go to its own slots, one write each. -/
theorem writeChunk_eq (n slot count : ℕ) (energies forces : List D) (s : Outs D) :
    (writeChunk n slot count energies forces s).writes = s.writes ++ List.range' slot count ∧
    ∀ k, (writeChunk n slot count energies forces s).out k =
      if slot ≤ k ∧ k < slot + count then
        (s.out k).filled (energies.getD (k - slot) 0) (n * 3)
          fun i => forces.getD ((k - slot) * n * 3 + i) 0
      else s.out k := by
  induction count with
  | zero =>
    refine ⟨(List.append_nil _).symm, ?_⟩
    intro k
    rw [if_neg (by omega)]
    rfl
  | succ count ih =>
    obtain ⟨hwrites, hout⟩ := ih
    have hlast : writeChunk n slot (count + 1) energies forces s =
        (writeChunk n slot count energies forces s).write (slot + count) (energies.getD count 0)
          (n * 3) fun i => forces.getD (count * n * 3 + i) 0 := by
      rw [writeChunk, List.range_succ, List.foldl_append]
      rfl
    rw [hlast]
    refine ⟨?_, ?_⟩
    · rw [Outs.write, hwrites, List.append_assoc, List.range'_1_concat]
    · intro k
      rw [Outs.write_out]
      by_cases hk : k = slot + count
      · subst hk
        rw [if_pos rfl, if_pos (by omega), hout, if_neg (by omega), Nat.add_sub_cancel_left]
        rfl
      · rw [if_neg hk, hout]
        by_cases hin : slot ≤ k ∧ k < slot + count
        · rw [if_pos hin, if_pos (by omega)]
        · rw [if_neg hin, if_neg (by omega)]

theorem fill_congr {α : Type} {t : ℕ → α} {base count : ℕ} {f g : ℕ → α}
    (h : ∀ i < count, f i = g i) : fill t base count f = fill t base count g := by
  funext k
  rw [fill_apply, fill_apply]
  by_cases hk : base ≤ k ∧ k < base + count
  · rw [if_pos hk, if_pos hk, h _ (by omega)]
  · rw [if_neg hk, if_neg hk]

end Writes

section Loop
variable {env : Env D} {impl : Impl D} {n bmax : ℕ} {zs : List ℤ} {systems : List (ForceInput D)}
  {slot : ℕ}

theorem chunkLoop_done {start : ℕ} (h : systems.length ≤ start) (s : Outs D) :
    chunkLoop env impl n bmax systems slot start s = (s, .ok ()) := by
  rw [chunkLoop, if_neg (by omega)]

/-- The systems from `start` on that go through the graph together. -/
def chunkAt (systems : List (ForceInput D)) (bmax start : ℕ) : List (ForceInput D) :=
  (systems.drop start).take bmax

theorem chunkLoop_step {start : ℕ} (h : start < systems.length) (hb : 0 < bmax) (s : Outs D) :
    chunkLoop env impl n bmax systems slot start s =
      match evalChunk env impl n bmax (chunkAt systems bmax start) with
      | .error e => (s, .error e)
      | .ok (energies, forces) =>
        chunkLoop env impl n bmax systems slot (start + bmax) (writeChunk n (slot + start)
          (chunkAt systems bmax start).length energies forces s) := by
  rw [chunkLoop, if_pos ⟨h, hb⟩]
  rfl

omit [Reals D] in
theorem length_chunkAt (systems : List (ForceInput D)) (bmax start : ℕ) :
    (chunkAt systems bmax start).length = min bmax (systems.length - start) := by
  rw [chunkAt, List.length_take, List.length_drop]

omit [Reals D] in
theorem chunkAt_ne_nil {start : ℕ} (h : start < systems.length) (hb : 0 < bmax) :
    chunkAt systems bmax start ≠ [] := by
  rw [← List.length_pos_iff, length_chunkAt]
  omega

omit [Reals D] in
theorem chunkAt_getElem? (systems : List (ForceInput D)) (start : ℕ) {b : ℕ} (h : b < bmax) :
    (chunkAt systems bmax start)[b]? = systems[start + b]? := by
  rw [chunkAt, List.getElem?_take_of_lt h, List.getElem?_drop]

omit [Reals D] in
theorem uniform_chunkAt (hu : Uniform n zs systems) (bmax start : ℕ) :
    Uniform n zs (chunkAt systems bmax start) :=
  fun input hmem => hu input (List.mem_of_mem_drop (List.mem_of_mem_take hmem))

/-- Every chunk from `start` on can be run. -/
def ChunksRun (env : Env D) (impl : Impl D) (systems : List (ForceInput D)) (bmax start : ℕ) : Prop :=
  ∀ j, start + j * bmax < systems.length → Runs env impl (chunkAt systems bmax (start + j * bmax))

omit [Reals D] in
/-- The chunks from `start` on are the one at `start` and those behind it. -/
theorem chunks_step {P : List (ForceInput D) → Prop} {size start : ℕ} (h : start < systems.length) :
    (∀ j, start + j * size < systems.length → P (chunkAt systems size (start + j * size))) ↔
      P (chunkAt systems size start) ∧ ∀ j, start + size + j * size < systems.length →
        P (chunkAt systems size (start + size + j * size)) := by
  constructor
  · intro hall
    refine ⟨by simpa using hall 0 (by omega), ?_⟩
    intro j hj
    have hnext : start + size + j * size = start + (j + 1) * size := by
      rw [Nat.succ_mul]
      omega
    rw [hnext] at hj ⊢
    exact hall (j + 1) hj
  · rintro ⟨hfirst, hrest⟩ j hj
    cases j with
    | zero => simpa using hfirst
    | succ j =>
      have hnext : start + (j + 1) * size = start + size + j * size := by
        rw [Nat.succ_mul]
        omega
      rw [hnext] at hj ⊢
      exact hrest j hj

theorem chunksRun_step {start : ℕ} (h : start < systems.length) :
    ChunksRun env impl systems bmax start ↔
      Runs env impl (chunkAt systems bmax start) ∧
        ChunksRun env impl systems bmax (start + bmax) :=
  chunks_step h

/-- The slots of the systems from `start` on after a run: each written once, with what the model gives
that system alone. -/
structure Written (env : Env D) (impl : Impl D) (energy : System D → D) (forces : System D → List D)
    (n : ℕ) (systems : List (ForceInput D)) (slot start : ℕ) (s s' : Outs D) : Prop where
  writes : s'.writes = s.writes ++ List.range' (slot + start) (systems.length - start)
  out : ∀ i input sys, start ≤ i → systems[i]? = some input → systemOf env impl input = .ok sys →
    s'.out (slot + i) =
      (s.out (slot + i)).filled (energy sys) (n * 3) fun k => (forces sys).getD k 0
  others : ∀ k, k < slot + start ∨ slot + systems.length ≤ k → s'.out k = s.out k

/-- A chunk's slots, and then those of the chunks behind it. -/
theorem written_step {start : ℕ} {energy : System D → D} {forces : System D → List D}
    {energies fs : List D} {s s' : Outs D} (h : start < systems.length)
    (hvalues : ∀ b (hb : b < (chunkAt systems bmax start).length) sys,
      systemOf env impl (chunkAt systems bmax start)[b] = .ok sys →
      energies.getD b 0 = energy sys ∧
      ∀ i < n * 3, fs.getD (b * n * 3 + i) 0 = (forces sys).getD i 0)
    (hrest : Written env impl energy forces n systems slot (start + bmax)
      (writeChunk n (slot + start) (chunkAt systems bmax start).length energies fs s) s') :
    Written env impl energy forces n systems slot start s s' := by
  have hlength := length_chunkAt systems bmax start
  obtain ⟨hwrites, hout⟩ :=
    writeChunk_eq n (slot + start) (chunkAt systems bmax start).length energies fs s
  constructor
  · rw [hrest.writes, hwrites, List.append_assoc]
    congr 1
    rcases Nat.le_total bmax (systems.length - start) with hle | hle
    · rw [hlength, Nat.min_eq_left hle, ← Nat.add_assoc]
      conv_rhs => rw [show systems.length - start = bmax + (systems.length - (start + bmax)) by omega]
      rw [← List.range'_append_1]
    · rw [hlength, Nat.min_eq_right hle, show systems.length - (start + bmax) = 0 by omega]
      exact List.append_nil _
  · intro i input sys hi hget hsys
    have hlt : i < systems.length := (List.getElem?_eq_some_iff.mp hget).1
    rcases Nat.lt_or_ge i (start + (chunkAt systems bmax start).length) with hin | hlater
    · have hb : i - start < (chunkAt systems bmax start).length := by omega
      have hchunk : (chunkAt systems bmax start)[i - start] = input := by
        have hopt := chunkAt_getElem? systems start
          (show i - start < bmax by omega)
        rw [List.getElem?_eq_getElem hb, Nat.add_sub_cancel' hi, hget] at hopt
        exact Option.some.inj hopt
      obtain ⟨henergy, hforces⟩ := hvalues (i - start) hb sys (by rw [hchunk]; exact hsys)
      rw [hrest.others _ (Or.inl (by omega)), hout, if_pos (by omega),
        show slot + i - (slot + start) = i - start by omega, henergy]
      unfold ForceOut.filled
      rw [fill_congr hforces]
    · have hnext : start + bmax ≤ i := by omega
      rw [hrest.out i input sys hnext hget hsys, hout, if_neg (by omega)]
  · intro k hk
    rw [hrest.others k (by omega), hout, if_neg (by omega)]

/-- The loop over the chunks ends well exactly when all of them can be run, and has then written every
slot. -/
theorem chunkLoop_run (model : BandModel env.run n bmax impl.config.charge impl.config.spin)
    (hb : 0 < bmax) (hu : Uniform n zs systems) (start : ℕ) (s : Outs D) :
    ((chunkLoop env impl n bmax systems slot start s).2 = .ok () ↔
      ChunksRun env impl systems bmax start) ∧
    (ChunksRun env impl systems bmax start →
      Written env impl model.energy model.forces n systems slot start s
        (chunkLoop env impl n bmax systems slot start s).1) := by
  induction hm : systems.length - start using Nat.strong_induction_on generalizing start s with
  | _ m ih =>
    rcases Nat.lt_or_ge start systems.length with hlt | hge
    · rw [chunkLoop_step hlt hb, chunksRun_step hlt]
      have hne := chunkAt_ne_nil hlt hb
      have hle : (chunkAt systems bmax start).length ≤ bmax := by
        rw [length_chunkAt]
        exact Nat.min_le_left _ _
      have huc := uniform_chunkAt hu bmax start
      by_cases hruns : Runs env impl (chunkAt systems bmax start)
      · obtain ⟨energies, forces, heval, hvalues⟩ := evalChunk_of_runs model hne hle huc hruns
        obtain ⟨hiff, hwritten⟩ := ih (systems.length - (start + bmax)) (by omega) (start + bmax)
          (writeChunk n (slot + start) (chunkAt systems bmax start).length energies forces s) rfl
        rw [heval]
        refine ⟨hiff.trans (and_iff_right hruns).symm, ?_⟩
        rintro ⟨-, hrest⟩
        exact written_step hlt hvalues (hwritten hrest)
      · cases heval : evalChunk env impl n bmax (chunkAt systems bmax start) with
        | error e =>
          refine ⟨iff_of_false ?_ fun h => hruns h.1, fun h => absurd h.1 hruns⟩
          intro h
          cases h
        | ok r => exact absurd (runs_of_evalChunk hne hle huc heval) hruns
    · rw [chunkLoop_done hge]
      have hall : ChunksRun env impl systems bmax start := by
        intro j hj
        omega
      refine ⟨iff_of_true rfl hall, fun _ => ⟨?_, ?_, fun _ _ => rfl⟩⟩
      · rw [Nat.sub_eq_zero_of_le hge]
        exact (List.append_nil _).symm
      · intro i input sys hi hget
        rw [List.getElem?_eq_none (by omega)] at hget
        cases hget

end Loop

section Band
variable {env : Env D} {impl : Impl D} {n : ℕ} {zs : List ℤ} {systems : List (ForceInput D)}

omit [Reals D] in
theorem uniform_iff (first : ForceInput D) :
    uniform first systems = true ↔ Uniform first.nAtoms first.atmnrs systems := by
  simp [uniform, Uniform]

omit [Reals D] in
theorem checkContract_congr {a b : ForceInput D} (h : a.atmnrs = b.atmnrs) :
    checkContract impl a = checkContract impl b := by
  rw [checkContract, checkContract, h]

/-- The package takes the composition, vesin has a list for every system, and no chunk of
`batch_max` systems is without edges. -/
structure Accepted (env : Env D) (impl : Impl D) (systems : List (ForceInput D)) : Prop where
  contract : ∀ input ∈ systems, checkContract impl input = .ok ()
  chunks : ChunksRun env impl systems impl.batch_max.toNat 0

theorem bandCall_run {first : ForceInput D} {rest : List (ForceInput D)}
    (hmax : 2 ≤ impl.batch_max) (hu : Uniform n zs (first :: rest))
    (model : BandModel env.run n impl.batch_max.toNat impl.config.charge impl.config.spin)
    (slot : ℕ) (s : Outs D) :
    ((bandCall env impl first (first :: rest) slot s).2 = .ok () ↔
      Accepted env impl (first :: rest)) ∧
    (Accepted env impl (first :: rest) →
      Written env impl model.energy model.forces n (first :: rest) slot 0 s
        (bandCall env impl first (first :: rest) slot s).1) := by
  obtain ⟨hn, hzs⟩ := hu first List.mem_cons_self
  have huniform : uniform first (first :: rest) = true := by
    rw [uniform_iff, hn, hzs]
    exact hu
  have hsame : ∀ input ∈ first :: rest, checkContract impl input = checkContract impl first :=
    fun input hinput => checkContract_congr ((hu input hinput).2.trans hzs.symm)
  rw [bandCall, if_neg (not_not.mpr huniform), hn]
  cases hcontract : checkContract impl first with
  | error e =>
    have hrefused : ¬ Accepted env impl (first :: rest) := by
      intro h
      have := h.contract first List.mem_cons_self
      rw [hcontract] at this
      cases this
    refine ⟨iff_of_false ?_ hrefused, fun h => absurd h hrefused⟩
    intro h
    cases h
  | ok _ =>
    have haccepted : Accepted env impl (first :: rest) ↔
        ChunksRun env impl (first :: rest) impl.batch_max.toNat 0 := by
      refine ⟨Accepted.chunks, fun h => ⟨?_, h⟩⟩
      intro input hinput
      rw [hsame input hinput, hcontract]
    rw [haccepted]
    exact chunkLoop_run model (by omega) hu 0 s

/-- Two results with the same energy, variance and forces. -/
def SameResult (n : ℕ) (a b : ForceOut D) : Prop :=
  a.energy = b.energy ∧ a.variance = b.variance ∧ ∀ k < n * 3, a.F k = b.F k

theorem sameResult_filled (a b : ForceOut D) (energy : D) (f : ℕ → D) :
    SameResult n (a.filled energy (n * 3) f) (b.filled energy (n * 3) f) := by
  refine ⟨rfl, rfl, ?_⟩
  intro k hk
  simp only [ForceOut.filled, fill_apply]
  rw [if_pos (by omega), if_pos (by omega)]

theorem accepted_built (hmax : 2 ≤ impl.batch_max) (h : Accepted env impl systems) {i : ℕ}
    {input : ForceInput D} (hget : systems[i]? = some input) :
    ∃ sys, systemOf env impl input = .ok sys := by
  have hb : 0 < impl.batch_max.toNat := by omega
  have hlt : i < systems.length := (List.getElem?_eq_some_iff.mp hget).1
  have hsplit := Nat.div_add_mod' i impl.batch_max.toNat
  have hmod := Nat.mod_lt i hb
  have hruns := h.chunks (i / impl.batch_max.toNat) (by omega)
  apply hruns.1
  apply List.mem_of_getElem? (i := i % impl.batch_max.toNat)
  rw [chunkAt_getElem? _ _ hmod, Nat.zero_add, hsplit, hget]

/-- The recursion ends for every package. A band package's batch of one composition goes through
exactly when the package takes it, vesin has a list for every system and no chunk is without edges;
each result is then written once, with what the model gives that system alone, and every run gets
each system's edges between its own atoms. -/
theorem forceBatchImpl_own_results (env : Env D) (impl : Impl D) (hload : env.load = .ok impl)
    (hmax : 2 ≤ impl.batch_max) (systems : List (ForceInput D)) (hne : systems ≠ [])
    (hu : Uniform n zs systems)
    (model : BandModel env.run n impl.batch_max.toNat impl.config.charge impl.config.spin) :
    (∀ (env : Env D) depth systems slot s, ∃ r, forceBatchImpl env (depth + 2) systems slot s = some r ∧
      forceBatchImpl env 2 systems slot s = some r) ∧
    (∀ (env : Env D) depth input slot s, ∃ r, forceImpl env (depth + 2) input slot s = some r ∧
      forceImpl env 2 input slot s = some r) ∧
    (∀ start inputs, start < systems.length →
      chunkInputs env impl n impl.batch_max.toNat (chunkAt systems impl.batch_max.toNat start) =
        .ok inputs →
      ∃ counts, counts.length = impl.batch_max.toNat ∧ EdgesInRange n inputs counts) ∧
    ∀ slot s, ∃ r, forceBatchImpl env 2 systems slot s = some r ∧
      (r.2 = .ok () ↔ Accepted env impl systems) ∧
      (Accepted env impl systems → Written env impl model.energy model.forces n systems slot 0 s r.1 ∧
        ∀ i input, systems[i]? = some input → ∀ slot' s' r', forceImpl env 2 input slot' s' = some r' →
          r'.2 = .ok () → SameResult n (r.1.out (slot + i)) (r'.1.out slot')) := by
  have hb : 0 < impl.batch_max.toNat := by omega
  refine ⟨fun env depth systems slot s => ⟨_, forceBatchImpl_eq depth systems slot s,
    forceBatchImpl_eq 0 systems slot s⟩, fun env depth input slot s =>
    ⟨_, forceImpl_eq depth input slot s, forceImpl_eq 0 input slot s⟩, ?_, ?_⟩
  · intro start inputs hstart hinputs
    refine chunkInputs_edgesInRange (chunkAt_ne_nil hstart hb) ?_ (uniform_chunkAt hu _ start) hinputs
    rw [length_chunkAt]
    exact Nat.min_le_left _ _
  · intro slot s
    obtain ⟨first, rest, rfl⟩ := List.exists_cons_of_ne_nil hne
    obtain ⟨hiff, hwritten⟩ := bandCall_run hmax hu model slot s
    refine ⟨_, forceBatchImpl_band hload (by omega) 1 first rest slot s, hiff, ?_⟩
    intro haccepted
    refine ⟨hwritten haccepted, ?_⟩
    intro i input hget slot' s' r' hcall hok
    have halone : r' = bandCall env impl input [input] slot' s' := by
      rw [forceImpl_eq 0, forceResult, hload] at hcall
      by_cases hn : input.nAtoms = 0
      · rw [if_pos hn] at hcall
        cases hcall
        cases hok
      · rw [if_neg hn] at hcall
        simp only [if_pos (show impl.batch_max > 1 by omega)] at hcall
        split at hcall
        · cases hcall
          cases hok
        · exact (Option.some.inj hcall).symm
    have hmem := List.mem_of_getElem? hget
    have huone : Uniform n zs [input] := by
      intro x hx
      rw [List.mem_singleton.mp hx]
      exact hu input hmem
    obtain ⟨hiffone, hwrittenone⟩ := bandCall_run hmax huone model slot' s'
    rw [halone] at hok ⊢
    obtain ⟨sys, hsys⟩ := accepted_built hmax haccepted hget
    rw [(hwritten haccepted).out i input sys (Nat.zero_le i) hget hsys]
    have hone := (hwrittenone (hiffone.mp hok)).out 0 input sys le_rfl rfl hsys
    rw [Nat.add_zero] at hone
    rw [hone]
    exact sameResult_filled _ _ _ _

end Band

section Samples

instance ratReals : Reals ℚ where
  positive x := decide (0 < x)
  isfinite _ := true

/-- What vesin reports: the two edges of a dimer of one Angstrom, none for any other system. -/
def samplePairs : (n : ℕ) → List (Row ℚ) → List (VesinPair n)
  | 2, [p, q] => if q 0 - p 0 = 1 then dimer else []
  | _, _ => []

/-- A package for bands of two, without a contract. -/
def sampleImpl : Impl ℚ := ⟨⟨[], 0, 1⟩, 6, 0, 300, 2, ⟨none, none, none, none, none, none⟩⟩

/-- A graph whose energies count edges. -/
def sampleEnv : Env ℚ where
  load := .ok sampleImpl
  vesin input _ := .ok (samplePairs input.nAtoms input.pos)
  sorts := favouring ⟨0, 0, 0, 0, 0, shortest⟩
  run inputs := .ok [(inputs.nedges.getD []).map fun c : ℤ => (c : ℚ),
    List.replicate (inputs.pos.length * 3) 0]
  empty := ⟨fun _ _ => 0, fun _ => 0, fun _ _ => 0, fun _ => 0, fun _ => 0, fun _ _ => 0, fun _ => 0, 0⟩

theorem flatMap_replicate {α β : Type} (l : List α) (f : α → ℕ) (x : β) :
    (l.flatMap fun a => List.replicate (f a) x) = List.replicate (l.map f).sum x := by
  induction l with
  | nil => rfl
  | cons a l ih =>
    rw [List.flatMap_cons, ih, List.map_cons, List.sum_cons, ← List.replicate_append_replicate]

def sampleModel (n bmax : ℕ) (charge spin : ℤ) : BandModel sampleEnv.run n bmax charge spin where
  energy s := s.edges.count
  forces s := List.replicate (s.pos.length * 3) 0
  length_forces s hs := by rw [List.length_replicate, hs]
  run_collate systems _ _ _ := by
    refine ⟨[], ?_⟩
    have hpos : (collate n systems charge spin).pos.length * 3 =
        (systems.map fun s => s.pos.length * 3).sum := by
      rw [collate, List.length_flatMap, List.sum_map_mul_right]
    have henergies : (systems.map fun s => (s.edges.count : ℤ)).map (fun c : ℤ => (c : ℚ)) =
        systems.map fun s => (s.edges.count : ℚ) := by
      rw [List.map_map]
      exact List.map_congr_left fun s _ => Int.cast_natCast _
    rw [flatMap_replicate, ← hpos]
    exact congrArg (fun e => Except.ok [e, _]) henergies

/-- Atoms on a line, in a wide cube. -/
def sampleAtoms (n : ℕ) (apart : ℚ) : ForceInput ℚ where
  nAtoms := n
  pos := (List.range n).map fun (i : ℕ) d => if d = 0 then (i : ℚ) * apart else 0
  atmnrs := List.replicate n 1
  box k := if (k : ℕ) % 4 = 0 then 20 else 0
  length_pos := by rw [List.length_map, List.length_range]
  length_atmnrs := List.length_replicate

def freshOuts : Outs ℚ := ⟨fun _ => ⟨fun _ => 0, 0, 0⟩, []⟩

theorem dimer_count (sorts : Sorts) : ∃ e, vesinFairchemEdges sorts (.ok dimer) 300 = .ok e ∧ e.count = 2 := by
  obtain ⟨e, he, hcount⟩ := vesinFairchemEdges_count (m := 300) (by decide) sorts dimer
  refine ⟨e, he, hcount.trans ?_⟩
  decide +kernel

theorem sample_no_edges {input : ForceInput ℚ} {s : System ℚ}
    (hvesin : sampleEnv.vesin input sampleImpl.cutoff = .ok [])
    (h : systemOf sampleEnv sampleImpl input = .ok s) : s.edges.count = 0 := by
  obtain ⟨e, he, hcount⟩ := vesinFairchemEdges_count (m := 300) (by decide) sampleEnv.sorts
    ([] : List (VesinPair input.nAtoms))
  have hedges : vesinFairchemEdges sampleEnv.sorts (sampleEnv.vesin input sampleImpl.cutoff)
      sampleImpl.max_neighbors = .ok e := hvesin ▸ he
  obtain rfl := Except.ok.inj ((systemOf_plain (by decide) hedges).symm.trans h)
  simpa [longPairs, resize] using hcount

/-- A dimer, two atoms out of each other's reach, and the dimer again: one chunk of the first two, and one of
the third and its copy. -/
def threePairs : List (ForceInput ℚ) := [sampleAtoms 2 1, sampleAtoms 2 10, sampleAtoms 2 1]

theorem threePairs_uniform : Uniform 2 [1, 1] threePairs := by
  intro input hinput
  simp only [threePairs, List.mem_cons, List.not_mem_nil, or_false] at hinput
  rcases hinput with rfl | rfl | rfl <;> exact ⟨rfl, rfl⟩

theorem near_runs : ∃ sys, systemOf sampleEnv sampleImpl (sampleAtoms 2 1) = .ok sys ∧ sys.edges.count = 2 := by
  obtain ⟨e, he, hcount⟩ := dimer_count sampleEnv.sorts
  have hvesin : sampleEnv.vesin (sampleAtoms 2 1) sampleImpl.cutoff = .ok dimer := by
    refine congrArg Except.ok (if_pos ?_)
    norm_num
  exact ⟨_, systemOf_plain (by decide) (hvesin ▸ he), hcount⟩

theorem far_runs : ∃ sys, systemOf sampleEnv sampleImpl (sampleAtoms 2 10) = .ok sys ∧ sys.edges.count = 0 := by
  obtain ⟨e, he, -⟩ := vesinFairchemEdges_count (m := 300) (by decide) sampleEnv.sorts ([] : List (VesinPair 2))
  have hvesin : sampleEnv.vesin (sampleAtoms 2 10) sampleImpl.cutoff = .ok [] := by
    refine congrArg Except.ok (if_neg ?_)
    norm_num
  have hsys : systemOf sampleEnv sampleImpl (sampleAtoms 2 10) = .ok _ :=
    systemOf_plain (by decide) (hvesin ▸ he)
  exact ⟨_, hsys, sample_no_edges hvesin hsys⟩

theorem threePairs_accepted : Accepted sampleEnv sampleImpl threePairs := by
  obtain ⟨near, hnear, hcount⟩ := near_runs
  obtain ⟨far, hfar, -⟩ := far_runs
  refine ⟨fun _ _ => rfl, fun j hj => ?_⟩
  have hbuilt : ∀ input ∈ threePairs, ∃ sys, systemOf sampleEnv sampleImpl input = .ok sys := by
    intro input hinput
    simp only [threePairs, List.mem_cons, List.not_mem_nil, or_false] at hinput
    rcases hinput with rfl | rfl | rfl
    · exact ⟨near, hnear⟩
    · exact ⟨far, hfar⟩
    · exact ⟨near, hnear⟩
  refine ⟨fun input hinput => hbuilt input (List.mem_of_mem_drop (List.mem_of_mem_take hinput)),
    sampleAtoms 2 1, ?_, near, hnear, by omega⟩
  have hchunk : j = 0 ∨ j = 1 := by
    have hlength : 0 + j * 2 < 3 := hj
    omega
  rcases hchunk with rfl | rfl <;> exact List.mem_cons_self

/-- Both chunks go through, and each slot is written once with the edges of its own system. -/
theorem own_results_three_pairs : Accepted sampleEnv sampleImpl threePairs ∧
    ∃ r, forceBatchImpl sampleEnv 2 threePairs 0 freshOuts = some r ∧ r.2 = .ok () ∧ r.1.writes = [0, 1, 2] ∧
      (r.1.out 0).energy = 2 ∧ (r.1.out 1).energy = 0 ∧ (r.1.out 2).energy = 2 := by
  obtain ⟨-, -, -, h⟩ := forceBatchImpl_own_results sampleEnv sampleImpl rfl (by decide) threePairs (by decide)
    threePairs_uniform (sampleModel 2 2 0 1)
  obtain ⟨r, hr, hiff, hwritten⟩ := h 0 freshOuts
  obtain ⟨hslots, -⟩ := hwritten threePairs_accepted
  obtain ⟨near, hnear, hnearCount⟩ := near_runs
  obtain ⟨far, hfar, hfarCount⟩ := far_runs
  have hfirst := hslots.out 0 _ near (by decide) rfl hnear
  have hsecond := hslots.out 1 _ far (by decide) rfl hfar
  have hthird := hslots.out 2 _ near (by decide) rfl hnear
  have henergy (sys : System ℚ) (out : ForceOut ℚ) : (out.filled ((sampleModel 2 2 0 1).energy sys) (2 * 3)
      fun k => ((sampleModel 2 2 0 1).forces sys).getD k 0).energy = sys.edges.count := rfl
  refine ⟨threePairs_accepted, r, hr, hiff.mpr threePairs_accepted, hslots.writes, ?_, ?_, ?_⟩
  · exact (congrArg ForceOut.energy hfirst).trans ((henergy near _).trans (by rw [hnearCount]; rfl))
  · exact (congrArg ForceOut.energy hsecond).trans ((henergy far _).trans (by rw [hfarCount]; rfl))
  · exact (congrArg ForceOut.energy hthird).trans ((henergy near _).trans (by rw [hnearCount]; rfl))

/-- A lone atom has no edges, and its batch is refused. -/
theorem not_own_results : ¬ ∀ (env : Env ℚ) (impl : Impl ℚ) (n : ℕ) (zs : List ℤ)
    (systems : List (ForceInput ℚ)), env.load = .ok impl → 2 ≤ impl.batch_max → systems ≠ [] →
    Uniform n zs systems →
    ∀ _ : BandModel env.run n impl.batch_max.toNat impl.config.charge impl.config.spin,
    ∀ slot s, ∃ r, forceBatchImpl env 2 systems slot s = some r ∧ r.2 = .ok () := by
  intro h
  let s : Outs ℚ := ⟨fun _ => ⟨fun _ => 0, 0, 0⟩, []⟩
  have hu : Uniform 1 [1] [sampleAtoms 1 0] := by
    intro input hinput
    obtain rfl := List.mem_singleton.mp hinput
    exact ⟨rfl, rfl⟩
  have hmax : 2 ≤ sampleImpl.batch_max := by decide
  obtain ⟨r, hr, hok⟩ := h sampleEnv sampleImpl 1 _ [sampleAtoms 1 0] rfl hmax
    (List.cons_ne_nil _ _) hu (sampleModel 1 2 0 1) 0 s
  have hrun : (bandCall sampleEnv sampleImpl (sampleAtoms 1 0) [sampleAtoms 1 0] 0 s).2 = .ok () ↔
      Accepted sampleEnv sampleImpl [sampleAtoms 1 0] :=
    (bandCall_run hmax hu (sampleModel 1 2 0 1) 0 s).1
  have hcall : forceBatchImpl sampleEnv 2 [sampleAtoms 1 0] 0 s =
      some (bandCall sampleEnv sampleImpl (sampleAtoms 1 0) [sampleAtoms 1 0] 0 s) :=
    forceBatchImpl_band rfl (by decide) 1 _ _ _ _
  obtain rfl := Option.some.inj (hcall.symm.trans hr)
  obtain ⟨-, input, hinput, sys, hsys, hcount⟩ := (hrun.mp hok).chunks 0 (by decide)
  have hlone : input = sampleAtoms 1 0 := List.mem_singleton.mp (List.mem_of_mem_drop
    (List.mem_of_mem_take hinput))
  rw [hlone] at hsys
  exact absurd (sample_no_edges rfl hsys) hcount.ne'

end Samples

end Rgpot.Uma
