import Rgpot.Metatomic.Rotations

/-! `MetatomicPot::forceImpl`: the passes over orientations, and what they add up to. -/
namespace Rgpot.Metatomic

variable {K : Type} [Field K] {n m : ℕ}

/-- A tensor of `n` rows of three. -/
abbrev Rows (K : Type) (n : ℕ) := Fin n → Fin 3 → K

/-- The members of the configuration that set the passes up. -/
structure MetatomicConfig where
  random_rotation : Bool := false
  n_symmetry_rotations : ℤ := 0
  so3_probe_scatter : Bool := false

/-- What the loaded model answers for positions and cell: the energy of `forward`, and the gradient
of the positions after `backward`. -/
structure Model (K : Type) (n : ℕ) where
  energy : Rows K n → Rows K 3 → K
  grad : Rows K n → Rows K 3 → Rows K n

/-- `a.matmul(b)`. -/
def matmul (a : Rows K n) (b : Rows K 3) : Rows K n := fun i j => ∑ k, a i k * b k j

/-- `R.transpose(0, 1)`. -/
def transpose (R : Rows K 3) : Rows K 3 := fun i j => R j i

/-- `pos.mean(0)`. -/
def centroid (pos : Rows K n) : Fin 3 → K := fun k => (∑ i, pos i k) / n

/-- `(pos - centroid).matmul(R.transpose(0, 1)) + centroid`. -/
def about (R : Rows K 3) (pos : Rows K n) : Rows K n := fun i k =>
  matmul (fun j l => pos j l - centroid pos l) (transpose R) i k + centroid pos k

/-- `R.to(dtype)`. -/
def toRows (R : Matrix (Fin 3) (Fin 3) ℤ) : Rows K 3 := fun i j => (R i j : K)

def identity : Rows K 3 := fun i j => if i = j then 1 else 0

/-- The accumulators of the loop. -/
structure Accumulated (K : Type) (n : ℕ) where
  energy : K
  forces : Rows K n

namespace MetatomicConfig
variable (c : MetatomicConfig)

def use_rotation : Bool := c.random_rotation || 0 < c.n_symmetry_rotations

def probe_scatter : Bool := c.so3_probe_scatter && 0 < c.n_symmetry_rotations

def group_rots : List (Matrix (Fin 3) (Fin 3) ℤ) :=
  if 12 ≤ c.n_symmetry_rotations then rotation_group c.n_symmetry_rotations else []

def n_rot_passes : ℕ :=
  if c.group_rots ≠ [] then c.group_rots.length
  else if 0 < c.n_symmetry_rotations then c.n_symmetry_rotations.toNat else 1

def n_passes : ℕ := if c.probe_scatter then c.n_rot_passes + 1 else c.n_rot_passes

def identity_pass (i_pass : ℕ) : Bool := c.probe_scatter && i_pass = 0

/-- `R` of the pass; `random_so3` is the orientation drawn for a seed. -/
def rotation (random_so3 : ℕ → Rows K 3) (i_pass : ℕ) : Rows K 3 :=
  if c.use_rotation && !c.identity_pass i_pass then
    let i_rot := if c.probe_scatter then i_pass - 1 else i_pass
    if c.group_rots ≠ [] then toRows (c.group_rots.getD i_rot 1)
    else random_so3 (0x50333A5EED + i_rot)
  else identity

end MetatomicConfig

section ForceImpl
variable (random_so3 : ℕ → Rows K 3) (c : MetatomicConfig) (model : Model K n)
variable (pos : Rows K n) (box : Rows K 3)

/-- The body of the loop over the passes. -/
def pass (acc : Accumulated K n) (i_pass : ℕ) : Accumulated K n :=
  let R := c.rotation random_so3 i_pass
  let rotated := c.use_rotation && !c.identity_pass i_pass
  let pos := if rotated then about R pos else pos
  let cell := if rotated then matmul box (transpose R) else box
  let e_pass := model.energy pos cell
  let forces := fun i k => -model.grad pos cell i k
  let forces := if c.use_rotation then matmul forces R else forces
  if c.identity_pass i_pass then ⟨e_pass, forces⟩
  else if c.probe_scatter then acc
  else ⟨acc.energy + e_pass, fun i k => acc.forces i k + forces i k⟩

def inv_n : K := if c.probe_scatter then 1 else 1 / c.n_passes

/-- The energy and the forces of `out`. -/
def forceImpl : Accumulated K n :=
  let acc := (List.range c.n_passes).foldl (pass random_so3 c model pos box) ⟨0, fun _ _ => 0⟩
  ⟨acc.energy * inv_n c, fun i k => acc.forces i k * inv_n c⟩

end ForceImpl

section Orbit
variable (model : Model K n) (pos : Rows K n) (box : Rows K 3)

/-- The energy of one orientation. -/
def orientedEnergy (R : Matrix (Fin 3) (Fin 3) ℤ) : K :=
  model.energy (about (toRows R) pos) (matmul box (transpose (toRows R)))

/-- The forces of one orientation, rotated back. -/
def orientedForces (R : Matrix (Fin 3) (Fin 3) ℤ) : Rows K n :=
  matmul
    (fun i k => -model.grad (about (toRows R) pos) (matmul box (transpose (toRows R))) i k)
    (toRows R)

variable {random_so3 : ℕ → Rows K 3} {c : MetatomicConfig}

/-- The matrices in the order of the passes. -/
theorem map_getD_range {α : Type} (L : List α) (d : α) :
    (List.range L.length).map (fun i => L.getD i d) = L := by
  refine List.ext_getElem (by simp) fun i hi hi' => ?_
  rw [List.getElem_map, List.getElem_range, List.getD_eq_getElem _ _ hi']

theorem foldl_orientations (L : List (Matrix (Fin 3) (Fin 3) ℤ)) (acc : Accumulated K n) :
    L.foldl (fun acc R => ⟨acc.energy + orientedEnergy model pos box R,
        fun i k => acc.forces i k + orientedForces model pos box R i k⟩) acc =
      ⟨acc.energy + (L.map (orientedEnergy model pos box)).sum,
        fun i k => acc.forces i k + (L.map fun R => orientedForces model pos box R i k).sum⟩ := by
  induction L generalizing acc with
  | nil => simp
  | cons R L ih =>
    rw [List.foldl_cons, ih]
    simp only [List.map_cons, List.sum_cons, add_assoc]

/-- A request that reaches a group size averages over the whole orbit, without probe scatter. -/
theorem forceImpl_of_group (hn : 12 ≤ c.n_symmetry_rotations) (hprobe : c.so3_probe_scatter = false) :
    forceImpl random_so3 c model pos box =
      ⟨((rotation_group c.n_symmetry_rotations).map (orientedEnergy model pos box)).sum *
          (1 / (rotation_group c.n_symmetry_rotations).length),
        fun i k => ((rotation_group c.n_symmetry_rotations).map
          fun R => orientedForces model pos box R i k).sum *
          (1 / (rotation_group c.n_symmetry_rotations).length)⟩ := by
  have hpos : 0 < c.n_symmetry_rotations := by omega
  have hgroup : c.group_rots = rotation_group c.n_symmetry_rotations := if_pos hn
  have hne : c.group_rots ≠ [] := by
    rw [hgroup]
    exact rotation_group_ne_nil _
  have hscatter : c.probe_scatter = false := by simp [MetatomicConfig.probe_scatter, hprobe]
  have huse : c.use_rotation = true := by simp [MetatomicConfig.use_rotation, hpos]
  have hpasses : c.n_passes = c.group_rots.length := by
    rw [MetatomicConfig.n_passes, hscatter, MetatomicConfig.n_rot_passes, if_pos hne]
    rfl
  have hpass : ∀ (acc : Accumulated K n) i, pass random_so3 c model pos box acc i =
      ⟨acc.energy + orientedEnergy model pos box (c.group_rots.getD i 1),
        fun j k => acc.forces j k + orientedForces model pos box (c.group_rots.getD i 1) j k⟩ := by
    intro acc i
    simp [pass, MetatomicConfig.rotation, MetatomicConfig.identity_pass, huse, hscatter, hne,
      orientedEnergy, orientedForces]
  have hfold : (List.range c.n_passes).foldl (pass random_so3 c model pos box)
      ⟨0, fun _ _ => 0⟩ = c.group_rots.foldl
        (fun acc R => ⟨acc.energy + orientedEnergy model pos box R,
          fun i k => acc.forces i k + orientedForces model pos box R i k⟩) ⟨0, fun _ _ => 0⟩ := by
    conv_rhs => rw [← map_getD_range c.group_rots 1]
    rw [List.foldl_map, hpasses]
    exact congrArg (fun f => List.foldl f _ _) (funext fun acc => funext fun i => hpass acc i)
  have hinv : (inv_n c : K) = 1 / (rotation_group c.n_symmetry_rotations).length := by
    simp [inv_n, hscatter, hpasses, hgroup]
  simp only [forceImpl]
  rw [hfold, foldl_orientations, hinv, hgroup]
  simp only [zero_add]

end Orbit

end Rgpot.Metatomic
