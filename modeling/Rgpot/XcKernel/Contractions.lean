import Rgpot.Lib.Numerals
import Rgpot.Lib.RowMajor

/-! The contractions behind the TDA and RPA sigma vectors: one AO kernel, four einsum paths. -/
namespace Rgpot
open RowMajor

/-- `none` is a null pointer. -/
structure XcGrid (K : Type) where
  npts : ℕ
  nbf : ℕ
  chi : Option (ℕ → K)
  dchi : Option (ℕ → K)
  lapl_chi : Option (ℕ → K)
  hess_chi : Option (ℕ → K)

/-- `Co` is (nao, nocc), `Cv` is (nao, nvir), `e_ia` is (nocc, nvir). -/
structure XcMo (K : Type) where
  nao : ℕ
  nocc : ℕ
  nvir : ℕ
  Co : Option (ℕ → K)
  Cv : Option (ℕ → K)
  e_ia : Option (ℕ → K)

/-- `fn` is the generated contraction: its nonzero code, or what it leaves in `out`. -/
structure XcKernel (K : Type) where
  name : String
  scalNames : List String
  nFields : ℕ
  fn : XcGrid K → List (ℕ → K) → (ℕ → K) → Except ℕ (ℕ → K)

/-- The named scalar fields; a name is absent or null, or has its array. -/
abbrev ScalMap (K : Type) := String → Option (ℕ → K)

namespace XcKernel
variable {K : Type} [Field K]

/-- The ABI of the singlet LDA kernel. -/
def xck_lda_st_o2_p (fn : XcGrid K → List (ℕ → K) → (ℕ → K) → Except ℕ (ℕ → K)) : XcKernel K :=
  ⟨"xck_lda_st_o2_p", ["w", "rho_a_p1", "v2rho2_0", "v2rho2_1"], 2, fn⟩

section Collocation
variable (dm ao left right : ℕ → K) (nbf npts : ℕ)

def zeros : ℕ → K := fun _ => 0

/-- `dm.T @ ao`. -/
def gemm_dmt_ao : ℕ → K :=
  fill 0 nbf npts (fun u g => accumulate nbf fun v => dm (v * nbf + u) * ao (v * npts + g)) zeros

/-- `dm @ ao`. -/
def gemm_dm_ao : ℕ → K :=
  fill 0 nbf npts (fun u g => accumulate nbf fun v => dm (u * nbf + v) * ao (v * npts + g)) zeros

def contract_rho (rho : ℕ → K) : ℕ → K :=
  write 0 npts (fun g => accumulate nbf fun u => left (u * npts + g) * right (u * npts + g)) rho

def add_contract_rho (rho : ℕ → K) : ℕ → K :=
  write 0 npts
    (fun g => rho g + accumulate nbf fun u => left (u * npts + g) * right (u * npts + g)) rho

end Collocation

section StageB
variable (npts nbf : ℕ) (U c V : ℕ → K)

def kPyscfBlk : ℕ := 128

/-- The tile of the grid that starts at `g0`, on the scratch of the tile before; the rows of `aow` are `nblk`
wide. -/
def stage_b_tile (g0 : ℕ) (aow out : ℕ → K) : (ℕ → K) × (ℕ → K) :=
  let nblk := min kPyscfBlk (npts - g0)
  let aow := fill 0 nbf nblk (fun u t => U (u * npts + g0 + t) * c (g0 + t)) aow
  (aow, fill 0 nbf nbf
    (fun u v => out (u * nbf + v) +
      accumulate nblk fun t => aow (u * nblk + t) * V (v * npts + g0 + t)) out)

def blocked_stage_b_from (g0 : ℕ) (aow out : ℕ → K) : ℕ → K :=
  if g0 < npts then
    let tile := stage_b_tile npts nbf U c V g0 aow out
    blocked_stage_b_from (g0 + kPyscfBlk) tile.1 tile.2
  else out
termination_by npts - g0
decreasing_by
  simp only [kPyscfBlk]
  omega

def blocked_stage_b (out : ℕ → K) : ℕ → K := blocked_stage_b_from npts nbf U c V 0 zeros out

end StageB

variable (k : XcKernel K) (grid : XcGrid K)

def fill_scal_ptrs (scal : ScalMap K) : Except ℕ (List (ℕ → K)) :=
  k.scalNames.mapM fun name =>
    match scal name with
    | some p => .ok p
    | none => .error 3

def contract (scal : ScalMap K) (out : ℕ → K) : Except ℕ (ℕ → K) :=
  if grid.npts = 0 ∨ grid.nbf = 0 ∨ grid.chi = none ∨
      (grid.dchi = none ∧ ¬ "xck_lda_".isPrefixOf k.name) then .error 2
  else if "xck_mgga_lapl_".isPrefixOf k.name ∧ grid.lapl_chi = none then .error 2
  else do
    let ptrs ← k.fill_scal_ptrs scal
    k.fn grid ptrs out

/-- `chi` is the grid's, which the caller has found not to be null. -/
def contract_st_blocked (chi : ℕ → K) (scal : ScalMap K) (out : ℕ → K) : Except ℕ (ℕ → K) := do
  let ptrs ← k.fill_scal_ptrs scal
  let out := write 0 (grid.nbf * grid.nbf) (fun _ => 0) out
  if k.name = "xck_lda_st_o2_p" then
    let fields := fun i => ptrs.getD i zeros
    let xc := fun i => ptrs.getD (k.nFields + i) zeros
    let c := write 0 grid.npts (fun g => fields 0 g * fields 1 g * (xc 0 g + xc 1 g)) zeros
    return blocked_stage_b grid.npts grid.nbf chi c chi out
  else k.contract grid scal out

/-- `ground` with the perturbed fields under the kernel's names for them. -/
def perturbed (ground : ScalMap K) (rho_p1 gxd gyd gzd : ℕ → K) : ScalMap K :=
  k.scalNames.foldl
    (fun scal name =>
      if name = "rho_a_p1" ∨ name = "rho_p1" then Function.update scal name (some rho_p1)
      else if name = "grad_rho_a_p1_x" ∨ name = "grad_rho_p1_x" then
        Function.update scal name (some gxd)
      else if name = "grad_rho_a_p1_y" ∨ name = "grad_rho_p1_y" then
        Function.update scal name (some gyd)
      else if name = "grad_rho_a_p1_z" ∨ name = "grad_rho_p1_z" then
        Function.update scal name (some gzd)
      else scal) ground

/-- A component of the perturbed gradient, zero without the derivatives of the orbitals. -/
def perturbed_gradient (c0 c1 : ℕ → K) (axis : ℕ) : ℕ → K :=
  match grid.dchi with
  | none => zeros
  | some dchi =>
    let d := fun i => dchi (axis * grid.nbf * grid.npts + i)
    add_contract_rho c1 d grid.nbf grid.npts (contract_rho c0 d grid.nbf grid.npts zeros)

/-- `applyFxc`. -/
def apply_fxc_d (ground : ScalMap K) (dm vxc : ℕ → K) : Except ℕ (ℕ → K) :=
  match grid.chi with
  | none => .error 2
  | some chi =>
    if grid.npts = 0 ∨ grid.nbf = 0 then .error 2
    else
      let c0 := gemm_dmt_ao dm chi grid.nbf grid.npts
      let c1 := gemm_dm_ao dm chi grid.nbf grid.npts
      let rho_p1 := contract_rho chi c0 grid.nbf grid.npts zeros
      let gradient := perturbed_gradient grid c0 c1
      let scal := k.perturbed ground rho_p1 (gradient 0) (gradient 1) (gradient 2)
      k.contract_st_blocked grid chi scal vxc

section Transition
variable (mo : XcMo K)

/-- 'qo,ov->vq' then 'vq,pv->pq'. -/
def transitionDm (z : ℕ → K) (occ : K) (dm : ℕ → K) : ℕ → K :=
  let dm := write 0 (mo.nao * mo.nao) (fun _ => 0) dm
  match mo.Co, mo.Cv with
  | some Co, some Cv =>
    let tmp := fill 0 mo.nvir mo.nao
      (fun a q => accumulate mo.nocc fun i =>
        (occ * Co (q * mo.nocc + i)) * z (i * mo.nvir + a)) zeros
    fill 0 mo.nao mo.nao
      (fun p q => accumulate mo.nvir fun a => tmp (a * mo.nao + q) * Cv (p * mo.nvir + a)) dm
  | _, _ => dm

/-- 'po,ov->vp' then 'vp,qv->pq', on top of `transitionDm`. -/
def rpaTransitionDm (x y : ℕ → K) (occ : K) (dm : ℕ → K) : ℕ → K :=
  let dm := transitionDm mo x occ dm
  match mo.Co, mo.Cv with
  | some Co, some Cv =>
    let tmp := fill 0 mo.nvir mo.nao
      (fun a p => accumulate mo.nocc fun i =>
        (occ * Co (p * mo.nocc + i)) * y (i * mo.nvir + a)) zeros
    fill 0 mo.nao mo.nao
      (fun p q => dm (p * mo.nao + q) +
        accumulate mo.nvir fun a => tmp (a * mo.nao + p) * Cv (q * mo.nvir + a)) dm
  | _, _ => dm

/-- 'pv,pq->vq' then 'vq,qo->ov'. -/
def projectOv (Vao ov : ℕ → K) : ℕ → K :=
  let ov := write 0 (mo.nocc * mo.nvir) (fun _ => 0) ov
  match mo.Co, mo.Cv with
  | some Co, some Cv =>
    let tmp := fill 0 mo.nvir mo.nao
      (fun a q => accumulate mo.nao fun p => Cv (p * mo.nvir + a) * Vao (p * mo.nao + q)) zeros
    fill 0 mo.nocc mo.nvir
      (fun i a => accumulate mo.nao fun q => tmp (a * mo.nao + q) * Co (q * mo.nocc + i)) ov
  | _, _ => ov

/-- `(A z)_ia` from the AO matrix `v1`. -/
def tdaSigma (z v1 sigma : ℕ → K) : ℕ → K :=
  let sigma := projectOv mo v1 sigma
  match mo.e_ia with
  | some e_ia =>
    fill 0 mo.nocc mo.nvir
      (fun i a => sigma (i * mo.nvir + a) + e_ia (i * mo.nvir + a) * z (i * mo.nvir + a)) sigma
  | none => sigma

/-- `[[A,B],[-B,-A]](X,Y)`; 'qv,pq->vp' then 'vp,po->ov' below. -/
def rpaSigma (xy v1 sigma : ℕ → K) : ℕ → K :=
  let nov := mo.nocc * mo.nvir
  let sigma := tdaSigma mo xy v1 sigma
  match mo.Co, mo.Cv, mo.e_ia with
  | some Co, some Cv, some e_ia =>
    let y := fun l => xy (nov + l)
    let tmp := fill 0 mo.nvir mo.nao
      (fun a p => accumulate mo.nao fun q => Cv (q * mo.nvir + a) * v1 (p * mo.nao + q)) zeros
    fill nov mo.nocc mo.nvir
      (fun i a => -(e_ia (i * mo.nvir + a) * y (i * mo.nvir + a) +
        accumulate mo.nao fun p => tmp (a * mo.nao + p) * Co (p * mo.nocc + i))) sigma
  | _, _, _ => sigma

/-- `vj + 0.5 * vxc`. -/
def mixed (vj vxc : ℕ → K) : ℕ → K :=
  write 0 (mo.nao * mo.nao) (fun l => vj l + 1 / 2 * vxc l) zeros

/-- `tdaSigma` with host Coulomb. -/
def gridTdaSigma (ground : ScalMap K) (z vj sigma : ℕ → K) : Except ℕ (ℕ → K) :=
  if mo.nao = 0 then .error 4
  else do
    let vxc ← k.apply_fxc_d grid ground (transitionDm mo z 2 zeros) zeros
    return tdaSigma mo z (mixed mo vj vxc) sigma

/-- `rpaSigma` with host Coulomb. -/
def gridRpaSigma (ground : ScalMap K) (xy vj sigma : ℕ → K) : Except ℕ (ℕ → K) :=
  if mo.nao = 0 then .error 4
  else do
    let y := fun l => xy (mo.nocc * mo.nvir + l)
    let vxc ← k.apply_fxc_d grid ground (rpaTransitionDm mo xy y 2 zeros) zeros
    return rpaSigma mo xy (mixed mo vj vxc) sigma

end Transition

end XcKernel
end Rgpot
