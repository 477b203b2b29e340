import Rgpot.Lib.BoundedArray
import Rgpot.XcKernel.Response

/-! Stage B on arrays with an extent: it stays in bounds, and is the plain contraction over the grid. -/
namespace Rgpot.XcKernel
open RowMajor Finset

variable {K : Type} [Field K]

section Bounded
variable (npts nbf : ℕ) (U c V : Buffer K)

/-- `aw[t] = Ug[t] * c[g0 + t]`. -/
def scale_entry (nblk g0 u : ℕ) (aow : Buffer K) (t : ℕ) : Option (Buffer K) := do
  let x ← U.read (u * npts + g0 + t)
  let y ← c.read (g0 + t)
  aow.set (u * nblk + t) (x * y)

/-- `s += aw[t] * Vg[t]` over the tile, then `out[u * nb + v] += s`. -/
def add_entry (nblk g0 : ℕ) (aow : Buffer K) (u : ℕ) (out : Buffer K) (v : ℕ) : Option (Buffer K) := do
  let s ← forRange nblk 0 fun s t => do
    let x ← aow.read (u * nblk + t)
    let y ← V.read (v * npts + g0 + t)
    return s + x * y
  let o ← out.read (u * nbf + v)
  out.set (u * nbf + v) (o + s)

/-- A tile, each access checked. -/
def stage_b_tile_bounded (g0 : ℕ) (aow out : Buffer K) : Option (Buffer K × Buffer K) := do
  let nblk := min kPyscfBlk (npts - g0)
  let aow ← forRange nbf aow fun aow u => forRange nblk aow (scale_entry npts U c nblk g0 u)
  let out ← forRange nbf out fun out u => forRange nbf out (add_entry npts nbf V nblk g0 aow u)
  return (aow, out)

def blocked_stage_b_bounded_from (g0 : ℕ) (aow out : Buffer K) : Option (Buffer K) :=
  if g0 < npts then
    (stage_b_tile_bounded npts nbf U c V g0 aow out).bind fun tile =>
      blocked_stage_b_bounded_from (g0 + kPyscfBlk) tile.1 tile.2
  else some out
termination_by npts - g0
decreasing_by
  simp only [kPyscfBlk]
  omega

def blocked_stage_b_bounded (out : Buffer K) : Option (Buffer K) :=
  blocked_stage_b_bounded_from npts nbf U c V 0 ⟨nbf * kPyscfBlk, zeros⟩ out

end Bounded

section InBounds
variable {npts nbf nblk g0 u v t : ℕ} {U c V aow out : Buffer K}

theorem scale_entry_eq (hU : U.size = nbf * npts) (hc : c.size = npts) (hu : u < nbf)
    (hg : g0 + t < npts) : scale_entry npts U c nblk g0 u aow t =
      aow.set (u * nblk + t) (U.data (u * npts + g0 + t) * c.data (g0 + t)) := by
  have hrow := index_lt hu hg
  have hx : U.read (u * npts + g0 + t) = some (U.data (u * npts + g0 + t)) :=
    Buffer.read_of_lt (by omega)
  have hy : c.read (g0 + t) = some (c.data (g0 + t)) := Buffer.read_of_lt (by omega)
  rw [scale_entry, hx, hy]
  rfl

theorem add_entry_eq (haow : nbf * nblk ≤ aow.size) (hV : V.size = nbf * npts)
    (hout : out.size = nbf * nbf) (hu : u < nbf) (hv : v < nbf) (hg : g0 + nblk ≤ npts) :
    add_entry npts nbf V nblk g0 aow u out v = out.set (u * nbf + v) (out.data (u * nbf + v) +
      accumulate nblk fun t => aow.data (u * nblk + t) * V.data (v * npts + g0 + t)) := by
  have hsum : (forRange nblk 0 fun s t => do
      let x ← aow.read (u * nblk + t)
      let y ← V.read (v * npts + g0 + t)
      return s + x * y) =
      some (accumulate nblk fun t => aow.data (u * nblk + t) * V.data (v * npts + g0 + t)) := by
    apply forRange_accumulate
    intro t ht s
    have hscratch := index_lt hu ht
    have hrow := index_lt hv (show g0 + t < npts by omega)
    have hx : aow.read (u * nblk + t) = some (aow.data (u * nblk + t)) :=
      Buffer.read_of_lt (by omega)
    have hy : V.read (v * npts + g0 + t) = some (V.data (v * npts + g0 + t)) :=
      Buffer.read_of_lt (by omega)
    rw [hx, hy]
    rfl
  have hentry := index_lt hu hv
  have ho : out.read (u * nbf + v) = some (out.data (u * nbf + v)) := Buffer.read_of_lt (by omega)
  rw [add_entry, hsum, ho]
  rfl

variable (hU : U.size = nbf * npts) (hc : c.size = npts) (hV : V.size = nbf * npts)
include hU hc hV

/-- A tile stays in bounds. -/
theorem stage_b_tile_bounded_eq (haow : aow.size = nbf * kPyscfBlk) (hout : out.size = nbf * nbf)
    (hg0 : g0 < npts) : stage_b_tile_bounded npts nbf U c V g0 aow out =
      some (⟨aow.size, (stage_b_tile npts nbf U.data c.data V.data g0 aow.data out.data).1⟩,
        ⟨out.size, (stage_b_tile npts nbf U.data c.data V.data g0 aow.data out.data).2⟩) := by
  have hscratch : nbf * min kPyscfBlk (npts - g0) ≤ aow.size := by
    rw [haow]
    exact Nat.mul_le_mul_left nbf (Nat.min_le_left _ _)
  have hscale : (forRange nbf aow fun aow u =>
      forRange (min kPyscfBlk (npts - g0)) aow (scale_entry npts U c (min kPyscfBlk (npts - g0)) g0 u)) =
      some ⟨aow.size, (stage_b_tile npts nbf U.data c.data V.data g0 aow.data out.data).1⟩ := by
    refine forRange_fill (f := fun u t => U.data (u * npts + g0 + t) * c.data (g0 + t)) hscratch ?_
    intro u hu t ht aow' _ _
    exact scale_entry_eq hU hc hu (by omega)
  have hadd : ∀ aw : ℕ → K, (forRange nbf out fun b u => forRange nbf b
      (add_entry npts nbf V (min kPyscfBlk (npts - g0)) g0 ⟨aow.size, aw⟩ u)) =
      some ⟨out.size, fill 0 nbf nbf (fun u v => out.data (u * nbf + v) +
        accumulate (min kPyscfBlk (npts - g0)) fun t =>
          aw (u * min kPyscfBlk (npts - g0) + t) * V.data (v * npts + g0 + t)) out.data⟩ := by
    intro aw
    refine forRange_fill hout.ge ?_
    intro u hu v hv b hsize hold
    have haw : nbf * min kPyscfBlk (npts - g0) ≤ (⟨aow.size, aw⟩ : Buffer K).size := hscratch
    rw [add_entry_eq haw hV (hsize.trans hout) hu hv (by omega), hold]
  unfold stage_b_tile_bounded
  dsimp only
  rw [hscale, Option.bind_eq_bind, Option.bind_some, hadd]
  rfl

/-- The tiles stay in bounds, whatever the scratch holds. -/
theorem blocked_stage_b_bounded_from_eq (haow : aow.size = nbf * kPyscfBlk)
    (hout : out.size = nbf * nbf) : blocked_stage_b_bounded_from npts nbf U c V g0 aow out =
      some ⟨out.size, blocked_stage_b_from npts nbf U.data c.data V.data g0 aow.data out.data⟩ := by
  fun_induction blocked_stage_b_bounded_from npts nbf U c V g0 aow out with
  | case1 g0 aow out hlt ih =>
    rw [stage_b_tile_bounded_eq hU hc hV haow hout hlt, Option.bind_some, ih _ haow hout]
    conv_rhs => rw [blocked_stage_b_from, if_pos hlt]
  | case2 g0 aow out hge =>
    rw [blocked_stage_b_from, if_neg hge]

theorem blocked_stage_b_bounded_eq (hout : out.size = nbf * nbf) :
    blocked_stage_b_bounded npts nbf U c V out =
      some ⟨out.size, blocked_stage_b npts nbf U.data c.data V.data out.data⟩ :=
  blocked_stage_b_bounded_from_eq hU hc hV rfl hout

end InBounds

section Lda
variable (npts nbf : ℕ) (chi w rho v20 v21 out : Buffer K)

/-- The LDA branch of `contract_st_blocked`, each access checked. -/
def contract_st_lda_bounded : Option (Buffer K) := do
  let out ← forRange (nbf * nbf) out fun out l => out.set l 0
  let c ← forRange npts ⟨npts, zeros⟩ fun c g => do
    let x ← w.read g
    let y ← rho.read g
    let a ← v20.read g
    let b ← v21.read g
    c.set g (x * y * (a + b))
  blocked_stage_b_bounded npts nbf chi c chi out

variable {npts nbf chi w rho v20 v21 out}

theorem contract_st_lda_bounded_eq (hchi : chi.size = nbf * npts) (hw : w.size = npts)
    (hrho : rho.size = npts) (h20 : v20.size = npts) (h21 : v21.size = npts) (hout : out.size = nbf * nbf) :
    contract_st_lda_bounded npts nbf chi w rho v20 v21 out =
      some ⟨out.size, blocked_stage_b npts nbf chi.data
        (write 0 npts (fun g => w.data g * rho.data g * (v20.data g + v21.data g)) zeros) chi.data
        (write 0 (nbf * nbf) (fun _ => 0) out.data)⟩ := by
  have hzero : (forRange (nbf * nbf) out fun out l => out.set l 0) =
      some ⟨out.size, write 0 (nbf * nbf) (fun _ => 0) out.data⟩ := by
    refine forRange_write (by omega) ?_
    intro l hl b hb hrest
    rw [Nat.zero_add]
  have hweight : (forRange npts (⟨npts, zeros⟩ : Buffer K) fun c g => do
      let x ← w.read g
      let y ← rho.read g
      let a ← v20.read g
      let b ← v21.read g
      c.set g (x * y * (a + b))) =
      some ⟨npts, write 0 npts (fun g => w.data g * rho.data g * (v20.data g + v21.data g)) zeros⟩ := by
    refine forRange_write (Nat.zero_add npts).le ?_
    intro g hg b hb hrest
    rw [Nat.zero_add, Buffer.read_of_lt (by omega : g < w.size), Buffer.read_of_lt (by omega : g < rho.size),
      Buffer.read_of_lt (by omega : g < v20.size), Buffer.read_of_lt (by omega : g < v21.size)]
    rfl
  rw [contract_st_lda_bounded, hzero, Option.bind_eq_bind, Option.bind_some, hweight, Option.bind_some]
  exact blocked_stage_b_bounded_eq hchi rfl hchi hout

omit [Field K] in
/-- The four names of the kernel, looked up in their order. -/
theorem fill_scal_ptrs_of {fn} {scal : ScalMap K} {w rho v20 v21 : ℕ → K} (hw : scal "w" = some w)
    (hrho : scal "rho_a_p1" = some rho) (h20 : scal "v2rho2_0" = some v20)
    (h21 : scal "v2rho2_1" = some v21) :
    (xck_lda_st_o2_p fn).fill_scal_ptrs scal = .ok [w, rho, v20, v21] := by
  simp [fill_scal_ptrs, xck_lda_st_o2_p, hw, hrho, h20, h21]
  rfl

end Lda

/-- Stage B stays in bounds and adds the sum over all grid points to each entry, whatever `out` holds; the
LDA branch over it leaves the sum for the weights `w rho (v20 + v21)`. -/
theorem stage_b_exact (npts nbf : ℕ) :
    (∀ U c V out : ℕ → K, ∃ A, blocked_stage_b_bounded npts nbf ⟨nbf * npts, U⟩ ⟨npts, c⟩ ⟨nbf * npts, V⟩
        ⟨nbf * nbf, out⟩ = some ⟨nbf * nbf, A⟩ ∧ blocked_stage_b npts nbf U c V out = A ∧
      ∀ u < nbf, ∀ v < nbf, A (u * nbf + v) = out (u * nbf + v) +
        ∑ g ∈ range npts, U (u * npts + g) * c g * V (v * npts + g)) ∧
    ∀ (chi w rho v20 v21 out : ℕ → K), ∃ A, contract_st_lda_bounded npts nbf ⟨nbf * npts, chi⟩ ⟨npts, w⟩
        ⟨npts, rho⟩ ⟨npts, v20⟩ ⟨npts, v21⟩ ⟨nbf * nbf, out⟩ = some ⟨nbf * nbf, A⟩ ∧
      (∀ fn (grid : XcGrid K) (scal : ScalMap K), grid.npts = npts → grid.nbf = nbf →
        scal "w" = some w → scal "rho_a_p1" = some rho → scal "v2rho2_0" = some v20 →
        scal "v2rho2_1" = some v21 →
        (xck_lda_st_o2_p fn).contract_st_blocked grid chi scal out = .ok A) ∧
      ∀ u < nbf, ∀ v < nbf, A (u * nbf + v) = ∑ g ∈ range npts,
        chi (u * npts + g) * (w g * rho g * (v20 g + v21 g)) * chi (v * npts + g) := by
  constructor
  · intro U c V out
    exact ⟨_, blocked_stage_b_bounded_eq rfl rfl rfl rfl, rfl, fun u hu v hv => blocked_stage_b_apply hu hv⟩
  · intro chi w rho v20 v21 out
    refine ⟨_, contract_st_lda_bounded_eq rfl rfl rfl rfl rfl rfl, ?_, ?_⟩
    · rintro fn grid scal rfl rfl hw hrho h20 h21
      unfold contract_st_blocked
      rw [fill_scal_ptrs_of hw hrho h20 h21]
      rfl
    · intro u hu v hv
      rw [blocked_stage_b_apply hu hv, write_zero_apply (index_lt hu hv), zero_add]
      refine sum_congr rfl fun g hg => ?_
      rw [write_zero_apply (mem_range.mp hg)]

section Instances

/-- Fields that differ from one another and from point to point. -/
def distinctFields : ScalMap ℚ := fun name =>
  if name = "w" then some fun g => g + 1
  else if name = "rho_a_p1" then some fun g => g + 2
  else if name = "v2rho2_0" then some fun g => g + 3
  else if name = "v2rho2_1" then some fun g => g * g
  else none

/-- Three orbitals at two points: an entry off the diagonal of stage B on top of ones, and of the branch. -/
theorem stage_b_exact_two_points :
    (∃ A, blocked_stage_b_bounded 2 3 ⟨6, fun l => (l : ℚ)⟩ ⟨2, fun g => g + 1⟩ ⟨6, fun l => l * l⟩
        ⟨9, fun _ => 1⟩ = some ⟨9, A⟩ ∧ A 5 = 183) ∧
    ∃ A, contract_st_lda_bounded 2 3 ⟨6, fun l => (l : ℚ) + 1⟩ ⟨2, fun g => g + 1⟩ ⟨2, fun g => g + 2⟩
        ⟨2, fun g => g + 3⟩ ⟨2, fun g => g * g⟩ ⟨9, zeros⟩ = some ⟨9, A⟩ ∧
      (xck_lda_st_o2_p fun _ _ out => .ok out).contract_st_blocked twoPoints (fun l => (l : ℚ) + 1)
        distinctFields zeros = .ok A ∧ A 5 = 810 := by
  obtain ⟨hstage, hbranch⟩ := stage_b_exact (K := ℚ) 2 3
  obtain ⟨A, hA, -, hentry⟩ := hstage (fun l => l) (fun g => g + 1) (fun l => l * l) fun _ => 1
  obtain ⟨B, hB, hcall, hbranch⟩ := hbranch (fun l => (l : ℚ) + 1) (fun g => g + 1) (fun g => g + 2)
    (fun g => g + 3) (fun g => g * g) zeros
  refine ⟨⟨A, hA, ?_⟩, B, hB, hcall _ twoPoints distinctFields rfl rfl rfl rfl rfl rfl, ?_⟩
  · have h := hentry 1 (by decide) 2 (by decide)
    norm_num [sum_range_succ] at h
    exact h
  · have h := hbranch 1 (by decide) 2 (by decide)
    norm_num [sum_range_succ] at h
    exact h

end Instances

end Rgpot.XcKernel
