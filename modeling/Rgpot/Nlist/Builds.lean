import Rgpot.Nlist.Evaluation

/-! What a fresh or reused list of an orthorhombic box evaluates. -/
namespace Rgpot.Nlist
open Rounding CountingSort Lattice Fallible

section Records
variable {K : Type} [Field K] [LinearOrder K] [FloorRing K]

/-- The record of a pair with the folded `r_i - r_j`, as the kernel sees it. -/
def pairVisit (R : Positions K) (box : Box K) (opt : Options K) (p : ℕ × ℕ) : Visit K :=
  let d := foldDiag (foldWidth box) (foldInv box opt) (R p.1 - R p.2)
  ⟨p.1, p.2, d, sqNorm d⟩

/-- The records within the cutoff among the pairs that pass `t`. -/
def visitsOf (R : Positions K) (n : ℕ) (box : Box K) (opt : Options K) (t : ℕ → ℕ → Bool) :
    List (Visit K) :=
  ((listedPairs n t).map (pairVisit R box opt)).filter fun v => v.r2 ≤ opt.cutoff * opt.cutoff

/-- The squared folded distance of a pair. -/
def foldedR2 (R : Positions K) (box : Box K) (opt : Options K) (i j : ℕ) : K :=
  (pairVisit R box opt (i, j)).r2

/-- The test of a list built at `R` with list cutoff `c`. -/
def listedAt (R : Positions K) (box : Box K) (opt : Options K) (lc : ListCutoff K) (i j : ℕ) :
    Bool :=
  lc.admits (foldedR2 R box opt i j)

/-- The brute-force scan over `i < j`, as the kernel sees it. -/
def bruteForceCalls (R : Positions K) (n : ℕ) (box : Box K) (opt : Options K) : List (Visit K) :=
  (bruteForceVisitOnly R n (foldWidth box) (foldInv box opt) (opt.cutoff * opt.cutoff)).map flip

omit [FloorRing K] in
theorem foldInv_eq {box : Box K} {opt : Options K} {k : Fin 3} (h : foldInv box opt k ≠ 0) :
    foldInv box opt k = 1 / foldWidth box k := by
  unfold foldInv at h ⊢
  split
  · rfl
  · next hk => simp [hk] at h

theorem listedPairs_true (n : ℕ) : listedPairs n (fun _ _ => true) = ascendingPairs n := by
  simp [listedPairs]

/-- A list evaluates like the full scan unless it misses a pair within the cutoff. -/
theorem visitsOf_eq_iff {R : Positions K} {n : ℕ} {box : Box K} {opt : Options K}
    {t : ℕ → ℕ → Bool} : visitsOf R n box opt t = visitsOf R n box opt (fun _ _ => true) ↔
      ∀ i j, i < j → j < n → foldedR2 R box opt i j ≤ opt.cutoff * opt.cutoff → t i j = true := by
  constructor
  · intro h i j hij hj hr
    have hmem : pairVisit R box opt (i, j) ∈ visitsOf R n box opt (fun _ _ => true) := by
      rw [visitsOf, List.mem_filter, listedPairs_true]
      exact ⟨List.mem_map_of_mem (mem_ascendingPairs.mpr ⟨hij, hj⟩), decide_eq_true hr⟩
    rw [← h, visitsOf, List.mem_filter] at hmem
    obtain ⟨⟨a, b⟩, hab, he⟩ := List.mem_map.mp hmem.1
    obtain ⟨-, -, htab⟩ := mem_listedPairs.mp hab
    have hi : a = i := congrArg Visit.i he
    have hj : b = j := congrArg Visit.j he
    rwa [hi, hj] at htab
  · intro h
    unfold visitsOf listedPairs
    rw [List.filter_map, List.filter_map, List.filter_filter, List.filter_filter]
    congr 1
    apply List.filter_congr
    rintro ⟨i, j⟩ hp
    obtain ⟨hij, hj⟩ := mem_ascendingPairs.mp hp
    have := h i j hij hj
    simp only [Function.comp_apply, Bool.and_true]
    change (decide (foldedR2 R box opt i j ≤ _) && t i j) = decide (foldedR2 R box opt i j ≤ _)
    by_cases hr : foldedR2 R box opt i j ≤ opt.cutoff * opt.cutoff
    · simp [hr, this hr]
    · simp [hr]

variable [IsStrictOrderedRing K]

theorem flip_scanVisit (R : Positions K) (box : Box K) (opt : Options K) (p : ℕ × ℕ) :
    flip (scanVisit R (foldWidth box) (foldInv box opt) p) = pairVisit R box opt p := by
  have hd : foldDiag (foldWidth box) (foldInv box opt) (R p.1 - R p.2) =
      -foldDiag (foldWidth box) (foldInv box opt) (R p.2 - R p.1) := by
    rw [← foldDiag_neg, neg_sub]
  simp [flip, scanVisit, pairVisit, hd]

theorem bruteForceCalls_eq (R : Positions K) (n : ℕ) (box : Box K) (opt : Options K) :
    bruteForceCalls R n box opt = visitsOf R n box opt fun _ _ => true := by
  unfold bruteForceCalls bruteForceVisitOnly visitsOf
  rw [listedPairs_true, List.filter_map, List.filter_map, List.map_map]
  have hf : (flip ∘ scanVisit R (foldWidth box) (foldInv box opt)) = pairVisit R box opt :=
    funext fun p => flip_scanVisit R box opt p
  rw [hf]
  congr 1
  apply List.filter_congr
  intro p _
  simp only [Function.comp_apply, ← flip_scanVisit]
  rfl

/-- The test of a build is the one of its scan. -/
theorem listedAt_eq (R : Positions K) (box : Box K) (opt : Options K) (lc : ListCutoff K)
    (p : ℕ × ℕ) : listedAt R box opt lc p.1 p.2 =
      lc.admits (scanVisit R (foldWidth box) (foldInv box opt) p).r2 := by
  rw [listedAt, foldedR2, ← flip_scanVisit]
  rfl

theorem bruteForceVisit_list (R : Positions K) (n : ℕ) (box : Box K) (opt : Options K)
    (lc : ListCutoff K) (vc : K) :
    (bruteForceVisit R n (foldWidth box) (foldInv box opt) lc vc).1 =
      listedPairs n (listedAt R box opt lc) := by
  unfold bruteForceVisit listedPairs
  simp only
  rw [List.filter_map, List.map_map]
  have hid : ((fun v : Visit K => (v.i, v.j)) ∘
      scanVisit R (foldWidth box) (foldInv box opt)) = id := by
    funext p
    rfl
  rw [hid, List.map_id]
  apply List.filter_congr
  intro p _
  rw [listedAt_eq]
  rfl

end Records

section Build
variable {K : Type} [Field K] [LinearOrder K] [FloorRing K] [OutwardRoot K]
  [IsStrictOrderedRing K]
variable {R : Positions K} {n : ℕ} {box : Box K} {opt : Options K}

/-- What `setup` decides when no lattice search is needed. -/
def micSetup (n : ℕ) (box : Box K) (opt : Options K) : BoxSetup K :=
  ⟨false, MinimumImage.empty, isMic n box opt⟩

omit [IsStrictOrderedRing K] in
theorem setup_of_not_general (h : isGeneral box opt = false) :
    setup n box opt = .ok (micSetup n box opt) := by
  simp [setup, micSetup, h, bind, Except.bind, pure, Except.pure]

omit [IsStrictOrderedRing K] in
theorem setup_mic {s : BoxSetup K} (h : setup n box opt = .ok s) :
    s.mic = isMic n box opt := by
  unfold setup at h
  split at h
  · obtain ⟨generalImage, -, hs⟩ := Fallible.bind_eq_ok.mp h
    cases hs
    rfl
  · cases h
    rfl

omit [FloorRing K] [OutwardRoot K] [IsStrictOrderedRing K] in
theorem not_general_of_orthorhombic (h : orthorhombic box = true) : isGeneral box opt = false := by
  simp [isGeneral, h]

omit [OutwardRoot K] [IsStrictOrderedRing K] in
theorem orthorhombic_of_isMic (h : isMic n box opt = true) : orthorhombic box = true := by
  simp only [isMic, Bool.and_eq_true] at h
  exact h.1.1

/-- The pairs a build collects, from the grid or from the brute-force scan. -/
def scanPairs (R : Positions K) (n : ℕ) (box : Box K) (opt : Options K) (rl : K)
    (lc : ListCutoff K) (vc : K) : List (ℕ × ℕ) :=
  match gridFor (micSetup n box opt) R n box opt rl with
  | some g => (cellVisit g R (foldWidth box) (foldInv box opt) lc vc).1
  | none => (bruteForceVisit R n (foldWidth box) (foldInv box opt) lc vc).1

/-- The list a build makes of them. -/
def scanList (R : Positions K) (n : ℕ) (box : Box K) (opt : Options K) (rl : K)
    (lc : ListCutoff K) (vc : K) (codes : Bool) : CachedPairList K :=
  finishRebuild (micSetup n box opt) (scanPairs R n box opt rl lc vc) R n box opt
    (!(gridFor (micSetup n box opt) R n box opt rl).isSome) codes

omit [IsStrictOrderedRing K] in
theorem collect_eq_scan (R : Positions K) (n : ℕ) (box : Box K) (opt : Options K) (rl : K)
    (lc : ListCutoff K) (vc : K) :
    ∃ visits, collect (micSetup n box opt) R n box opt rl lc vc =
      .ok (scanPairs R n box opt rl lc vc, visits) := by
  unfold collect scanPairs
  rw [show (micSetup n box opt).general = false from rfl, if_neg (by simp)]
  cases gridFor (micSetup n box opt) R n box opt rl <;> exact ⟨_, rfl⟩

omit [IsStrictOrderedRing K] in
theorem buildForEval_eq_scan (hb : isGeneral box opt = false) : buildForEval R n box opt =
    .ok (scanList R n box opt opt.cutoff (.nextafter (opt.cutoff * opt.cutoff)) (-1) false) := by
  obtain ⟨visits, hv⟩ := collect_eq_scan R n box opt opt.cutoff
    (.nextafter (opt.cutoff * opt.cutoff)) (-1)
  unfold buildForEval
  rw [setup_of_not_general hb]
  simp only [bind, Except.bind, hv]
  rfl

omit [IsStrictOrderedRing K] in
theorem rebuild_eq_scan (hb : isGeneral box opt = false) : rebuild R n box opt =
    .ok (scanList R n box opt (opt.cutoff + opt.skin)
      (.below ((opt.cutoff + opt.skin) * (opt.cutoff + opt.skin))) (opt.cutoff * opt.cutoff)
      true) := by
  obtain ⟨visits, hv⟩ := collect_eq_scan R n box opt (opt.cutoff + opt.skin)
    (.below ((opt.cutoff + opt.skin) * (opt.cutoff + opt.skin))) (opt.cutoff * opt.cutoff)
  unfold rebuild rebuildFused
  rw [setup_of_not_general hb]
  simp only [bind, Except.bind, hv]
  rfl

section Scan
variable {lc : ListCutoff K} {vc rl : K} (hlc : ∀ r2, lc.admits r2 = true → r2 ≤ rl * rl)
include hlc

omit [OutwardRoot K] in
theorem scanPairs_perm :
    (scanPairs R n box opt rl lc vc).Perm (listedPairs n (listedAt R box opt lc)) := by
  unfold scanPairs
  cases hgrid : gridFor (micSetup n box opt) R n box opt rl with
  | none => rw [bruteForceVisit_list]
  | some g =>
    have hbuild : CellGrid.build R n (foldWidth box) (foldInv box opt) rl = some g := by
      unfold gridFor at hgrid
      split at hgrid
      · exact hgrid
      · cases hgrid
    rw [← bruteForceVisit_list R n box opt lc vc]
    exact (build_eq_some hbuild).cellVisit_list_perm (fun k hk => foldInv_eq hk) vc hlc

omit [OutwardRoot K] in
/-- Whichever scan a build uses, its rows hold the pairs within the list cutoff. -/
theorem scanList_lists (codes : Bool) :
    Lists (scanList R n box opt rl lc vc codes) n (listedAt R box opt lc) := by
  apply finishRebuild_lists (scanPairs_perm hlc)
  intro hnone
  rw [Bool.not_eq_true', Option.isSome_eq_false_iff, Option.isNone_iff_eq_none] at hnone
  rw [scanPairs, hnone]
  exact bruteForceVisit_list R n box opt lc vc

end Scan

end Build

section Loops
variable {ε α β : Type}

theorem filter_map_congr {f g : α → β} {q : β → Bool} {xs : List α}
    (h : ∀ x ∈ xs, q (f x) = true ∨ q (g x) = true → f x = g x) :
    (xs.map f).filter q = (xs.map g).filter q := by
  induction xs with
  | nil => rfl
  | cons x xs ih =>
    have hx := h x List.mem_cons_self
    rw [List.map_cons, List.map_cons, List.filter_cons, List.filter_cons,
      ih fun y hy => h y (List.mem_cons_of_mem _ hy)]
    cases hf : q (f x) <;> cases hg : q (g x) <;> simp_all

/-- The last write decides, when all writes to a place agree. -/
theorem foldl_update_of_agree {es : List α} (key val : α → ℕ) (init : ℕ → ℕ) {e : α}
    (he : e ∈ es) (h : ∀ e' ∈ es, key e' = key e → val e' = val e) :
    es.foldl (fun code e => Function.update code (key e) (val e)) init (key e) = val e := by
  induction es using List.reverseRecOn with
  | nil => cases he
  | append_singleton es x ih =>
    rw [List.foldl_append, List.foldl_cons, List.foldl_nil]
    by_cases hx : key x = key e
    · rw [← hx, Function.update_self]
      exact h x (by simp) hx
    · rw [Function.update_of_ne (Ne.symm hx)]
      rcases List.mem_append.mp he with he | he
      · exact ih he fun e' he' => h e' (List.mem_append_left _ he')
      · rw [List.mem_singleton.mp he] at hx
        exact (hx rfl).elim

end Loops

section Exact
variable {K : Type} [Field K] [LinearOrder K] [FloorRing K] [OutwardRoot K]
  [IsStrictOrderedRing K]
variable {l : CachedPairList K} {n : ℕ} {box : Box K} {opt : Options K} {t : ℕ → ℕ → Bool}

/-- The stamp that decides which slot serves a call. -/
structure Stamped (l : CachedPairList K) (R : Positions K) (n : ℕ) (box : Box K)
    (opt : Options K) : Prop where
  Rref_eq : l.Rref = R
  boxref_eq : l.boxref = box
  micInv_eq : l.micInv = foldInv box opt
  opt_eq : l.opt = opt
  n_eq : l.n = n
  mic_eq : l.mic = isMic n box opt
  built_eq : l.built = true

omit [IsStrictOrderedRing K] in
theorem forEach_of_candidate (h : Lists l n t) {R : Positions K} {g : ℕ × ℕ → Visit K}
    (hg : ∀ e ∈ entries l.rows l.n, l.candidate R e = .ok (g (e.1, l.nbr e.2))) :
    l.forEach R = .ok (((listedPairs n t).map g).filter
      fun v => v.r2 ≤ l.opt.cutoff * l.opt.cutoff) := by
  unfold CachedPairList.forEach
  rw [mapM_eq_ok hg, ← h.entries_map, List.map_map]
  rfl

/-- With a per-call fold, or none, a list evaluates its pairs as the scan does. -/
theorem forEach_of_exact {R₀ : Positions K} (h : Lists l n t) (hs : Stamped l R₀ n box opt)
    (hfold : l.fold = .round ∨ l.fold = .none ∧ ∀ k, l.micInv k = 0) (R : Positions K) :
    l.forEach R = .ok (visitsOf R n box opt t) := by
  rw [forEach_of_candidate h (g := pairVisit R box opt)]
  · rw [hs.opt_eq]
    rfl
  · rintro ⟨i, p⟩ -
    have happly : l.apply R i p =
        .ok (foldDiag (foldWidth box) (foldInv box opt) (R i - R (l.nbr p))) := by
      unfold CachedPairList.apply
      rcases hfold with hf | ⟨hf, h0⟩
      · simp only [hf, hs.boxref_eq, hs.micInv_eq]
      · simp only [hf]
        congr 1
        funext k
        rw [foldDiag, ← hs.micInv_eq, h0 k, foldAxis_zero_inv]
    simp only [CachedPairList.candidate, happly, bind, Except.bind, pure, Except.pure]
    rfl

end Exact

section Coded
variable {K : Type} [Field K] [LinearOrder K] [FloorRing K] [OutwardRoot K]
  [IsStrictOrderedRing K]

omit [LinearOrder K] [FloorRing K] [OutwardRoot K] [IsStrictOrderedRing K] in
theorem imageShift_eq {box : Box K} {m : Fin 3 → ℤ} {c : ℕ} (h : imageCode m = some c)
    (k : Fin 3) : imageShift box c k = m k * box k k := by
  unfold imageCode at h
  split at h
  · cases h
  · next hm =>
    push Not at hm
    have h0 := hm 0
    have h1 := hm 1
    have h2 := hm 2
    have hc := Option.some.inj h
    fin_cases k
    · have he : ((c % 3 : ℕ) - 1 : ℤ) = m 0 := by omega
      simp only [imageShift, Fin.zero_eta, Matrix.cons_val_zero, he]
    · have he : ((c / 3 % 3 : ℕ) - 1 : ℤ) = m 1 := by omega
      simp only [imageShift, Fin.mk_one, Matrix.cons_val_one, Matrix.cons_val_zero, he]
    · have he : ((c / 9 : ℕ) - 1 : ℤ) = m 2 := by omega
      simp only [imageShift, Fin.reduceFinMk, Matrix.cons_val, he]

/-- The record of a pair with the image it had at the build. -/
def codedVisit (R R₀ : Positions K) (box : Box K) (opt : Options K) (p : ℕ × ℕ) : Visit K :=
  let d : Vec3 K := fun k =>
    (R p.1 - R p.2) k - foldWidth box k * imageQuotient R₀ (foldInv box opt) p.1 p.2 k
  ⟨p.1, p.2, d, sqNorm d⟩

variable {l : CachedPairList K} {n : ℕ} {t : ℕ → ℕ → Bool}

omit [Field K] [LinearOrder K] [FloorRing K] [OutwardRoot K] [IsStrictOrderedRing K] in
theorem entries_row_unique (h : Lists l n t) {e e' : ℕ × ℕ} (he : e ∈ entries l.rows l.n)
    (he' : e' ∈ entries l.rows l.n) (hp : e'.2 = e.2) : e' = e := by
  obtain ⟨i, p⟩ := e
  obtain ⟨i', p'⟩ := e'
  simp only [entries, h.n_eq, List.mem_flatMap, List.mem_range, List.mem_map, List.mem_range'_1,
    Prod.mk.injEq] at he he'
  obtain ⟨i, hi, p, hp1, rfl, rfl⟩ := he
  obtain ⟨i', hi', p', hp2, rfl, rfl⟩ := he'
  simp only at hp
  subst hp
  have hii : i' = i := by
    rcases Nat.lt_trichotomy i' i with hlt | he | hgt
    · have := h.mono (show i' + 1 ≤ i from hlt) hi.le
      omega
    · exact he
    · have := h.mono (show i + 1 ≤ i' from hgt) hi'.le
      omega
  rw [hii]

omit [OutwardRoot K] [IsStrictOrderedRing K] in
/-- When the loops use codes, every candidate's code holds its image at the build, and the
list cutoff is below half of each folded width. -/
theorem buildImageCodes_coded (h : Lists l n t) (hc : (buildImageCodes l).fold = .coded) :
    l.complete = false ∧
    (∀ k, l.micInv k ≠ 0 → l.opt.cutoff + l.opt.skin < 1 / 2 * l.boxref k k) ∧
    ∀ e ∈ entries l.rows l.n, ∀ k, (buildImageCodes l).shift ((buildImageCodes l).code e.2) k =
      l.boxref k k * imageQuotient l.Rref l.micInv e.1 (l.nbr e.2) k := by
  unfold buildImageCodes at hc ⊢
  simp only at hc ⊢
  split at hc
  · cases hc
  next h0 =>
  split at hc
  · cases hc
  next hcomp =>
  split at hc
  · cases hc
  next hreach =>
  split at hc
  swap
  · cases hc
  next hall =>
  rw [if_neg h0, if_neg hcomp, if_neg hreach, if_pos hall]
  push Not at hreach
  refine ⟨by simpa using hcomp, hreach, ?_⟩
  intro e he k
  simp only
  have hagree := foldl_update_of_agree Prod.snd
    (fun e => (imageCode (imageQuotient l.Rref l.micInv e.1 (l.nbr e.2))).getD 0) (fun _ => 0) he
    fun e' he' hk => by rw [entries_row_unique h he he' hk]
  rw [hagree]
  rw [List.all_eq_true] at hall
  obtain ⟨c, hcode⟩ := Option.isSome_iff_exists.mp (hall e he)
  rw [hcode, Option.getD_some, imageShift_eq hcode, mul_comm]

omit [IsStrictOrderedRing K] in
/-- With codes, a candidate's separation is taken at the image it had at the build. -/
theorem apply_of_coded {l₀ : CachedPairList K} {R₀ : Positions K} {box : Box K}
    {opt : Options K} (h : Lists (buildImageCodes l₀) n t)
    (hs : Stamped (buildImageCodes l₀) R₀ n box opt)
    (hc : (buildImageCodes l₀).fold = .coded) (R : Positions K) {e : ℕ × ℕ}
    (he : e ∈ entries (buildImageCodes l₀).rows (buildImageCodes l₀).n) :
    (buildImageCodes l₀).apply R e.1 e.2 =
      .ok (codedVisit R R₀ box opt (e.1, (buildImageCodes l₀).nbr e.2)).d := by
  obtain ⟨code, shift, fold, hframe⟩ := buildImageCodes_frame l₀
  have hnbr : (buildImageCodes l₀).nbr = l₀.nbr := by rw [hframe]
  have hl₀ : Lists l₀ n t := by
    have := h
    rw [hframe] at this
    exact ⟨this.n_eq, this.row_eq, this.mono⟩
  have he₀ : e ∈ entries l₀.rows l₀.n := by
    rw [hframe] at he
    exact he
  obtain ⟨-, -, hshift⟩ := buildImageCodes_coded hl₀ hc
  have hd : (R e.1 - R (l₀.nbr e.2)) -
      (buildImageCodes l₀).shift ((buildImageCodes l₀).code e.2) =
        (codedVisit R R₀ box opt (e.1, l₀.nbr e.2)).d := by
    funext k
    have href : l₀.Rref = R₀ := by
      rw [← hs.Rref_eq, hframe]
    have hbox : l₀.boxref = box := by
      rw [← hs.boxref_eq, hframe]
    have hinv : l₀.micInv = foldInv box opt := by
      rw [← hs.micInv_eq, hframe]
    rw [Pi.sub_apply, hshift e he₀ k, href, hbox, hinv]
    rfl
  simp only [CachedPairList.apply, hc, hnbr]
  rw [hd]

omit [IsStrictOrderedRing K] in
/-- With codes, a list evaluates each pair at the image it had at the build. -/
theorem forEach_of_coded {l₀ : CachedPairList K} {R₀ : Positions K} {box : Box K}
    {opt : Options K} (h : Lists (buildImageCodes l₀) n t)
    (hs : Stamped (buildImageCodes l₀) R₀ n box opt)
    (hc : (buildImageCodes l₀).fold = .coded) (R : Positions K) :
    (buildImageCodes l₀).forEach R = .ok (((listedPairs n t).map (codedVisit R R₀ box opt)).filter
      fun v => v.r2 ≤ opt.cutoff * opt.cutoff) := by
  rw [forEach_of_candidate h (g := codedVisit R R₀ box opt), hs.opt_eq]
  intro e he
  simp only [CachedPairList.candidate, apply_of_coded h hs hc R he, bind, Except.bind, pure,
    Except.pure]
  rfl

end Coded

section Verlet
variable {K : Type} [Field K] [LinearOrder K] [FloorRing K] [IsStrictOrderedRing K]
variable {R R₀ : Positions K} {box : Box K} {opt : Options K}

/-- No atom has moved further than half the skin. -/
def Within (R R₀ : Positions K) (n : ℕ) (opt : Options K) : Prop :=
  ∀ a < n, sqNorm (R a - R₀ a) ≤ 1 / 4 * opt.skin * opt.skin

/-- Two atoms that moved by half a skin each changed their separation by a skin at most. -/
theorem Within.separation {n i j : ℕ} (h : Within R R₀ n opt) (hs : 0 ≤ opt.skin) (hi : i < n)
    (hj : j < n) : normSq ((R i - R j) - (R₀ i - R₀ j)) ≤ opt.skin * opt.skin := by
  have half : ∀ a < n, normSq (R a - R₀ a) ≤ (opt.skin / 2) * (opt.skin / 2) := by
    intro a ha
    have := h a ha
    rw [sqNorm_eq_normSq] at this
    linarith
  have hneg : normSq (-(R j - R₀ j)) ≤ (opt.skin / 2) * (opt.skin / 2) := by
    rw [normSq_neg]
    exact half j hj
  have hsum := normSq_add_le (by positivity) (by positivity) (half i hi) hneg
  have he : (R i - R₀ i) + -(R j - R₀ j) = (R i - R j) - (R₀ i - R₀ j) := by abel
  rw [he] at hsum
  linarith

omit [IsStrictOrderedRing K] in
/-- Folding along each axis gives one of the images. -/
theorem foldDiag_apply (w inv d : Vec3 K) (k : Fin 3) :
    foldDiag w inv d k = d k - w k * (halfAway (d k * inv k) : K) := rfl

/-- Within the cutoff, the image recorded at the build is the one folded now. -/
theorem coded_eq_folded {n i j : ℕ} (h : Within R R₀ n opt) (hc : 0 ≤ opt.cutoff)
    (hs : 0 ≤ opt.skin) (hi : i < n) (hj : j < n)
    (hreach : ∀ k, foldInv box opt k ≠ 0 → opt.cutoff + opt.skin < 1 / 2 * box k k)
    (hr : (codedVisit R R₀ box opt (i, j)).r2 ≤ opt.cutoff * opt.cutoff ∨
      (pairVisit R box opt (i, j)).r2 ≤ opt.cutoff * opt.cutoff) :
    codedVisit R R₀ box opt (i, j) = pairVisit R box opt (i, j) := by
  suffices hd : (codedVisit R R₀ box opt (i, j)).d = (pairVisit R box opt (i, j)).d by
    simp only [codedVisit, pairVisit] at hd ⊢
    rw [hd]
  have hwidth : ∀ k, foldInv box opt k ≠ 0 → 0 < foldWidth box k := by
    intro k hk
    have := hreach k hk
    simp only [foldWidth]
    linarith
  funext k
  by_cases hk : foldInv box opt k = 0
  · simp only [codedVisit, pairVisit, foldDiag_apply, imageQuotient, hk, mul_zero]
  · have hrk := hreach k hk
    have hinv := foldInv_eq hk
    rcases hr with hr | hr
    · -- the recorded image is within the cutoff, so it is the nearest one
      have hcoded : normSq (codedVisit R R₀ box opt (i, j)).d ≤ opt.cutoff * opt.cutoff := by
        rw [← sqNorm_eq_normSq]
        exact hr
      have hb := abs_le_of_normSq_le hc hcoded k
      simp only [codedVisit, pairVisit, foldDiag] at hb ⊢
      rw [hinv, foldAxis_eq_of_abs_lt (hwidth k hk) (m := imageQuotient R₀ (foldInv box opt) i j k)]
      simp only [foldWidth] at hb ⊢
      linarith
    · -- the image of now, at the build, was still within cutoff + skin
      have hsep := h.separation hs hi hj
      have hnow : normSq (pairVisit R box opt (i, j)).d ≤ opt.cutoff * opt.cutoff := by
        rw [← sqNorm_eq_normSq]
        exact hr
      have hneg : normSq (-((R i - R j) - (R₀ i - R₀ j))) ≤ opt.skin * opt.skin := by
        rw [normSq_neg]
        exact hsep
      have hb := abs_le_of_normSq_le (add_nonneg hc hs) (normSq_add_le hc hs hnow hneg) k
      set m := halfAway ((R i - R j) k * foldInv box opt k) with hm
      have hval : ((pairVisit R box opt (i, j)).d + -((R i - R j) - (R₀ i - R₀ j))) k =
          (R₀ i - R₀ j) k - foldWidth box k * m := by
        simp only [pairVisit, Pi.add_apply, Pi.neg_apply, Pi.sub_apply, foldDiag_apply] at hm ⊢
        rw [← hm]
        ring
      rw [hval] at hb
      have hfold : foldAxis (foldWidth box k) (1 / foldWidth box k) ((R₀ i - R₀ j) k) =
          (R₀ i - R₀ j) k - foldWidth box k * m := by
        apply foldAxis_eq_of_abs_lt (hwidth k hk)
        simp only [foldWidth] at hb ⊢
        linarith
      rw [← hinv] at hfold
      simp only [codedVisit, pairVisit, foldDiag_apply, imageQuotient] at hfold ⊢
      rw [← hm]
      simp only [foldAxis, Pi.sub_apply] at hfold
      linarith

/-- The axes `fold_params` folds. -/
def foldAxes (box : Box K) (opt : Options K) (k : Fin 3) : Bool :=
  opt.periodic k && decide (box k k ≠ 0)

theorem foldDiag_isNearest (box : Box K) (opt : Options K) (d : Vec3 K) :
    IsNearest (Matrix.diagonal (foldWidth box)) (foldAxes box opt) d
      (foldDiag (foldWidth box) (foldInv box opt) d) := by
  apply isNearest_foldAxis
  · intro k
    simp [foldInv, foldAxes, foldWidth]
  · intro k hk
    simp only [foldAxes, Bool.and_eq_true, decide_eq_true_eq] at hk
    exact hk.2

omit [IsStrictOrderedRing K] in
theorem foldedR2_eq (R : Positions K) (box : Box K) (opt : Options K) (i j : ℕ) :
    foldedR2 R box opt i j =
      normSq (foldDiag (foldWidth box) (foldInv box opt) (R i - R j)) := by
  rw [← sqNorm_eq_normSq]
  rfl

/-- The folded separation of now, less the change of the separation, is an image of the
separation at the build. -/
theorem foldedR2_le_normSq_add (i j : ℕ) : foldedR2 R₀ box opt i j ≤
    normSq (foldDiag (foldWidth box) (foldInv box opt) (R i - R j) +
      -((R i - R j) - (R₀ i - R₀ j))) := by
  obtain ⟨m, hm, hv⟩ := (foldDiag_isNearest box opt (R i - R j)).is_image
  have he : foldDiag (foldWidth box) (foldInv box opt) (R i - R j) +
      -((R i - R j) - (R₀ i - R₀ j)) =
        image (Matrix.diagonal (foldWidth box)) (R₀ i - R₀ j) m := by
    rw [hv]
    simp only [image]
    abel
  rw [he, foldedR2_eq]
  exact (foldDiag_isNearest box opt (R₀ i - R₀ j)).le_image m hm

/-- A pair within the cutoff now was within cutoff + skin at the build. -/
theorem Within.foldedR2_le {n i j : ℕ} (h : Within R R₀ n opt) (hc : 0 ≤ opt.cutoff)
    (hs : 0 ≤ opt.skin) (hi : i < n) (hj : j < n)
    (hr : foldedR2 R box opt i j ≤ opt.cutoff * opt.cutoff) :
    foldedR2 R₀ box opt i j ≤ (opt.cutoff + opt.skin) * (opt.cutoff + opt.skin) := by
  have hsep := h.separation hs hi hj
  rw [← normSq_neg] at hsep
  rw [foldedR2_eq] at hr
  exact (foldedR2_le_normSq_add i j).trans (normSq_add_le hc hs hr hsep)

/-- A pair strictly within the cutoff now was strictly within cutoff + skin at the build. -/
theorem Within.foldedR2_lt {n i j : ℕ} (h : Within R R₀ n opt) (hc : 0 ≤ opt.cutoff)
    (hs : 0 < opt.skin) (hi : i < n) (hj : j < n)
    (hr : foldedR2 R box opt i j < opt.cutoff * opt.cutoff) :
    foldedR2 R₀ box opt i j < (opt.cutoff + opt.skin) * (opt.cutoff + opt.skin) := by
  have hsep := h.separation hs.le hi hj
  rw [← normSq_neg] at hsep
  rw [foldedR2_eq] at hr
  exact (foldedR2_le_normSq_add i j).trans_lt (normSq_add_lt hc hs hr hsep)

end Verlet
end Rgpot.Nlist
