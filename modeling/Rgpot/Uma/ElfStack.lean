import Rgpot.Uma.AotiExecstack

/-! What the patcher does to one library: the executable bits of its stack headers go, and nothing else. -/
namespace Rgpot.AotiExecstack
open ByteBuffer Words

section Spec

/-- `phoff`, `phentsize` and `phnum` of a file that the checks accept. -/
def programHeaders (d : List UInt8) : Option (ℕ × ℕ × ℕ) :=
  if d.length < 64 ∨ d.take 4 ≠ [0x7f, 0x45, 0x4c, 0x46] ∨ word 1 d 4 ≠ 2 ∨ word 1 d 5 ≠ 1 ∨
    word 2 d 54 < 8 ∨ word 2 d 56 = 0 then none
  else some (word 8 d 32, word 2 d 54, word 2 d 56)

/-- The headers of kind `PT_GNU_STACK` among some of them. -/
def stackAmong (d : List UInt8) (offs : List ℕ) : List ℕ :=
  offs.filter fun off => off + 8 ≤ d.length ∧ word 4 d off = kPtGnuStack

/-- Where the stack headers of a file are. -/
def stackHeaders (d : List UInt8) : List ℕ :=
  match programHeaders d with
  | none => []
  | some (phoff, phentsize, phnum) => stackAmong d ((List.range' 0 phnum).map fun i => phoff + i * phentsize)

/-- Whether the first of some headers is executable. -/
def firstExecutable (d : List UInt8) : List ℕ → Bool
  | [] => false
  | off :: _ => word 4 d (off + 4) &&& kPfX ≠ 0

/-- The scan goes by the first stack header, and does not look at the others. -/
def needsClear (d : List UInt8) : Bool := firstExecutable d (stackHeaders d)

/-- The flags of one header without `PF_X`. -/
def clearFlag (d : List UInt8) (off : ℕ) : List UInt8 :=
  patch d (off + 4) (leBytes 4 (word 4 d (off + 4) &&& (2 ^ 32 - 1 - kPfX)))

def clearedElf (d : List UInt8) : List UInt8 := (stackHeaders d).foldl clearFlag d

/-- The table of program headers lies behind the ELF header, and its end is an address. -/
def TableBehind (d : List UInt8) : Prop :=
  ∀ phoff phentsize phnum, programHeaders d = some (phoff, phentsize, phnum) →
    64 ≤ phoff ∧ phoff + phnum * phentsize + 8 < 2 ^ 64

end Spec


section Flags
variable {d : List UInt8} {off off' w k phoff phentsize i j : ℕ}

theorem header_lt (hsize : 8 ≤ phentsize) (h : i < j) : phoff + i * phentsize + 8 ≤ phoff + j * phentsize := by
  have hmul := Nat.mul_le_mul_right phentsize (Nat.succ_le_of_lt h)
  rw [Nat.succ_mul] at hmul
  omega

/-- `flags & ~PF_X`. -/
theorem and_not_pfX {flags : ℕ} (h : flags < 2 ^ 32) :
    flags &&& (2 ^ 32 - 1 - kPfX) = flags - flags % 2 := by
  have hmask : 2 ^ 32 - 1 - kPfX = 2 * (2 ^ 31 - 1) := by decide
  have hclear : flags - flags % 2 = 2 * (flags / 2) := by omega
  rw [hmask, hclear]
  refine Nat.eq_of_testBit_eq fun b => ?_
  cases b with
  | zero => simp [Nat.testBit_zero]
  | succ b =>
    rw [Nat.testBit_and, Nat.testBit_succ, Nat.testBit_succ, Nat.testBit_succ,
      Nat.mul_div_cancel_left _ (by decide), Nat.mul_div_cancel_left _ (by decide), Nat.testBit_two_pow_sub_one]
    by_cases hb : b < 31
    · simp [hb]
    · have hlow : (flags / 2).testBit b = false := by
        refine Nat.testBit_lt_two_pow ?_
        have hpow : 2 ^ 31 ≤ 2 ^ b := Nat.pow_le_pow_right (by decide) (by omega)
        omega
      simp [hlow]

theorem and_pfX (flags : ℕ) : flags &&& kPfX = flags % 2 := Nat.and_one_is_mod flags

theorem length_clearFlag (h : off + 8 ≤ d.length) : (clearFlag d off).length = d.length :=
  length_patch (by rw [length_leBytes]; omega)

/-- A header without the bit stays as it is. -/
theorem clearFlag_of_even (h : off + 8 ≤ d.length) (heven : word 4 d (off + 4) &&& kPfX = 0) :
    clearFlag d off = d := by
  have hlt := word_lt 4 d (off + 4)
  rw [and_pfX] at heven
  rw [clearFlag, and_not_pfX hlt, heven, Nat.sub_zero, patch_word (by omega)]

theorem word_clearFlag (h : off + 8 ≤ d.length) (hk : k + w ≤ off + 4 ∨ off + 8 ≤ k) :
    word w (clearFlag d off) k = word w d k := by
  rw [clearFlag, word_patch_of_disjoint]
  · rw [length_leBytes]
    omega
  · rw [length_leBytes]
    omega

theorem even_clearFlag (h : off + 8 ≤ d.length) : word 4 (clearFlag d off) (off + 4) &&& kPfX = 0 := by
  have hlt := word_lt 4 d (off + 4)
  set flags := word 4 d (off + 4) - word 4 d (off + 4) % 2 with hflags
  have hself : word (leBytes 4 flags).length (patch d (off + 4) (leBytes 4 flags)) (off + 4) = _ :=
    word_patch_self (by rw [length_leBytes]; omega)
  rw [length_leBytes, ofLeBytes_leBytes (by omega)] at hself
  rw [clearFlag, and_not_pfX hlt, hself, and_pfX]
  omega

/-- The bit of one header stays cleared while others are cleared, itself again included. -/
theorem even_clearFlag_of_even (h : off + 8 ≤ d.length) (hne : off = off' ∨ off + 8 ≤ off' ∨ off' + 8 ≤ off)
    (heven : word 4 d (off' + 4) &&& kPfX = 0) : word 4 (clearFlag d off) (off' + 4) &&& kPfX = 0 := by
  rcases hne with rfl | hne
  · exact even_clearFlag h
  · rwa [word_clearFlag h (by omega)]

section Fold
variable {offs : List ℕ}

theorem length_foldl_clearFlag (h : ∀ off ∈ offs, off + 8 ≤ d.length) :
    (offs.foldl clearFlag d).length = d.length := by
  induction offs generalizing d with
  | nil => rfl
  | cons off offs ih =>
    have hlength := length_clearFlag (h off List.mem_cons_self)
    rw [List.foldl_cons, ih (fun o ho => hlength.symm ▸ h o (List.mem_cons_of_mem _ ho)), hlength]

theorem word_foldl_clearFlag (h : ∀ off ∈ offs, off + 8 ≤ d.length)
    (hk : ∀ off ∈ offs, k + w ≤ off + 4 ∨ off + 8 ≤ k) : word w (offs.foldl clearFlag d) k = word w d k := by
  induction offs generalizing d with
  | nil => rfl
  | cons off offs ih =>
    have hoff := h off List.mem_cons_self
    have hlength := length_clearFlag hoff
    rw [List.foldl_cons, ih (fun o ho => hlength.symm ▸ h o (List.mem_cons_of_mem _ ho))
      fun o ho => hk o (List.mem_cons_of_mem _ ho), word_clearFlag hoff (hk off List.mem_cons_self)]

theorem take_foldl_clearFlag (h : ∀ off ∈ offs, off + 8 ≤ d.length) (hk : ∀ off ∈ offs, k ≤ off + 4) :
    (offs.foldl clearFlag d).take k = d.take k := by
  induction offs generalizing d with
  | nil => rfl
  | cons off offs ih =>
    have hoff := h off List.mem_cons_self
    have hlength := length_clearFlag hoff
    rw [List.foldl_cons, ih (fun o ho => hlength.symm ▸ h o (List.mem_cons_of_mem _ ho))
      fun o ho => hk o (List.mem_cons_of_mem _ ho), clearFlag, take_patch (by omega) (hk off List.mem_cons_self)]

theorem even_foldl_clearFlag (h : ∀ off ∈ offs, off + 8 ≤ d.length)
    (hne : ∀ off ∈ offs, off = off' ∨ off + 8 ≤ off' ∨ off' + 8 ≤ off)
    (hoff' : off' ∈ offs ∨ word 4 d (off' + 4) &&& kPfX = 0) :
    word 4 (offs.foldl clearFlag d) (off' + 4) &&& kPfX = 0 := by
  induction offs generalizing d with
  | nil => exact hoff'.resolve_left List.not_mem_nil
  | cons off offs ih =>
    have hoff := h off List.mem_cons_self
    have hlength := length_clearFlag hoff
    refine ih (fun o ho => hlength.symm ▸ h o (List.mem_cons_of_mem _ ho))
      (fun o ho => hne o (List.mem_cons_of_mem _ ho)) ?_
    rcases hoff' with hmem | heven
    · rcases List.mem_cons.mp hmem with rfl | hmem
      · exact Or.inr (even_clearFlag hoff)
      · exact Or.inl hmem
    · exact Or.inr (even_clearFlag_of_even hoff (hne off List.mem_cons_self) heven)

end Fold

theorem mem_stackAmong {offs : List ℕ} : off ∈ stackAmong d offs ↔
    off ∈ offs ∧ off + 8 ≤ d.length ∧ word 4 d off = kPtGnuStack := by
  rw [stackAmong, List.mem_filter, decide_eq_true_eq]

theorem stackAmong_cons (d : List UInt8) (off : ℕ) (offs : List ℕ) : stackAmong d (off :: offs) =
    if off + 8 ≤ d.length ∧ word 4 d off = kPtGnuStack then off :: stackAmong d offs else stackAmong d offs := by
  rw [stackAmong, List.filter_cons]
  exact if_congr decide_eq_true_iff rfl rfl

theorem programHeaders_inv {phnum : ℕ} (h : programHeaders d = some (phoff, phentsize, phnum)) :
    8 ≤ phentsize := by
  rw [programHeaders] at h
  split at h
  · cases h
  · rename_i hchecks
    push Not at hchecks
    cases h
    exact hchecks.2.2.2.2.1

/-- What the patcher and the loader read of a header is the first 64 bytes. -/
theorem programHeaders_congr {d' : List UInt8} (hlength : d'.length = d.length) (h : d'.take 64 = d.take 64) :
    programHeaders d' = programHeaders d := by
  have hword : ∀ w k, k + w ≤ 64 → word w d' k = word w d k := by
    intro w k hk
    have hslice : ∀ l : List UInt8, (l.drop k).take w = ((l.take 64).drop k).take w := by
      intro l
      rw [List.drop_take, List.take_take, min_eq_left (by omega)]
    rw [word, word, hslice d', hslice d, h]
  have hmagic : d'.take 4 = d.take 4 := by
    have := congrArg (List.take 4) h
    rwa [List.take_take, List.take_take] at this
  rw [programHeaders, programHeaders, hlength, hmagic, hword 1 4 (by decide), hword 1 5 (by decide),
    hword 2 54 (by decide), hword 2 56 (by decide), hword 8 32 (by decide)]

/-- The stack headers of a file lie behind its ELF header and do not overlap. -/
theorem stackHeaders_spec (htable : TableBehind d) : ∀ off ∈ stackHeaders d, 64 ≤ off ∧ off + 8 ≤ d.length ∧
    ∀ off' ∈ stackHeaders d, off = off' ∨ off + 8 ≤ off' ∨ off' + 8 ≤ off := by
  intro off hoff
  rw [stackHeaders] at hoff ⊢
  cases hheaders : programHeaders d with
  | none =>
    rw [hheaders] at hoff
    cases hoff
  | some header =>
    obtain ⟨phoff, phentsize, phnum⟩ := header
    obtain ⟨hbehind, -⟩ := htable _ _ _ hheaders
    have hsize := programHeaders_inv hheaders
    rw [hheaders] at hoff
    obtain ⟨htab, hin, -⟩ := mem_stackAmong.mp hoff
    obtain ⟨i, -, rfl⟩ := List.mem_map.mp htab
    refine ⟨by omega, hin, fun off' hoff' => ?_⟩
    obtain ⟨j, -, rfl⟩ := List.mem_map.mp (mem_stackAmong.mp hoff').1
    rcases Nat.lt_trichotomy i j with hlt | rfl | hlt
    · exact Or.inr (Or.inl (header_lt hsize hlt))
    · exact Or.inl rfl
    · exact Or.inr (Or.inr (header_lt hsize hlt))

theorem length_clearedElf (htable : TableBehind d) : (clearedElf d).length = d.length :=
  length_foldl_clearFlag fun off hoff => (stackHeaders_spec htable off hoff).2.1

/-- Clearing leaves every word that is no stack header's flags. -/
theorem word_clearedElf (htable : TableBehind d)
    (hk : ∀ off ∈ stackHeaders d, k + w ≤ off + 4 ∨ off + 8 ≤ k) : word w (clearedElf d) k = word w d k :=
  word_foldl_clearFlag (fun off hoff => (stackHeaders_spec htable off hoff).2.1) hk

theorem programHeaders_clearedElf (htable : TableBehind d) :
    programHeaders (clearedElf d) = programHeaders d := by
  refine programHeaders_congr (length_clearedElf htable) ?_
  refine take_foldl_clearFlag (fun off hoff => (stackHeaders_spec htable off hoff).2.1) fun off hoff => ?_
  have := (stackHeaders_spec htable off hoff).1
  omega

theorem tableBehind_clearedElf (htable : TableBehind d) : TableBehind (clearedElf d) := by
  rw [TableBehind, programHeaders_clearedElf htable]
  exact htable

/-- Clearing changes no header's kind. -/
theorem stackHeaders_clearedElf (htable : TableBehind d) : stackHeaders (clearedElf d) = stackHeaders d := by
  have hspec := stackHeaders_spec htable
  rw [stackHeaders, programHeaders_clearedElf htable]
  rw [stackHeaders] at hspec ⊢
  cases hheaders : programHeaders d with
  | none => rfl
  | some header =>
    obtain ⟨phoff, phentsize, phnum⟩ := header
    have hsize := programHeaders_inv hheaders
    dsimp only
    refine List.filter_congr fun off hoff => ?_
    have hkind : word 4 (clearedElf d) off = word 4 d off := by
      refine word_clearedElf htable fun off' hoff' => ?_
      rw [stackHeaders, hheaders] at hoff'
      obtain ⟨i, -, rfl⟩ := List.mem_map.mp hoff
      obtain ⟨j, -, rfl⟩ := List.mem_map.mp (mem_stackAmong.mp hoff').1
      rcases Nat.lt_or_ge j i with hlt | hge
      · exact Or.inr (header_lt hsize hlt)
      · have hmul := Nat.mul_le_mul_right phentsize hge
        omega
    rw [hkind, length_clearedElf htable]

theorem needsClear_clearedElf (htable : TableBehind d) : needsClear (clearedElf d) = false := by
  rw [needsClear, stackHeaders_clearedElf htable]
  have hspec := stackHeaders_spec htable
  cases hoffs : stackHeaders d with
  | nil => rfl
  | cons off offs =>
    have hoff : off ∈ stackHeaders d := hoffs ▸ List.mem_cons_self
    have heven := even_foldl_clearFlag (d := d) (fun o ho => (hspec o ho).2.1)
      (fun o ho => (hspec o ho).2.2 off hoff) (Or.inl hoff)
    exact decide_eq_false (not_not.mpr heven)

end Flags

section Code
variable {d pre post : List UInt8} {phoff phentsize : ℕ}

theorem runs_elfProgramHeaders :
    Runs (elfProgramHeaders pre.length d.length) (pre ++ d ++ post) (programHeaders d) (pre ++ d ++ post) := by
  rw [elfProgramHeaders, programHeaders]
  by_cases hsize : d.length < 64
  · rw [if_pos hsize, if_pos (Or.inl hsize)]
    exact Runs.pure
  rw [if_neg hsize]
  refine Runs.bind (runs_loadBytes_between (k := 0) (by omega)) ?_
  rw [List.drop_zero]
  by_cases hmagic : d.take 4 ≠ [0x7f, 0x45, 0x4c, 0x46]
  · rw [if_pos hmagic, if_pos (Or.inr (Or.inl hmagic))]
    exact Runs.pure
  rw [if_neg hmagic]
  refine Runs.bind (runs_load_between (by omega)) (Runs.bind (runs_load_between (by omega)) ?_)
  by_cases hclass : word 1 d 4 ≠ 2 ∨ word 1 d 5 ≠ 1
  · rw [if_pos hclass, if_pos (by tauto)]
    exact Runs.pure
  rw [if_neg hclass]
  refine Runs.bind (runs_load_between (by omega)) (Runs.bind (runs_load_between (by omega)) ?_)
  refine Runs.bind (runs_load_between (by omega)) ?_
  by_cases htable : word 2 d 54 < 8 ∨ word 2 d 56 = 0
  · rw [if_pos htable, if_pos (by tauto)]
    exact Runs.pure
  · rw [if_neg htable, if_neg (by tauto)]
    exact Runs.pure

/-- The headers that a loop has left. -/
def tableFrom (phoff phentsize left i : ℕ) : List ℕ := (List.range' i left).map fun i => phoff + i * phentsize

theorem tableFrom_succ (phoff phentsize left i : ℕ) : tableFrom phoff phentsize (left + 1) i =
    (phoff + i * phentsize) :: tableFrom phoff phentsize left (i + 1) := rfl

/-- Behind the first header that does not fit no header fits. -/
theorem stackAmong_tableFrom_of_gt {left i : ℕ} (h : phoff + i * phentsize + 8 > d.length) :
    stackAmong d (tableFrom phoff phentsize left i) = [] := by
  refine List.filter_eq_nil_iff.mpr fun off hoff => ?_
  obtain ⟨j, hj, rfl⟩ := List.mem_map.mp hoff
  have hmul := Nat.mul_le_mul_right phentsize (List.mem_range'_1.mp hj).1
  rw [decide_eq_true_eq]
  omega

section Loops
variable (hsmall : (pre ++ d ++ post).length < 2 ^ 63)
include hsmall

theorem header_address {off : ℕ} (hin : off + 8 ≤ d.length) :
    wrap64 off = off ∧ wrap64 (pre.length + off) = pre.length + off ∧
      wrap64 (pre.length + off + 4) = pre.length + (off + 4) := by
  simp only [List.length_append] at hsmall
  simp only [wrap64]
  omega

theorem runs_firstStackHeader (left i : ℕ)
    (haddr : ∀ j, i ≤ j → j < i + left → phoff + j * phentsize + 8 < 2 ^ 64) :
    Runs (firstStackHeader pre.length d.length phoff phentsize left i) (pre ++ d ++ post)
      (firstExecutable d (stackAmong d (tableFrom phoff phentsize left i))) (pre ++ d ++ post) := by
  induction left generalizing i with
  | zero => exact Runs.pure
  | succ left ih =>
    have hoff := haddr i le_rfl (by omega)
    have hwrap : wrap64 (phoff + i * phentsize) = phoff + i * phentsize := Nat.mod_eq_of_lt (by omega)
    have hwrap8 : wrap64 (phoff + i * phentsize + 8) = phoff + i * phentsize + 8 := Nat.mod_eq_of_lt hoff
    rw [firstStackHeader]
    simp only [hwrap, hwrap8]
    by_cases hout : phoff + i * phentsize + 8 > d.length
    · rw [if_pos hout, stackAmong_tableFrom_of_gt hout]
      exact Runs.pure
    have hin : phoff + i * phentsize + 8 ≤ d.length := Nat.le_of_not_lt hout
    obtain ⟨-, hkind, hflags⟩ := header_address hsmall hin
    rw [if_neg hout, hkind, hflags]
    refine Runs.bind (runs_load_between (by omega)) ?_
    by_cases hstack : word 4 d (phoff + i * phentsize) = kPtGnuStack
    · rw [if_pos hstack, tableFrom_succ, stackAmong_cons, if_pos ⟨hin, hstack⟩]
      exact Runs.bind (runs_load_between (by omega)) Runs.pure
    · rw [if_neg hstack, tableFrom_succ, stackAmong_cons, if_neg fun h => hstack h.2]
      exact ih (i + 1) fun j hj hlast => haddr j (by omega) (by omega)

/-- The loop clears the stack headers one after the other; it never meets a kind that it has changed. -/
theorem runs_clearHeaders (hsize : 8 ≤ phentsize) (left i : ℕ) (changed : Bool) {cur : List UInt8}
    (haddr : ∀ j, i ≤ j → j < i + left → phoff + j * phentsize + 8 < 2 ^ 64)
    (hlength : cur.length = d.length)
    (hkinds : ∀ j, i ≤ j → word 4 cur (phoff + j * phentsize) = word 4 d (phoff + j * phentsize)) :
    ∃ r, Runs (clearHeaders pre.length d.length phoff phentsize left i changed) (pre ++ cur ++ post) r
      (pre ++ (stackAmong d (tableFrom phoff phentsize left i)).foldl clearFlag cur ++ post) := by
  induction left generalizing i changed cur with
  | zero => exact ⟨changed, Runs.pure⟩
  | succ left ih =>
    have hoff := haddr i le_rfl (by omega)
    have hwrap : wrap64 (phoff + i * phentsize) = phoff + i * phentsize := Nat.mod_eq_of_lt (by omega)
    have hwrap8 : wrap64 (phoff + i * phentsize + 8) = phoff + i * phentsize + 8 := Nat.mod_eq_of_lt hoff
    have hrest : ∀ j, i + 1 ≤ j → j < i + 1 + left → phoff + j * phentsize + 8 < 2 ^ 64 :=
      fun j hj hlast => haddr j (by omega) (by omega)
    rw [clearHeaders]
    simp only [hwrap, hwrap8]
    by_cases hout : phoff + i * phentsize + 8 > d.length
    · rw [if_pos hout, stackAmong_tableFrom_of_gt hout]
      exact ⟨changed, Runs.pure⟩
    have hin : phoff + i * phentsize + 8 ≤ d.length := Nat.le_of_not_lt hout
    obtain ⟨-, hkind, hflags⟩ := header_address hsmall hin
    rw [if_neg hout, hkind, hflags]
    by_cases hstack : word 4 d (phoff + i * phentsize) = kPtGnuStack
    · have hcleared : ∀ j, i + 1 ≤ j → word 4 (clearFlag cur (phoff + i * phentsize)) (phoff + j * phentsize) =
          word 4 d (phoff + j * phentsize) := by
        intro j hj
        rw [word_clearFlag (by omega) (Or.inr (header_lt hsize hj)), hkinds j (by omega)]
      rw [tableFrom_succ, stackAmong_cons, if_pos ⟨hin, hstack⟩, List.foldl_cons]
      by_cases hbit : word 4 cur (phoff + i * phentsize + 4) &&& kPfX = 0
      · rw [clearFlag_of_even (by omega) hbit]
        obtain ⟨r, hr⟩ := ih (i + 1) changed hrest hlength fun j hj => hkinds j (by omega)
        refine ⟨r, Runs.bind (runs_load_between (by omega)) ?_⟩
        rw [if_neg (by rw [hkinds i le_rfl, hstack]; exact not_not.mpr rfl)]
        refine Runs.bind (runs_load_between (by omega)) ?_
        rw [if_neg (not_not.mpr hbit)]
        exact hr
      · obtain ⟨r, hr⟩ := ih (i + 1) true hrest ((length_clearFlag (by omega)).trans hlength) hcleared
        refine ⟨r, Runs.bind (runs_load_between (by omega)) ?_⟩
        rw [if_neg (by rw [hkinds i le_rfl, hstack]; exact not_not.mpr rfl)]
        refine Runs.bind (runs_load_between (by omega)) ?_
        rw [if_pos hbit]
        exact Runs.bind (runs_store_between (by omega)) hr
    · rw [tableFrom_succ, stackAmong_cons, if_neg fun h => hstack h.2]
      obtain ⟨r, hr⟩ := ih (i + 1) changed hrest hlength fun j hj => hkinds j (by omega)
      refine ⟨r, Runs.bind (runs_load_between (by omega)) ?_⟩
      rw [if_pos (by rwa [hkinds i le_rfl])]
      exact hr

/-- A library inside of a package is judged by its own bytes. -/
theorem runs_elfNeedsGnuStackClear (htable : TableBehind d) :
    Runs (elfNeedsGnuStackClear pre.length d.length) (pre ++ d ++ post) (needsClear d) (pre ++ d ++ post) := by
  refine Runs.bind runs_elfProgramHeaders ?_
  rw [needsClear, stackHeaders]
  cases hheaders : programHeaders d with
  | none => exact Runs.pure
  | some header =>
    obtain ⟨phoff, phentsize, phnum⟩ := header
    obtain ⟨-, hend⟩ := htable _ _ _ hheaders
    refine runs_firstStackHeader hsmall phnum 0 fun j _ hj => ?_
    have hmul := Nat.mul_le_mul_right phentsize (show j ≤ phnum by omega)
    omega

/-- And it is patched in its own bytes only. -/
theorem runs_clearElfGnuStack (htable : TableBehind d) :
    ∃ r, Runs (clearElfGnuStack pre.length d.length) (pre ++ d ++ post) r (pre ++ clearedElf d ++ post) := by
  cases hheaders : programHeaders d with
  | none =>
    refine ⟨false, Runs.bind runs_elfProgramHeaders ?_⟩
    rw [clearedElf, stackHeaders, hheaders]
    exact Runs.pure
  | some header =>
    obtain ⟨phoff, phentsize, phnum⟩ := header
    obtain ⟨-, hend⟩ := htable _ _ _ hheaders
    have haddr : ∀ j, 0 ≤ j → j < 0 + phnum → phoff + j * phentsize + 8 < 2 ^ 64 := by
      intro j _ hj
      have hmul := Nat.mul_le_mul_right phentsize (show j ≤ phnum by omega)
      omega
    obtain ⟨r, hr⟩ := runs_clearHeaders hsmall (programHeaders_inv hheaders) phnum 0 false haddr
      (Eq.refl d.length) fun _ _ => rfl
    refine ⟨r, Runs.bind runs_elfProgramHeaders ?_⟩
    rw [clearedElf, stackHeaders, hheaders]
    exact hr

end Loops
end Code

end Rgpot.AotiExecstack
