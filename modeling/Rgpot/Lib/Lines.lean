import Mathlib.Data.List.DropRight
import Mathlib.Data.List.Basic

/-! Texts as lists of characters: blanks, quoted parts, and lines with their ends. -/
namespace Rgpot.Lines

abbrev Text := List Char

/-- The Unicode property `White_Space`. -/
def isWhitespace (c : Char) : Bool :=
  c.toNat ∈ [0x9, 0xA, 0xB, 0xC, 0xD, 0x20, 0x85, 0xA0, 0x1680, 0x2028, 0x2029, 0x202F, 0x205F, 0x3000] ∨
    (0x2000 ≤ c.toNat ∧ c.toNat ≤ 0x200A)

def trimStart (s : Text) : Text := s.dropWhile isWhitespace

def trimEnd (s : Text) : Text := s.rdropWhile isWhitespace

def trim (s : Text) : Text := trimEnd (trimStart s)

def indent (s : Text) : Text := s.takeWhile isWhitespace

/-- The first run of characters that are no blanks. -/
def firstWord (s : Text) : Text := (trimStart s).takeWhile fun c => !isWhitespace c

/-- What follows the first word. -/
def afterWord (s : Text) : Text := (trimStart s).dropWhile fun c => !isWhitespace c

section Blanks
variable {a s w kw : Text} {p : Char → Bool}

theorem indent_append_trimStart (s : Text) : indent s ++ trimStart s = s := List.takeWhile_append_dropWhile

theorem isWhitespace_of_mem_indent {c : Char} (h : c ∈ indent s) : isWhitespace c = true :=
  List.mem_takeWhile_imp h

theorem indent_append (ha : ∀ c ∈ a, isWhitespace c = true) : indent (a ++ s) = a ++ indent s :=
  List.takeWhile_append_of_pos ha

theorem trimStart_append (ha : ∀ c ∈ a, isWhitespace c = true) : trimStart (a ++ s) = trimStart s :=
  List.dropWhile_append_of_pos ha

theorem rdropWhile_append_of_last {c : Char} (hc : p c = false) (a r : Text) :
    (a ++ c :: r).rdropWhile p = a ++ c :: r.rdropWhile p := by
  induction r using List.reverseRecOn with
  | nil =>
    rw [List.rdropWhile_nil]
    exact List.rdropWhile_concat_neg _ _ _ (by simp [hc])
  | append_singleton r d ih =>
    have hassoc : a ++ c :: (r ++ [d]) = (a ++ c :: r) ++ [d] := by simp
    rw [hassoc]
    by_cases hd : p d = true
    · rw [List.rdropWhile_concat_pos _ _ _ hd, List.rdropWhile_concat_pos _ _ _ hd, ih]
    · rw [List.rdropWhile_concat_neg _ _ _ hd, List.rdropWhile_concat_neg _ _ _ hd, hassoc]

/-- A text is its trimmed part between two runs of dropped characters. -/
theorem exists_rdropWhile (p : Char → Bool) (s : Text) :
    ∃ w, s = s.rdropWhile p ++ w ∧ ∀ c ∈ w, p c = true := by
  refine ⟨s.rtakeWhile p, List.rdropWhile_append_rtakeWhile.symm, ?_⟩
  intro c hc
  exact List.mem_rtakeWhile_imp hc

theorem rdropWhile_append_of_pos {w : Text} (hw : ∀ c ∈ w, p c = true) (s : Text) :
    (s ++ w).rdropWhile p = s.rdropWhile p := by
  induction w using List.reverseRecOn with
  | nil => rw [List.append_nil]
  | append_singleton w d ih =>
    have hd := hw d (by simp)
    rw [← List.append_assoc, List.rdropWhile_concat_pos _ _ _ hd, ih fun c hc => hw c (by simp [hc])]

/-- Blanks behind a text do not reach its first word. -/
theorem firstWord_append (hw : ∀ c ∈ w, isWhitespace c = true) : firstWord (s ++ w) = firstWord s := by
  have hword : ∀ u : Text, (u ++ w).takeWhile (fun c => !isWhitespace c) =
      u.takeWhile fun c => !isWhitespace c := by
    intro u
    induction u with
    | nil =>
      cases w with
      | nil => rfl
      | cons c w => simp [hw c List.mem_cons_self]
    | cons c u ih =>
      by_cases hc : isWhitespace c = true
      · simp [hc]
      · simp [hc, ih]
  induction s with
  | nil =>
    have hdrop : trimStart w = [] := List.dropWhile_eq_nil_iff.mpr hw
    rw [firstWord, firstWord, List.nil_append, hdrop]
    rfl
  | cons c s ih =>
    by_cases hc : isWhitespace c = true
    · simpa [firstWord, trimStart, hc] using ih
    · simpa [firstWord, trimStart, hc] using hword s

/-- Blanks behind a text are trimmed. -/
theorem trim_append (hw : ∀ c ∈ w, isWhitespace c = true) : trim (s ++ w) = trim s := by
  have hdrop : trimStart (s ++ w) = trimStart s ++ w ∨ trimStart s = [] ∧ trimStart (s ++ w) = [] := by
    rw [trimStart, trimStart, List.dropWhile_append]
    cases hs : s.dropWhile isWhitespace with
    | nil => exact .inr ⟨rfl, List.dropWhile_eq_nil_iff.mpr hw⟩
    | cons c r => exact .inl rfl
  obtain hdrop | ⟨hs, hdrop⟩ := hdrop
  · rw [trim, trim, hdrop]
    exact rdropWhile_append_of_pos hw _
  · rw [trim, trim, hs, hdrop]

/-- A prefix that ends in no blank is not trimmed. -/
theorem prefix_trim {k : Text} {c : Char} (hc : isWhitespace c = false) :
    k ++ [c] <+: trim s ↔ k ++ [c] <+: trimStart s := by
  constructor
  · exact fun h => h.trans (List.rdropWhile_prefix _ _)
  · rintro ⟨r, hr⟩
    rw [trim, ← hr, trimEnd, List.append_assoc, List.singleton_append, rdropWhile_append_of_last hc]
    exact ⟨_, by rw [List.append_assoc, List.singleton_append]⟩

theorem trimStart_head {c : Char} {r : Text} (h : trimStart s = c :: r) : isWhitespace c = false := by
  have hhead := List.head?_dropWhile_not isWhitespace s
  rw [← trimStart, h] at hhead
  simpa using hhead

end Blanks

section Quotes
variable {q : Char} {s x t y a b : Text}

/-- The position of the first `q`. -/
def find (q : Char) (s : Text) : Option ℕ := s.findIdx? (· == q)

/-- The position of the last `q`. -/
def rfind (q : Char) (s : Text) : Option ℕ := (find q s.reverse).map fun i => s.length - 1 - i

/-- `t` stands between the first and the last `q` of `s`. -/
structure Quoted (q : Char) (s x t y : Text) : Prop where
  eq : s = x ++ q :: (t ++ q :: y)
  before : q ∉ x
  after : q ∉ y

/-- The text up to the first `q`, between it and the last one, and from there. -/
def quotedAt (q : Char) (s : Text) : Option (Text × Text × Text) := do
  let a ← find q s
  let b ← rfind q s
  if a < b then some (s.take (a + 1), (s.take b).drop (a + 1), s.drop b) else none

theorem find_append (hx : q ∉ x) : find q (x ++ q :: y) = some x.length := by
  induction x with
  | nil => simp [find, List.findIdx?_cons]
  | cons c x ih =>
    have hc : c ≠ q := fun he => hx (he ▸ List.mem_cons_self)
    have hrest : q ∉ x := fun hmem => hx (List.mem_cons_of_mem _ hmem)
    rw [find] at ih ⊢
    rw [List.cons_append, List.findIdx?_cons, if_neg (by simpa using hc), ih hrest]
    rfl

theorem rfind_append (hy : q ∉ y) : rfind q (x ++ q :: y) = some x.length := by
  have hreverse : (x ++ q :: y).reverse = y.reverse ++ q :: x.reverse := by simp
  rw [rfind, hreverse, find_append fun h => hy (List.mem_reverse.mp h)]
  simp only [Option.map_some, List.length_append, List.length_cons, List.length_reverse]
  congr 1
  omega

theorem Quoted.quotedAt (h : Quoted q s x t y) : quotedAt q s = some (x ++ [q], t, q :: y) := by
  have hfirst : find q s = some x.length := by
    rw [h.eq]
    exact find_append h.before
  have hlast : rfind q s = some (x ++ q :: t).length := by
    rw [h.eq, show x ++ q :: (t ++ q :: y) = (x ++ q :: t) ++ q :: y by simp]
    exact rfind_append h.after
  have hlt : x.length < (x ++ q :: t).length := by simp
  have hopen : s.take (x.length + 1) = x ++ [q] := by
    rw [h.eq, show x ++ q :: (t ++ q :: y) = (x ++ [q]) ++ (t ++ q :: y) by simp]
    exact List.take_left' (by simp)
  have hclose : s.drop (x ++ q :: t).length = q :: y := by
    rw [h.eq, show x ++ q :: (t ++ q :: y) = (x ++ q :: t) ++ q :: y by simp]
    exact List.drop_left
  have hinner : (s.take (x ++ q :: t).length).drop (x.length + 1) = t := by
    rw [h.eq, show x ++ q :: (t ++ q :: y) = (x ++ q :: t) ++ q :: y by simp, List.take_left,
      show x ++ q :: t = (x ++ [q]) ++ t by simp]
    exact List.drop_left' (by simp)
  simp only [Lines.quotedAt, hfirst, hlast, Option.bind_eq_bind, Option.bind_some, if_pos hlt, hopen,
    hinner, hclose]

theorem exists_last (h : q ∈ s) : ∃ t y, s = t ++ q :: y ∧ q ∉ y := by
  obtain ⟨y, t, hreverse, hy⟩ := List.eq_append_cons_of_mem (List.mem_reverse.mpr h)
  refine ⟨t.reverse, y.reverse, ?_, fun hmem => hy (List.mem_reverse.mp hmem)⟩
  rw [← List.reverse_reverse s, hreverse]
  simp

theorem exists_quoted (h : 2 ≤ s.count q) : ∃ x t y, Quoted q s x t y := by
  have hs : q ∈ s := List.count_pos_iff.mp (by omega)
  obtain ⟨x, z, rfl, hx⟩ := List.eq_append_cons_of_mem hs
  rw [List.count_append, List.count_cons_self, List.count_eq_zero_of_not_mem hx] at h
  have hz : q ∈ z := List.count_pos_iff.mp (by omega)
  obtain ⟨t, y, rfl, hy⟩ := exists_last hz
  exact ⟨x, t, y, rfl, hx, hy⟩

/-- Fewer than two quotes and nothing is quoted. -/
theorem quotedAt_eq_none (h : s.count q < 2) : quotedAt q s = none := by
  by_cases hs : q ∈ s
  · obtain ⟨x, z, rfl, hx⟩ := List.eq_append_cons_of_mem hs
    rw [List.count_append, List.count_cons_self] at h
    have hz : q ∉ z := List.count_eq_zero.mp (by omega)
    simp only [quotedAt, find_append hx, rfind_append hz, Option.bind_eq_bind, Option.bind_some,
      lt_irrefl, if_false]
  · have hnone : find q s = none := by
      rw [find, List.findIdx?_eq_none_iff]
      intro c hc
      simpa using fun he : c = q => hs (he ▸ hc)
    simp only [quotedAt, hnone, Option.bind_eq_bind, Option.bind_none]

theorem quotedAt_eq_some {p u r : Text} :
    quotedAt q s = some (p, u, r) ↔ ∃ x y, Quoted q s x u y ∧ p = x ++ [q] ∧ r = q :: y := by
  constructor
  · intro h
    by_cases hcount : s.count q < 2
    · rw [quotedAt_eq_none hcount] at h
      cases h
    · obtain ⟨x, t, y, hquoted⟩ := exists_quoted (Nat.le_of_not_lt hcount)
      rw [hquoted.quotedAt] at h
      cases h
      exact ⟨x, y, hquoted, rfl, rfl⟩
  · rintro ⟨x, y, hquoted, rfl, rfl⟩
    exact hquoted.quotedAt

/-- Text without quotes around a text is outside its quotes. -/
theorem quotedAt_append (ha : q ∉ a) (hb : q ∉ b) :
    quotedAt q (a ++ s ++ b) = (quotedAt q s).map fun l => (a ++ l.1, l.2.1, l.2.2 ++ b) := by
  by_cases hcount : s.count q < 2
  · rw [quotedAt_eq_none hcount, quotedAt_eq_none]
    · rfl
    · rwa [List.count_append, List.count_append, List.count_eq_zero_of_not_mem ha,
        List.count_eq_zero_of_not_mem hb, Nat.zero_add, Nat.add_zero]
  · obtain ⟨x, t, y, h⟩ := exists_quoted (Nat.le_of_not_lt hcount)
    have hwide : Quoted q (a ++ s ++ b) (a ++ x) t (y ++ b) := by
      refine ⟨?_, ?_, ?_⟩
      · rw [h.eq]
        simp
      · simp [ha, h.before]
      · simp [hb, h.after]
    rw [hwide.quotedAt, h.quotedAt]
    simp

/-- What is outside the quotes is determined by the whole. -/
theorem Quoted.unique {x' t' y' : Text} (h : Quoted q s x t y) (h' : Quoted q s x' t' y') :
    x = x' ∧ t = t' ∧ y = y' := by
  have hat := h.quotedAt.symm.trans h'.quotedAt
  simp only [Option.some.injEq, Prod.mk.injEq, List.append_cancel_right_eq, List.cons.injEq,
    true_and] at hat
  exact hat

end Quotes

section Ends
variable {b b' l t : Text} {ls ls' : List Text}

/-- The text cut behind every newline. -/
def splitInclusive : Text → List Text
  | [] => []
  | c :: s =>
    if c = '\n' then [c] :: splitInclusive s
    else match splitInclusive s with
      | [] => [[c]]
      | line :: rest => (c :: line) :: rest

/-- The line end of a line. -/
def lineEol (line : Text) : Text :=
  if ['\r', '\n'].isSuffixOf line then ['\r', '\n'] else if ['\n'].isSuffixOf line then ['\n'] else []

/-- A line without its end. -/
def lineBody (line : Text) : Text := line.take (line.length - (lineEol line).length)

/-- The lines of a text without their ends. -/
def lines (t : Text) : List Text := (splitInclusive t).map lineBody

/-- Lines as a cut leaves them: a newline ends each but perhaps the last. -/
inductive Split : List Text → Prop
  | nil : Split []
  | last {b : Text} (hne : b ≠ []) (hb : '\n' ∉ b) : Split [b]
  | cons {b : Text} {ls : List Text} (hb : '\n' ∉ b) (h : Split ls) : Split ((b ++ ['\n']) :: ls)

theorem split_splitInclusive (t : Text) : Split (splitInclusive t) := by
  induction t with
  | nil => exact .nil
  | cons c s ih =>
    rw [splitInclusive]
    by_cases hc : c = '\n'
    · subst hc
      rw [if_pos rfl]
      exact Split.cons (b := []) (by simp) ih
    · rw [if_neg hc]
      have hc' : '\n' ∉ [c] := by simpa using Ne.symm hc
      cases hs : splitInclusive s with
      | nil => exact .last (by simp) hc'
      | cons line rest =>
        rw [hs] at ih
        cases ih with
        | last hne hb => exact .last (by simp) (by simpa [hb] using Ne.symm hc)
        | @cons b _ hb h => exact Split.cons (b := c :: b) (by simpa [hb] using Ne.symm hc) h

theorem splitInclusive_of_not_mem (hne : b ≠ []) (hb : '\n' ∉ b) : splitInclusive b = [b] := by
  induction b with
  | nil => exact absurd rfl hne
  | cons c b ih =>
    have hc : c ≠ '\n' := fun he => hb (he ▸ List.mem_cons_self)
    rw [splitInclusive, if_neg hc]
    cases b with
    | nil => rfl
    | cons d b =>
      rw [ih (by simp) fun h => hb (List.mem_cons_of_mem _ h)]

theorem splitInclusive_append (hb : '\n' ∉ b) (t : Text) :
    splitInclusive (b ++ '\n' :: t) = (b ++ ['\n']) :: splitInclusive t := by
  induction b with
  | nil => simp [splitInclusive]
  | cons c b ih =>
    have hc : c ≠ '\n' := fun he => hb (he ▸ List.mem_cons_self)
    rw [List.cons_append, splitInclusive, if_neg hc, ih fun h => hb (List.mem_cons_of_mem _ h)]
    rfl

/-- Lines joined are cut again as they were. -/
theorem Split.splitInclusive_flatten (h : Split ls) : splitInclusive ls.flatten = ls := by
  induction h with
  | nil => rfl
  | last hne hb =>
    rw [List.flatten_singleton]
    exact splitInclusive_of_not_mem hne hb
  | cons hb _ ih =>
    rw [List.flatten_cons, List.append_assoc, List.singleton_append, splitInclusive_append hb, ih]

theorem Split.flatten_inj (h : Split ls) (h' : Split ls') : ls.flatten = ls'.flatten ↔ ls = ls' := by
  constructor
  · intro heq
    rw [← h.splitInclusive_flatten, heq, h'.splitInclusive_flatten]
  · exact congrArg List.flatten

theorem lineBody_append_lineEol (l : Text) : lineBody l ++ lineEol l = l := by
  have hsuffix : lineEol l <:+ l := by
    unfold lineEol
    split_ifs with hcrlf hlf
    · exact List.isSuffixOf_iff_suffix.mp hcrlf
    · exact List.isSuffixOf_iff_suffix.mp hlf
    · exact List.nil_suffix
  obtain ⟨b, hb⟩ := hsuffix
  have hlength : b.length = l.length - (lineEol l).length := by
    rw [← congrArg List.length hb, List.length_append, Nat.add_sub_cancel]
  have hbody : lineBody l = b := by
    calc lineBody l = l.take b.length := by rw [lineBody, hlength]
      _ = (b ++ lineEol l).take b.length := by rw [hb]
      _ = b := List.take_left
  rw [hbody, hb]

theorem lineEol_cases (l : Text) : lineEol l = ['\r', '\n'] ∨ lineEol l = ['\n'] ∨ lineEol l = [] := by
  unfold lineEol
  split_ifs
  · exact .inl rfl
  · exact .inr (.inl rfl)
  · exact .inr (.inr rfl)

/-- A new body that leaves the end of the line as it is. -/
structure Keeps (b b' : Text) : Prop where
  ne_nil : b' ≠ []
  not_newline : '\n' ∉ b'
  last : b'.getLast? = some '\r' → b.getLast? = some '\r'

theorem Keeps.eol (h : Keeps (lineBody l) b') : lineEol (b' ++ lineEol l) = lineEol l := by
  obtain hcrlf | hlf | hnil := lineEol_cases l
  · rw [hcrlf, lineEol, if_pos (List.isSuffixOf_iff_suffix.mpr (List.suffix_append _ _))]
  · have hbare : ¬ ['\r', '\n'] <:+ b' ++ ['\n'] := by
      rintro ⟨u, hu⟩
      have hlast : b' = u ++ ['\r'] := by
        rw [show u ++ ['\r', '\n'] = (u ++ ['\r']) ++ ['\n'] by simp] at hu
        exact (List.append_cancel_right hu).symm
      have hbody := h.last (by rw [hlast]; simp)
      obtain ⟨w, hw⟩ := List.getLast?_eq_some_iff.mp hbody
      have hl := lineBody_append_lineEol l
      rw [hw, hlf] at hl
      have hend : ['\r', '\n'] <:+ l := ⟨w, by rw [← hl]; simp⟩
      rw [lineEol, if_pos (List.isSuffixOf_iff_suffix.mpr hend)] at hlf
      cases hlf
    rw [hlf, lineEol, if_neg (fun he => hbare (List.isSuffixOf_iff_suffix.mp he)),
      if_pos (List.isSuffixOf_iff_suffix.mpr (List.suffix_append _ _))]
  · have hnone : ∀ e : Text, '\n' ∈ e → ¬ e.isSuffixOf b' = true := by
      intro e he hsuffix
      exact h.not_newline ((List.isSuffixOf_iff_suffix.mp hsuffix).subset he)
    rw [hnil, List.append_nil, lineEol, if_neg (hnone _ (by simp)), if_neg (hnone _ (by simp))]

theorem Keeps.body (h : Keeps (lineBody l) b') : lineBody (b' ++ lineEol l) = b' := by
  have happend := lineBody_append_lineEol (b' ++ lineEol l)
  rw [h.eol] at happend
  exact List.append_cancel_right happend

theorem Split.tail (h : Split (l :: ls)) : Split ls := by
  cases h with
  | last => exact .nil
  | cons _ h => exact h

/-- Lines behind a line may be rewritten. -/
theorem Split.cons_congr (h : Split (l :: ls)) (h' : Split ls') (hnil : ls = [] → ls' = []) :
    Split (l :: ls') := by
  cases h with
  | last hne hb =>
    rw [hnil rfl]
    exact .last hne hb
  | cons hb _ => exact .cons hb h'

theorem lineEol_append_newline (b : Text) :
    ∃ e, lineEol (b ++ ['\n']) = e ++ ['\n'] ∧ '\n' ∉ e := by
  unfold lineEol
  by_cases hcrlf : ['\r', '\n'].isSuffixOf (b ++ ['\n']) = true
  · rw [if_pos hcrlf]
    exact ⟨['\r'], rfl, by simp⟩
  · rw [if_neg hcrlf, if_pos (List.isSuffixOf_iff_suffix.mpr (List.suffix_append _ _))]
    exact ⟨[], rfl, by simp⟩

theorem lineEol_of_not_mem (hb : '\n' ∉ b) : lineEol b = [] := by
  have hnone : ∀ e : Text, '\n' ∈ e → ¬ e.isSuffixOf b = true := by
    intro e he hsuffix
    exact hb ((List.isSuffixOf_iff_suffix.mp hsuffix).subset he)
  rw [lineEol, if_neg (hnone _ (by simp)), if_neg (hnone _ (by simp))]

/-- A line may get a new body. -/
theorem Split.rewrite (h : Split (l :: ls)) (hb : Keeps (lineBody l) b') :
    Split ((b' ++ lineEol l) :: ls) := by
  cases h with
  | last hne hl =>
    rw [lineEol_of_not_mem hl, List.append_nil]
    exact .last hb.ne_nil hb.not_newline
  | @cons b _ hl h =>
    obtain ⟨e, he, hne⟩ := lineEol_append_newline b
    rw [he, ← List.append_assoc]
    exact .cons (by simp [hb.not_newline, hne]) h

theorem Split.not_mem_lineBody (h : Split (l :: ls)) : '\n' ∉ lineBody l := by
  cases h with
  | last _ hl =>
    intro hmem
    have happend := lineBody_append_lineEol l
    exact hl (by rw [← happend]; exact List.mem_append_left _ hmem)
  | @cons b _ hl h =>
    obtain ⟨e, he, -⟩ := lineEol_append_newline b
    have happend := lineBody_append_lineEol (b ++ ['\n'])
    rw [he, ← List.append_assoc] at happend
    have hbody := List.append_cancel_right happend
    intro hmem
    exact hl (by rw [← hbody]; exact List.mem_append_left _ hmem)

/-- New bodies that keep the line ends leave the lines apart. -/
theorem Split.map {f : Text → Text} (hf : ∀ l, '\n' ∉ lineBody l →
    f l = l ∨ ∃ b, f l = b ++ lineEol l ∧ Keeps (lineBody l) b) (h : Split ls) : Split (ls.map f) := by
  induction ls with
  | nil => exact .nil
  | cons l ls ih =>
    have hrest : Split (l :: ls.map f) := by
      refine h.cons_congr (ih h.tail) ?_
      rintro rfl
      rfl
    rw [List.map_cons]
    obtain hsame | ⟨b, hb, hkeeps⟩ := hf l h.not_mem_lineBody
    · rw [hsame]
      exact hrest
    · rw [hb]
      exact hrest.rewrite hkeeps

theorem length_flatten_map_le {f g : Text → Text} (h : ∀ l ∈ ls, (f l).length ≤ (g l).length) :
    (ls.map f).flatten.length ≤ (ls.map g).flatten.length := by
  induction ls with
  | nil => exact le_rfl
  | cons l ls ih =>
    obtain ⟨hl, hls⟩ := List.forall_mem_cons.mp h
    simp only [List.map_cons, List.flatten_cons, List.length_append]
    exact Nat.add_le_add hl (ih hls)

/-- Texts that grow line by line are equal only where every line is. -/
theorem flatten_map_eq_iff {f g : Text → Text} (h : ∀ l ∈ ls, (f l).length ≤ (g l).length) :
    (ls.map f).flatten = (ls.map g).flatten ↔ ∀ l ∈ ls, f l = g l := by
  induction ls with
  | nil => simp
  | cons l ls ih =>
    obtain ⟨hl, hls⟩ := List.forall_mem_cons.mp h
    rw [List.map_cons, List.map_cons, List.flatten_cons, List.flatten_cons, List.forall_mem_cons,
      ← ih hls]
    constructor
    · intro heq
      have hlength := congrArg List.length heq
      have hrest := length_flatten_map_le hls
      rw [List.length_append, List.length_append] at hlength
      exact List.append_inj heq (by omega)
    · rintro ⟨hl, hls⟩
      rw [hl, hls]

end Ends
end Rgpot.Lines
