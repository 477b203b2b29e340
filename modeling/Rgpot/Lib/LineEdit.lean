import Rgpot.Lib.Lines

/-! A reader and a writer of one value in a text: the writer rewrites a whole line, the reader says where
in a line the value stands. -/
namespace Rgpot.Lines
variable {σ α : Type}

/-- What the first line with a result says; `next` carries a state from line to line. -/
def scanFirst (next : σ → Text → σ) (f : σ → Text → Option α) : σ → List Text → Option α
  | _, [] => none
  | s, l :: ls =>
    match f s l with
    | some a => some a
    | none => scanFirst next f (next s l) ls

/-- The first line that `g` rewrites is rewritten, all others are kept. -/
def rewriteFirst (next : σ → Text → σ) (g : σ → Text → Option Text) : Bool → σ → List Text → List Text
  | _, _, [] => []
  | done, s, l :: ls =>
    match if done then none else g s l with
    | some l' => l' :: rewriteFirst next g true (next s l) ls
    | none => l :: rewriteFirst next g done (next s l) ls

section Scan
variable {next : σ → Text → σ} {f : σ → Text → Option α} {g : σ → Text → Option Text} {s : σ}
variable {l l' : Text} {ls : List Text}

theorem scanFirst_map (h : Text → Text) (s : σ) (ls : List Text) :
    scanFirst next f s (ls.map h) = scanFirst (fun s l => next s (h l)) (fun s l => f s (h l)) s ls := by
  induction ls generalizing s with
  | nil => rfl
  | cons l ls ih =>
    rw [List.map_cons, scanFirst, scanFirst]
    cases f s (h l) with
    | some a => rfl
    | none => exact ih (next s (h l))

theorem rewriteFirst_done (s : σ) (ls : List Text) : rewriteFirst next g true s ls = ls := by
  induction ls generalizing s with
  | nil => rfl
  | cons l ls ih => rw [rewriteFirst, if_pos rfl, ih (next s l)]

theorem rewriteFirst_some (h : g s l = some l') : rewriteFirst next g false s (l :: ls) = l' :: ls := by
  rw [rewriteFirst, if_neg Bool.false_ne_true, h, rewriteFirst_done]

theorem rewriteFirst_none (h : g s l = none) :
    rewriteFirst next g false s (l :: ls) = l :: rewriteFirst next g false (next s l) ls := by
  rw [rewriteFirst, if_neg Bool.false_ne_true, h]

/-- New bodies that keep the line ends leave the lines apart. -/
theorem rewriteFirst_split (hg : ∀ s l l', g s l = some l' → '\n' ∉ lineBody l →
    ∃ b, l' = b ++ lineEol l ∧ Keeps (lineBody l) b) (h : Split ls) (s : σ) :
    Split (rewriteFirst next g false s ls) := by
  induction ls generalizing s with
  | nil => exact .nil
  | cons l ls ih =>
    cases hl : g s l with
    | some l' =>
      obtain ⟨b, rfl, hb⟩ := hg s l l' hl h.not_mem_lineBody
      rw [rewriteFirst_some hl]
      exact h.rewrite hb
    | none =>
      rw [rewriteFirst_none hl]
      refine h.cons_congr (ih h.tail (next s l)) ?_
      rintro rfl
      rfl

end Scan

/-- One value in a text. `locate` takes apart the body of a line that holds the value; the writer puts
`keyword`, the value and `closing` behind the indentation of the lines that `writes` picks. -/
structure Surface (σ : Type) where
  start : σ
  next : σ → Text → σ
  locate : σ → Text → Option (Text × Text × Text)
  writes : σ → Text → Bool
  keyword : Text
  closing : Text

namespace Surface
variable (S : Surface σ)

def read (s : σ) (b : Text) : Option Text := (S.locate s b).map fun l => l.2.1

def written (v l : Text) : Text := indent (lineBody l) ++ S.keyword ++ v ++ S.closing ++ lineEol l

def nextLine (s : σ) (l : Text) : σ := S.next s (lineBody l)

def writeLine (v : Text) (s : σ) (l : Text) : Option Text :=
  if S.writes s (lineBody l) then some (S.written v l) else none

/-- The value replaced where the reader finds it. -/
def bumpLine (v : Text) (s : σ) (l : Text) : Option Text :=
  (S.locate s (lineBody l)).map fun (p, _, t) => p ++ v ++ t ++ lineEol l

def readText (t : Text) : Option Text := scanFirst S.next S.read S.start (lines t)

def sync (v t : Text) : Text :=
  (rewriteFirst S.nextLine (S.writeLine v) false S.start (splitInclusive t)).flatten

def bump (v t : Text) : Text :=
  (rewriteFirst S.nextLine (S.bumpLine v) false S.start (splitInclusive t)).flatten

/-- The first line the writer picks, if any, already is what it writes. -/
def Stays (v : Text) : σ → List Text → Prop
  | _, [] => True
  | s, l :: ls => if S.writes s (lineBody l) then l = S.written v l else Stays v (S.nextLine s l) ls

/-- The first line that either picks: the writer's, if it has the writer's layout around the value read
from it, and else one that holds `v` already, with nothing to write behind it. -/
def Clean (v : Text) : σ → List Text → Prop
  | _, [] => False
  | s, l :: ls =>
    if S.writes s (lineBody l) then ∃ q, S.read s (lineBody l) = some q ∧ l = S.written q l
    else match S.read s (lineBody l) with
      | some q => q = v ∧ S.Stays v (S.nextLine s l) ls
      | none => Clean v (S.nextLine s l) ls

/-- What reader and writer of one value `v` have in common. -/
structure Lawful (v : Text) : Prop where
  ne_nil : v ≠ []
  plain : ∀ c ∈ S.keyword ++ v ++ S.closing, c ≠ '\n' ∧ c ≠ '\r'
  located : ∀ {s b p q t}, S.locate s b = some (p, q, t) → b = p ++ q ++ t
  relocated : ∀ {s b p q t}, S.locate s b = some (p, q, t) → S.locate s (p ++ v ++ t) = some (p, v, t)
  rereads : ∀ {s b}, S.writes s b = true → S.read s (indent b ++ S.keyword ++ v ++ S.closing) = some v
  framed : ∀ {s b p q t u}, S.writes s b = true → S.locate s b = some (p, q, t) →
    p ++ u ++ t = indent b ++ S.keyword ++ u ++ S.closing → p = indent b ++ S.keyword ∧ t = S.closing

variable {S} {v : Text} {s : σ} {l p q t : Text} {ls : List Text}

theorem read_eq_some : S.read s l = some q ↔ ∃ p t, S.locate s l = some (p, q, t) := by
  simp [read]

theorem Lawful.line (h : S.Lawful v) (hl : S.locate s (lineBody l) = some (p, q, t)) :
    l = p ++ q ++ t ++ lineEol l := by
  rw [← h.located hl, lineBody_append_lineEol]

/-- A line the writer leaves as it is holds the value. -/
theorem Lawful.read_of_written (h : S.Lawful v) (hw : S.writes s (lineBody l) = true)
    (hl : l = S.written v l) : S.read s (lineBody l) = some v := by
  have hbody : lineBody l = indent (lineBody l) ++ S.keyword ++ v ++ S.closing :=
    List.append_cancel_right ((lineBody_append_lineEol l).trans hl)
  rw [hbody]
  exact h.rereads hw

theorem Lawful.bumped_eq_self (h : S.Lawful v) (hl : S.locate s (lineBody l) = some (p, q, t)) :
    p ++ v ++ t ++ lineEol l = l ↔ q = v := by
  have hline := h.line hl
  constructor
  · intro heq
    have hbody := List.append_cancel_right (List.append_cancel_right (heq.trans hline))
    exact (List.append_cancel_left hbody).symm
  · rintro rfl
    exact hline.symm

/-- On the reader's own line the writer replaces the value only where the layout is its own. -/
theorem Lawful.bumped_eq_written (h : S.Lawful v) (hw : S.writes s (lineBody l) = true)
    (hl : S.locate s (lineBody l) = some (p, q, t)) :
    S.written v l = p ++ v ++ t ++ lineEol l ↔ l = S.written q l := by
  have hline := h.line hl
  constructor
  · intro heq
    obtain ⟨rfl, rfl⟩ := h.framed hw hl (List.append_cancel_right heq).symm
    exact hline
  · intro heq
    obtain ⟨rfl, rfl⟩ := h.framed hw hl (List.append_cancel_right (hline.symm.trans heq))
    rfl

theorem rewrite_eq_self (s : σ) (ls : List Text) :
    rewriteFirst S.nextLine (S.writeLine v) false s ls = ls ↔ S.Stays v s ls := by
  induction ls generalizing s with
  | nil => exact iff_of_true rfl trivial
  | cons l ls ih =>
    rw [Stays]
    by_cases hw : S.writes s (lineBody l) = true
    · rw [if_pos hw, rewriteFirst_some (if_pos hw), List.cons_eq_cons, and_iff_left rfl]
      exact eq_comm
    · rw [if_neg hw, rewriteFirst_none (if_neg hw), List.cons_eq_cons, and_iff_right rfl]
      exact ih (S.nextLine s l)

/-- By induction on the lines: the two agree up to the first line that either picks, and what it holds
decides. -/
theorem Lawful.rewrite_eq_iff (h : S.Lawful v) (s : σ) (ls : List Text)
    (hfound : scanFirst S.nextLine (fun s l => S.read s (lineBody l)) s ls ≠ none) :
    rewriteFirst S.nextLine (S.writeLine v) false s ls = rewriteFirst S.nextLine (S.bumpLine v) false s ls ↔
      S.Clean v s ls := by
  induction ls generalizing s with
  | nil => exact absurd rfl hfound
  | cons l ls ih =>
    rw [Clean]
    cases hl : S.locate s (lineBody l) with
    | some found =>
      obtain ⟨p, q, t⟩ := found
      have hread : S.read s (lineBody l) = some q := read_eq_some.mpr ⟨p, t, hl⟩
      have hbump : S.bumpLine v s l = some (p ++ v ++ t ++ lineEol l) := by rw [bumpLine, hl]; rfl
      rw [rewriteFirst_some hbump]
      by_cases hw : S.writes s (lineBody l) = true
      · rw [if_pos hw, rewriteFirst_some (if_pos hw), List.cons_eq_cons, and_iff_left rfl,
          h.bumped_eq_written hw hl]
        simp only [hread, Option.some.injEq, exists_eq_left']
      · rw [if_neg hw, rewriteFirst_none (if_neg hw), List.cons_eq_cons, rewrite_eq_self, eq_comm,
          h.bumped_eq_self hl]
        simp only [hread]
    | none =>
      have hread : S.read s (lineBody l) = none := by rw [read, hl]; rfl
      have hbump : S.bumpLine v s l = none := by rw [bumpLine, hl]; rfl
      rw [rewriteFirst_none hbump]
      by_cases hw : S.writes s (lineBody l) = true
      · -- the writer picks a line in which the reader finds nothing
        rw [if_pos hw, rewriteFirst_some (if_pos hw), List.cons_eq_cons]
        constructor
        · rintro ⟨heq, -⟩
          rw [h.read_of_written hw heq.symm] at hread
          cases hread
        · rintro ⟨q, hq, -⟩
          rw [hread] at hq
          cases hq
      · rw [if_neg hw, rewriteFirst_none (if_neg hw), List.cons_eq_cons, and_iff_right rfl]
        simp only [hread]
        apply ih
        rwa [scanFirst, hread] at hfound

theorem getLast?_mem {u w : Text} {c : Char} (hu : u ≠ []) (h : (w ++ u).getLast? = some c) : c ∈ u := by
  rw [List.getLast?_append_of_ne_nil _ hu] at h
  exact List.mem_of_getLast? h

theorem Lawful.keeps_written (h : S.Lawful v) (hl : '\n' ∉ lineBody l) :
    Keeps (lineBody l) (indent (lineBody l) ++ S.keyword ++ v ++ S.closing) := by
  have hassoc : indent (lineBody l) ++ S.keyword ++ v ++ S.closing =
      indent (lineBody l) ++ (S.keyword ++ v ++ S.closing) := by simp
  have hne : S.keyword ++ v ++ S.closing ≠ [] := by simp [h.ne_nil]
  rw [hassoc]
  refine ⟨by simp [h.ne_nil], ?_, ?_⟩
  · intro hmem
    rcases List.mem_append.mp hmem with hindent | hwritten
    · exact hl ((List.takeWhile_prefix _).subset hindent)
    · exact (h.plain _ hwritten).1 rfl
  · intro hlast
    exact absurd rfl (h.plain _ (getLast?_mem hne hlast)).2

theorem Lawful.keeps_bumped (h : S.Lawful v) (hl : S.locate s (lineBody l) = some (p, q, t))
    (hline : '\n' ∉ lineBody l) : Keeps (lineBody l) (p ++ v ++ t) := by
  have hv : ∀ c ∈ v, c ≠ '\n' ∧ c ≠ '\r' := fun c hc => h.plain c (by simp [hc])
  rw [h.located hl] at hline ⊢
  refine ⟨by simp [h.ne_nil], ?_, ?_⟩
  · simp only [List.mem_append, not_or] at hline ⊢
    exact ⟨⟨hline.1.1, fun hmem => (hv _ hmem).1 rfl⟩, hline.2⟩
  · intro hlast
    by_cases ht : t = []
    · subst ht
      rw [List.append_nil] at hlast
      exact absurd rfl (hv _ (getLast?_mem h.ne_nil hlast)).2
    · rw [List.getLast?_append_of_ne_nil _ ht] at hlast ⊢
      exact hlast

theorem Lawful.split_sync (h : S.Lawful v) (hls : Split ls) (s : σ) :
    Split (rewriteFirst S.nextLine (S.writeLine v) false s ls) := by
  refine rewriteFirst_split ?_ hls s
  intro s l l' hl hline
  rw [writeLine] at hl
  split at hl
  · cases hl
    exact ⟨_, rfl, h.keeps_written hline⟩
  · cases hl

theorem Lawful.split_bump (h : S.Lawful v) (hls : Split ls) (s : σ) :
    Split (rewriteFirst S.nextLine (S.bumpLine v) false s ls) := by
  refine rewriteFirst_split ?_ hls s
  intro s l l' hl hline
  obtain ⟨⟨p, q, t⟩, hloc, rfl⟩ := Option.map_eq_some_iff.mp hl
  exact ⟨_, rfl, h.keeps_bumped hloc hline⟩

/-- The reader finds the new value. -/
theorem Lawful.scan_bumped (h : S.Lawful v) (hls : Split ls) (s : σ)
    (hfound : scanFirst S.nextLine (fun s l => S.read s (lineBody l)) s ls ≠ none) :
    scanFirst S.nextLine (fun s l => S.read s (lineBody l)) s
      (rewriteFirst S.nextLine (S.bumpLine v) false s ls) = some v := by
  induction ls generalizing s with
  | nil => exact absurd rfl hfound
  | cons l ls ih =>
    cases hl : S.locate s (lineBody l) with
    | some found =>
      obtain ⟨p, q, t⟩ := found
      have hread : S.read s (lineBody (p ++ v ++ t ++ lineEol l)) = some v := by
        rw [(h.keeps_bumped hl hls.not_mem_lineBody).body]
        exact read_eq_some.mpr ⟨p, t, h.relocated hl⟩
      have hbump : S.bumpLine v s l = some (p ++ v ++ t ++ lineEol l) := by rw [bumpLine, hl]; rfl
      rw [rewriteFirst_some hbump, scanFirst, hread]
    | none =>
      have hread : S.read s (lineBody l) = none := by rw [read, hl]; rfl
      have hbump : S.bumpLine v s l = none := by rw [bumpLine, hl]; rfl
      rw [rewriteFirst_none hbump, scanFirst, hread]
      apply ih hls.tail
      rwa [scanFirst, hread] at hfound

theorem readText_eq (t : Text) : S.readText t =
    scanFirst S.nextLine (fun s l => S.read s (lineBody l)) S.start (splitInclusive t) :=
  scanFirst_map lineBody S.start (splitInclusive t)

/-- When the writer changes the value and nothing else. -/
theorem Lawful.sync_eq_bump_iff (h : S.Lawful v) {t : Text} (hfound : S.readText t ≠ none) :
    S.sync v t = S.bump v t ↔ S.Clean v S.start (splitInclusive t) := by
  have hsplit := split_splitInclusive t
  rw [readText_eq] at hfound
  rw [sync, bump, (h.split_sync hsplit S.start).flatten_inj (h.split_bump hsplit S.start)]
  exact h.rewrite_eq_iff S.start _ hfound

theorem Lawful.readText_bump (h : S.Lawful v) {t : Text} (hfound : S.readText t ≠ none) :
    S.readText (S.bump v t) = some v := by
  have hsplit := split_splitInclusive t
  rw [readText_eq] at hfound
  rw [readText_eq, bump, (h.split_bump hsplit S.start).splitInclusive_flatten]
  exact h.scan_bumped hsplit S.start hfound

end Surface

section Quoted
variable {head opening closing b p t r : Text} {q : Char}

/-- A value in quotes, on a line that starts with `head`. -/
def locateQuoted (head : Text) (q : Char) (b : Text) : Option (Text × Text × Text) :=
  if head.isPrefixOf (trimStart b) then quotedAt q b else none

theorem locateQuoted_eq_some : locateQuoted head q b = some (p, t, r) ↔
    head <+: trimStart b ∧ ∃ x y, Quoted q b x t y ∧ p = x ++ [q] ∧ r = q :: y := by
  rw [locateQuoted, ← quotedAt_eq_some]
  by_cases hhead : head <+: trimStart b
  · rw [if_pos (List.isPrefixOf_iff_prefix.mpr hhead), and_iff_right hhead]
  · rw [if_neg (fun he => hhead (List.isPrefixOf_iff_prefix.mp he))]
    exact iff_of_false (by simp) fun he => hhead he.1

/-- A line `opening q value q closing` that starts with `head`, with no other quotes. -/
structure QuotedForm (head opening : Text) (q : Char) (closing : Text) : Prop where
  black : head.head?.any (fun c => !isWhitespace c) = true
  inner : q ∉ head.dropLast
  starts : head <+: opening ++ [q]
  opening : q ∉ opening
  closing : q ∉ closing
  quote : isWhitespace q = false

/-- A text that starts with no blank is not trimmed at its start. -/
theorem trimStart_black {a : Text} (hblack : head.head?.any (fun c => !isWhitespace c) = true)
    (ha : ∀ c ∈ a, isWhitespace c = true) (z : Text) :
    trimStart (a ++ (head ++ z)) = head ++ z ∧ indent (a ++ (head ++ z)) = a := by
  cases head with
  | nil => exact absurd hblack Bool.false_ne_true
  | cons c k =>
    have hc : isWhitespace c = false := by simpa using hblack
    rw [trimStart_append ha, indent_append ha]
    simp [trimStart, indent, hc]

theorem QuotedForm.not_mem_indent (F : QuotedForm head opening q closing) (b : Text) : q ∉ indent b := by
  intro hq
  have hblank := isWhitespace_of_mem_indent hq
  rw [F.quote] at hblank
  cases hblank

/-- The head of a line ends at the first quote at the latest. -/
theorem QuotedForm.head_prefix (F : QuotedForm head opening q closing) {x y : Text}
    (hhead : head <+: trimStart b) (hb : Quoted q b x t y) : indent b ++ head <+: x ++ [q] := by
  have hlong : indent b ++ head <+: b := by
    obtain ⟨z, hz⟩ := hhead
    exact ⟨z, by rw [List.append_assoc, hz, indent_append_trimStart]⟩
  have hquote : x ++ [q] <+: b := ⟨t ++ q :: y, by rw [hb.eq]; simp⟩
  obtain hle | ⟨m, hm⟩ := List.prefix_or_prefix_of_prefix hlong hquote
  · exact hle
  · by_cases hnil : m = []
    · rw [hnil, List.append_nil] at hm
      exact hm ▸ List.prefix_refl _
    · exfalso
      have hne : head ≠ [] := by
        rintro rfl
        exact Bool.false_ne_true F.black
      have hmem : q ∈ (indent b ++ head).dropLast := by
        rw [← hm, List.dropLast_append_of_ne_nil hnil]
        simp
      rw [List.dropLast_append_of_ne_nil hne] at hmem
      rcases List.mem_append.mp hmem with hindent | hinner
      · exact F.not_mem_indent b hindent
      · exact F.inner hinner

theorem QuotedForm.relocated (F : QuotedForm head opening q closing)
    (h : locateQuoted head q b = some (p, t, r)) (u : Text) :
    locateQuoted head q (p ++ u ++ r) = some (p, u, r) := by
  obtain ⟨hhead, x, y, hb, rfl, rfl⟩ := locateQuoted_eq_some.mp h
  refine locateQuoted_eq_some.mpr ⟨?_, x, y, ⟨by simp, hb.before, hb.after⟩, rfl, rfl⟩
  obtain ⟨z, hz⟩ := F.head_prefix hhead hb
  have hline : x ++ [q] ++ u ++ q :: y = indent b ++ (head ++ (z ++ u ++ q :: y)) := by
    rw [← hz]
    simp
  rw [hline, (trimStart_black F.black (fun c => isWhitespace_of_mem_indent) _).1]
  exact List.prefix_append _ _

theorem QuotedForm.written (F : QuotedForm head opening q closing) (b u : Text) :
    Quoted q (indent b ++ (opening ++ [q]) ++ u ++ q :: closing) (indent b ++ opening) u closing := by
  refine ⟨by simp, ?_, F.closing⟩
  rw [List.mem_append]
  rintro (hindent | hopening)
  · exact F.not_mem_indent b hindent
  · exact F.opening hopening

theorem QuotedForm.rereads (F : QuotedForm head opening q closing) (b v : Text) :
    locateQuoted head q (indent b ++ (opening ++ [q]) ++ v ++ q :: closing) =
      some (indent b ++ opening ++ [q], v, q :: closing) := by
  refine locateQuoted_eq_some.mpr ⟨?_, _, _, F.written b v, rfl, rfl⟩
  obtain ⟨z, hz⟩ := F.starts
  have hline : indent b ++ (opening ++ [q]) ++ v ++ q :: closing =
      indent b ++ (head ++ (z ++ v ++ q :: closing)) := by
    rw [← hz]
    simp
  rw [hline, (trimStart_black F.black (fun c => isWhitespace_of_mem_indent) _).1]
  exact List.prefix_append _ _

theorem QuotedForm.framed (F : QuotedForm head opening q closing) {u : Text}
    (h : locateQuoted head q b = some (p, t, r))
    (heq : p ++ u ++ r = indent b ++ (opening ++ [q]) ++ u ++ q :: closing) :
    p = indent b ++ (opening ++ [q]) ∧ r = q :: closing := by
  obtain ⟨-, x, y, hb, rfl, rfl⟩ := locateQuoted_eq_some.mp h
  have hleft : Quoted q (x ++ [q] ++ u ++ q :: y) x u y := ⟨by simp, hb.before, hb.after⟩
  rw [heq] at hleft
  obtain ⟨rfl, -, rfl⟩ := hleft.unique (F.written b u)
  exact ⟨by simp, rfl⟩

/-- The surface of a quoted value, on the lines whose state is `on`. -/
def Surface.quoted (start : σ) (next : σ → Text → σ) (on : σ → Bool) (writes : σ → Text → Bool)
    (head opening : Text) (q : Char) (closing : Text) : Surface σ where
  start := start
  next := next
  locate s b := if on s then locateQuoted head q b else none
  writes := writes
  keyword := opening ++ [q]
  closing := q :: closing

@[simp] theorem Surface.quoted_locate (start : σ) (next : σ → Text → σ) (on : σ → Bool)
    (writes : σ → Text → Bool) (s : σ) (b : Text) :
    (Surface.quoted start next on writes head opening q closing).locate s b =
      if on s then locateQuoted head q b else none := rfl

theorem QuotedForm.lawful (F : QuotedForm head opening q closing) {start : σ} {next : σ → Text → σ}
    {on : σ → Bool} {writes : σ → Text → Bool} {v : Text} (hwrites : ∀ s b, writes s b = true → on s = true)
    (hne : v ≠ []) (hplain : ∀ c ∈ opening ++ [q] ++ v ++ q :: closing, c ≠ '\n' ∧ c ≠ '\r') :
    (Surface.quoted start next on writes head opening q closing).Lawful v where
  ne_nil := hne
  plain := hplain
  located := by
    intro s b p t r h
    rw [Surface.quoted_locate] at h
    split at h
    · obtain ⟨-, x, y, hb, rfl, rfl⟩ := locateQuoted_eq_some.mp h
      rw [hb.eq]
      simp
    · cases h
  relocated := by
    intro s b p t r h
    rw [Surface.quoted_locate] at h ⊢
    split at h
    · rename_i hon
      rw [if_pos hon]
      exact F.relocated h v
    · cases h
  rereads := by
    intro s b hw
    refine Surface.read_eq_some.mpr ⟨indent b ++ opening ++ [q], q :: closing, ?_⟩
    rw [Surface.quoted_locate, if_pos (hwrites s b hw)]
    exact F.rereads b v
  framed := by
    intro s b p t r u hw h heq
    rw [Surface.quoted_locate, if_pos (hwrites s b hw)] at h
    exact F.framed h heq

end Quoted

section Word
variable {head b p t r : Text}

/-- The first word behind `head`. -/
def locateWord (head b : Text) : Option (Text × Text × Text) :=
  if head.isPrefixOf (trimStart b) then
    let rest := (trimStart b).drop head.length
    some (indent b ++ head ++ indent rest, firstWord rest, afterWord rest)
  else none

theorem firstWord_append_afterWord (s : Text) : indent s ++ firstWord s ++ afterWord s = s := by
  rw [List.append_assoc, firstWord, afterWord, List.takeWhile_append_dropWhile, indent_append_trimStart]

theorem locateWord_eq_some : locateWord head b = some (p, t, r) ↔ ∃ rest, trimStart b = head ++ rest ∧
    p = indent b ++ head ++ indent rest ∧ t = firstWord rest ∧ r = afterWord rest := by
  rw [locateWord]
  by_cases hhead : head <+: trimStart b
  · rw [if_pos (List.isPrefixOf_iff_prefix.mpr hhead)]
    obtain ⟨rest, hrest⟩ := hhead
    rw [← hrest, List.drop_left]
    simp only [Option.some.injEq, Prod.mk.injEq, List.append_cancel_left_eq, exists_eq_left', eq_comm]
  · rw [if_neg (fun he => hhead (List.isPrefixOf_iff_prefix.mp he))]
    refine iff_of_false (by simp) ?_
    rintro ⟨rest, hrest, -⟩
    exact hhead ⟨rest, hrest.symm⟩

theorem locateWord_located (h : locateWord head b = some (p, t, r)) : b = p ++ t ++ r := by
  obtain ⟨rest, hrest, rfl, rfl, rfl⟩ := locateWord_eq_some.mp h
  calc b = indent b ++ (head ++ rest) := by rw [← hrest, indent_append_trimStart]
    _ = indent b ++ (head ++ (indent rest ++ firstWord rest ++ afterWord rest)) := by
      rw [firstWord_append_afterWord]
    _ = _ := by simp

/-- A word behind blanks and before a blank or the end is the first one. -/
theorem words_append {a u w : Text} (ha : ∀ c ∈ a, isWhitespace c = true)
    (hu : ∀ c ∈ u, isWhitespace c = false) (hne : u ≠ [])
    (hw : w.head?.all isWhitespace = true) :
    indent (a ++ (u ++ w)) = a ∧ firstWord (a ++ (u ++ w)) = u ∧ afterWord (a ++ (u ++ w)) = w := by
  have hblack : u.head?.any (fun c => !isWhitespace c) = true := by
    cases u with
    | nil => exact absurd rfl hne
    | cons c u => simp [hu c List.mem_cons_self]
  obtain ⟨htrim, hindent⟩ := trimStart_black hblack ha w
  have htake : (u ++ w).takeWhile (fun c => !isWhitespace c) = u := by
    rw [List.takeWhile_append_of_pos (by simpa using hu)]
    cases w with
    | nil => simp
    | cons d w =>
      have hd : isWhitespace d = true := by simpa using hw
      simp [hd]
  have hdrop : (u ++ w).dropWhile (fun c => !isWhitespace c) = w := by
    rw [List.dropWhile_append_of_pos (by simpa using hu)]
    cases w with
    | nil => rfl
    | cons d w =>
      have hd : isWhitespace d = true := by simpa using hw
      simp [hd]
  refine ⟨hindent, ?_, ?_⟩
  · rw [firstWord, htrim, htake]
  · rw [afterWord, htrim, hdrop]

theorem afterWord_head (s : Text) : (afterWord s).head?.all isWhitespace = true := by
  have hhead := List.head?_dropWhile_not (fun c => !isWhitespace c) (trimStart s)
  rw [← afterWord] at hhead
  cases hw : (afterWord s).head? with
  | none => rfl
  | some c =>
    rw [hw] at hhead
    simpa using hhead

theorem locateWord_relocated (hblack : head.head?.any (fun c => !isWhitespace c) = true) {v : Text}
    (hv : ∀ c ∈ v, isWhitespace c = false) (hne : v ≠ []) (h : locateWord head b = some (p, t, r)) :
    locateWord head (p ++ v ++ r) = some (p, v, r) := by
  obtain ⟨rest, -, rfl, rfl, rfl⟩ := locateWord_eq_some.mp h
  obtain ⟨hindent, hword, hafter⟩ := words_append (a := indent rest)
    (fun c => isWhitespace_of_mem_indent) hv hne (afterWord_head rest)
  have hline : indent b ++ head ++ indent rest ++ v ++ afterWord rest =
      indent b ++ (head ++ (indent rest ++ (v ++ afterWord rest))) := by simp
  obtain ⟨htrim, hindent'⟩ := trimStart_black hblack (a := indent b)
    (fun c => isWhitespace_of_mem_indent) (indent rest ++ (v ++ afterWord rest))
  rw [hline]
  exact locateWord_eq_some.mpr ⟨_, htrim, by rw [hindent', hindent], hword.symm, hafter.symm⟩

theorem locateWord_rereads (hblack : head.head?.any (fun c => !isWhitespace c) = true) {v : Text}
    (hv : ∀ c ∈ v, isWhitespace c = false) (hne : v ≠ []) (b : Text) :
    locateWord head (indent b ++ head ++ v) = some (indent b ++ head, v, []) := by
  obtain ⟨hindent, hword, hafter⟩ := words_append (a := []) (w := []) (by simp) hv hne rfl
  obtain ⟨htrim, hindent'⟩ := trimStart_black hblack (a := indent b)
    (fun c => isWhitespace_of_mem_indent) v
  rw [List.nil_append, List.append_nil] at hindent hword hafter
  rw [List.append_assoc]
  exact locateWord_eq_some.mpr ⟨v, htrim, by rw [hindent', hindent]; simp, hword.symm, hafter.symm⟩

/-- The first word stands right behind `head`, with nothing after it. -/
theorem locateWord_framed {u a : Text} (h : locateWord head b = some (p, t, r))
    (heq : p ++ u ++ r = a ++ head ++ u) (ha : a.length ≤ (indent b).length) :
    p = a ++ head ∧ r = [] := by
  obtain ⟨rest, -, rfl, rfl, rfl⟩ := locateWord_eq_some.mp h
  have hlength := congrArg List.length heq
  simp only [List.length_append] at hlength
  have hafter : afterWord rest = [] := List.length_eq_zero_iff.mp (by omega)
  rw [hafter, List.append_nil] at heq
  exact ⟨List.append_cancel_right heq, hafter⟩

end Word
end Rgpot.Lines
