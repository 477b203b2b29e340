import Rgpot.Potctl.Lockstep

/-! The six version lines as surfaces: what the readers look for and what the writers put there. -/
namespace Rgpot.Potctl
open Lines

/-- A version as the writers get it. -/
structure Version (v : Text) : Prop where
  digit : v.head?.any Char.isDigit = true
  chars : ∀ c ∈ v, 45 ≤ c.toNat ∧ c.toNat < 123

section Versions
variable {v : Text} {c : Char}

theorem isDigit_range (h : c.isDigit = true) : 48 ≤ c.toNat ∧ c.toNat ≤ 57 := by
  obtain ⟨hlow, hhigh⟩ := Bool.and_eq_true_iff.mp h
  exact ⟨of_decide_eq_true hlow, of_decide_eq_true hhigh⟩

theorem isUpper_range (h : c.isUpper = true) : 65 ≤ c.toNat ∧ c.toNat ≤ 90 :=
  of_decide_eq_true h

theorem isLower_range (h : c.isLower = true) : 97 ≤ c.toNat ∧ c.toNat ≤ 122 := by
  obtain ⟨hlow, hhigh⟩ := Bool.and_eq_true_iff.mp h
  exact ⟨of_decide_eq_true hlow, of_decide_eq_true hhigh⟩

theorem isAlphanum_range (h : c.isAlphanum = true) : 48 ≤ c.toNat ∧ c.toNat < 123 := by
  obtain halpha | hdigit := Bool.or_eq_true_iff.mp h
  · obtain hupper | hlower := Bool.or_eq_true_iff.mp halpha
    · have := isUpper_range hupper
      omega
    · have := isLower_range hlower
      omega
  · have := isDigit_range hdigit
    omega

/-- The groups end before the first character that is neither digit nor dot. -/
theorem dotGroups_chars {dots n : ℕ} {start : Bool} {rest : Text}
    (h : dotGroups dots start v = some (n, rest)) :
    (start = true → v.head?.any Char.isDigit = true) ∧
      ∃ front, v = front ++ rest ∧ ∀ c ∈ front, c.isDigit = true ∨ c = '.' := by
  induction v generalizing dots start with
  | nil =>
    rw [dotGroups] at h
    split at h
    · cases h
    · rename_i hstart
      cases h
      exact ⟨fun he => absurd he hstart, [], rfl, by simp⟩
  | cons c v ih =>
    rw [dotGroups] at h
    split at h
    · rename_i hc
      obtain ⟨-, front, rfl, hfront⟩ := ih h
      exact ⟨fun _ => hc, c :: front, rfl, List.forall_mem_cons.mpr ⟨.inl hc, hfront⟩⟩
    · split at h
      · cases h
      · rename_i hstart
        split at h
        · rename_i hdot
          obtain ⟨-, front, rfl, hfront⟩ := ih h
          exact ⟨fun he => absurd he hstart, c :: front, rfl,
            List.forall_mem_cons.mpr ⟨.inr hdot, hfront⟩⟩
        · cases h
          exact ⟨fun he => absurd he hstart, [], rfl, by simp⟩

/-- What `semver_ok` lets through. -/
theorem version_of_semver_ok (h : semver_ok v = true) : Version (strip_v v) := by
  unfold semver_ok at h
  cases hgroups : dotGroups 0 true (strip_v v) with
  | none =>
    rw [hgroups] at h
    cases h
  | some found =>
    obtain ⟨dots, rest⟩ := found
    obtain ⟨hdigit, front, hv, hfront⟩ := dotGroups_chars hgroups
    refine ⟨hdigit rfl, ?_⟩
    have hfront' : ∀ c ∈ front, 45 ≤ c.toNat ∧ c.toNat < 123 := by
      intro c hc
      obtain hd | rfl := hfront c hc
      · have := isDigit_range hd
        omega
      · decide
    rw [hgroups] at h
    simp only at h
    split at h
    · cases h
    · rw [hv]
      cases rest with
      | nil => simpa using hfront'
      | cons c tail =>
        simp only at h
        split at h
        · rename_i hsep
          simp only [decide_eq_true_eq, List.all_eq_true] at h
          intro d hd
          rcases List.mem_append.mp hd with hd | hd
          · exact hfront' d hd
          · rcases List.mem_cons.mp hd with rfl | hd
            · obtain rfl | rfl := hsep <;> decide
            · obtain halpha | rfl | rfl | rfl := h.2 d hd
              · have := isAlphanum_range halpha
                omega
              all_goals decide
        · cases h

theorem not_whitespace (h : 45 ≤ c.toNat ∧ c.toNat < 123) : isWhitespace c = false := by
  simp only [isWhitespace, List.mem_cons, List.not_mem_nil, or_false, decide_eq_false_iff_not]
  omega

theorem Version.ne_nil (h : Version v) : v ≠ [] := by
  rintro rfl
  exact Bool.false_ne_true h.digit

theorem Version.no_blank (h : Version v) : ∀ c ∈ v, isWhitespace c = false :=
  fun c hc => not_whitespace (h.chars c hc)

end Versions
section Lines
variable {b l : Text}

theorem isTab_whitespace {c : Char} (h : isTab c = true) : isWhitespace c = true := by
  obtain rfl | rfl := of_decide_eq_true h <;> decide

theorem isEol_whitespace {c : Char} (h : isEol c = true) : isWhitespace c = true := by
  obtain rfl | rfl := of_decide_eq_true h <;> decide

theorem isEol_lineEol : ∀ c ∈ lineEol l, isEol c = true := by
  intro c hc
  obtain hcrlf | hlf | hnil := lineEol_cases l
  · rw [hcrlf] at hc
    obtain rfl | rfl : c = '\r' ∨ c = '\n' := by simpa using hc
    all_goals decide
  · rw [hlf] at hc
    obtain rfl := List.mem_singleton.mp hc
    decide
  · rw [hnil] at hc
    cases hc

/-- A text without the characters of line ends. -/
def noEol (k : Text) : Bool := k.all fun c => !isEol c

theorem isEol_of_noEol {k : Text} (hk : noEol k = true) {c : Char} (hc : c ∈ k) : isEol c = false := by
  simpa using List.all_eq_true.mp hk c hc

theorem trim_lineBody (l : Text) : trim (lineBody l) = trim l := by
  nth_rewrite 2 [← lineBody_append_lineEol l]
  exact (trim_append fun c hc => isEol_whitespace (isEol_lineEol c hc)).symm

/-- `trim_end_matches(['\r', '\n'])` takes blanks only. -/
theorem trim_bare (l : Text) : trim (l.rdropWhile isEol) = trim l := by
  obtain ⟨w, hl, hw⟩ := exists_rdropWhile isEol l
  nth_rewrite 2 [hl]
  exact (trim_append fun c hc => isEol_whitespace (hw c hc)).symm

theorem toml_table_name_congr {l l' : Text} (h : trim l = trim l') :
    toml_table_name l = toml_table_name l' := by
  rw [toml_table_name, toml_table_name, h]

theorem line_indent_eq (s : Text) : line_indent s = indent s := by
  have hlength := congrArg List.length (indent_append_trimStart s)
  rw [List.length_append] at hlength
  calc line_indent s = s.take (indent s).length := by
        rw [line_indent]
        congr 1
        omega
    _ = (indent s ++ trimStart s).take (indent s).length := by rw [indent_append_trimStart]
    _ = indent s := List.take_left

/-- On a line that is not blank, the indentation a writer keeps is that of the line's body. -/
theorem line_indent_bare (h : trimStart (lineBody l) ≠ []) :
    line_indent (l.rdropWhile isEol) = indent (lineBody l) := by
  obtain ⟨c, r, hc⟩ := List.exists_cons_of_ne_nil h
  have hblack := trimStart_head hc
  have heol : isEol c = false := by
    cases he : isEol c with
    | false => rfl
    | true =>
      rw [isEol_whitespace he] at hblack
      cases hblack
  have hl : l = indent (lineBody l) ++ c :: (r ++ lineEol l) := by
    calc l = lineBody l ++ lineEol l := (lineBody_append_lineEol l).symm
      _ = (indent (lineBody l) ++ trimStart (lineBody l)) ++ lineEol l := by
        rw [indent_append_trimStart]
      _ = _ := by rw [hc]; simp
  rw [line_indent_eq]
  nth_rewrite 1 [hl]
  rw [rdropWhile_append_of_last heol, indent_append fun d => isWhitespace_of_mem_indent]
  simp [indent, hblack]

/-- A line end behind a text does not make it start otherwise. -/
theorem prefix_lineEol {k d : Text} (hk : noEol k = true) :
    k <+: d ++ lineEol l ↔ k <+: d := by
  constructor
  · intro h
    obtain hle | ⟨m, rfl⟩ := List.prefix_or_prefix_of_prefix h (List.prefix_append d (lineEol l))
    · exact hle
    · have hm := (List.prefix_append_right_inj d).mp h
      cases m with
      | nil => simp
      | cons c m =>
        have hc := isEol_lineEol c (hm.subset List.mem_cons_self)
        rw [isEol_of_noEol hk (by simp)] at hc
        cases hc
  · exact fun h => h.trans (List.prefix_append _ _)

theorem dropWhile_lineEol {p : Char → Bool} (hp : ∀ c, isEol c = true → p c = false) (l : Text) :
    l.dropWhile p = (lineBody l).dropWhile p ++ lineEol l := by
  have hend : (lineEol l).dropWhile p = lineEol l := by
    cases he : lineEol l with
    | nil => rfl
    | cons c e =>
      have hc : isEol c = true := isEol_lineEol (l := l) c (by rw [he]; exact List.mem_cons_self)
      simp [hp c hc]
  nth_rewrite 1 [← lineBody_append_lineEol l]
  rw [List.dropWhile_append]
  split
  · rename_i hempty
    rw [hend, List.isEmpty_iff.mp hempty, List.nil_append]
  · rfl

theorem isTab_of_isEol {c : Char} (h : isEol c = true) : isTab c = false := by
  obtain rfl | rfl := of_decide_eq_true h <;> decide

/-- A line that starts with `k` behind spaces and tabs starts with it behind blanks. -/
theorem trimStart_of_tab {k : Text} (hk : k.head?.any (fun c => !isWhitespace c) = true)
    (h : k <+: b.dropWhile isTab) : trimStart b = b.dropWhile isTab := by
  obtain ⟨r, hr⟩ := h
  have htabs : ∀ c ∈ b.takeWhile isTab, isWhitespace c = true :=
    fun c hc => isTab_whitespace (List.mem_takeWhile_imp hc)
  have hb : b.takeWhile isTab ++ (k ++ r) = b := by
    rw [hr]
    exact List.takeWhile_append_dropWhile
  have htrim := (trimStart_black hk htabs r).1
  rw [hb, hr] at htrim
  exact htrim

end Lines

section Surfaces

theorem between_eq (q : Char) (s : Text) : between q s = (quotedAt q s).map fun l => l.2.1 := by
  simp only [between, quotedAt, Option.bind_eq_bind]
  cases find q s with
  | none => rfl
  | some a =>
    cases rfind q s with
    | none => rfl
    | some i =>
      simp only [Option.bind_some, gt_iff_lt]
      split <;> rfl

/-- Trimming does not change what is quoted. -/
theorem between_trim {q : Char} (hq : isWhitespace q = false) (b : Text) :
    between q (trim b) = (quotedAt q b).map fun l => l.2.1 := by
  obtain ⟨w, hs, hw⟩ := exists_rdropWhile isWhitespace (trimStart b)
  have hblank : ∀ {a : Text}, (∀ c ∈ a, isWhitespace c = true) → q ∉ a := by
    intro a ha hmem
    rw [ha q hmem] at hq
    cases hq
  have hb : b = indent b ++ trim b ++ w := by
    rw [List.append_assoc, trim, trimEnd, ← hs, indent_append_trimStart]
  have hwide := quotedAt_append (s := trim b) (hblank fun c => isWhitespace_of_mem_indent (s := b))
    (hblank hw)
  rw [← hb] at hwide
  rw [between_eq, hwide, Option.map_map]
  rfl

/-- A reader of a quoted value reads where `locateQuoted` finds it. -/
theorem read_quoted {k : Text} {c q : Char} (hc : isWhitespace c = false) (hq : isWhitespace q = false)
    (b : Text) : (if (k ++ [c]).isPrefixOf (trim b) then between q (trim b) else none) =
      (locateQuoted (k ++ [c]) q b).map fun l => l.2.1 := by
  rw [between_trim hq, locateQuoted]
  by_cases hhead : k ++ [c] <+: trimStart b
  · rw [if_pos (List.isPrefixOf_iff_prefix.mpr ((prefix_trim hc).mpr hhead)),
      if_pos (List.isPrefixOf_iff_prefix.mpr hhead)]
  · rw [if_neg (fun he => hhead ((prefix_trim hc).mp (List.isPrefixOf_iff_prefix.mp he))),
      if_neg (fun he => hhead (List.isPrefixOf_iff_prefix.mp he))]
    rfl

def mesonSurface : Surface Unit :=
  .quoted () (fun _ _ => ()) (fun _ => true) (fun _ b => "version:".toList.isPrefixOf (b.dropWhile isTab))
    "version:".toList "version: ".toList '\x27' ",".toList

def tomlSurface : Surface Unit :=
  .quoted () (fun _ _ => ()) (fun _ => true)
    (fun _ b => "version = \"".toList.isPrefixOf (trimStart b))
    "version = \"".toList "version = ".toList '\x22' []

def sectionSurface (name : Text) : Surface Bool :=
  .quoted false (in_section name) id
    (fun here b => here && "version = \"".toList.isPrefixOf (trimStart b))
    "version = \"".toList "version = ".toList '\x22' []

def cmakeSurface : Surface Unit where
  start := ()
  next _ _ := ()
  locate _ b := (locateWord "VERSION ".toList b).filter fun l => l.2.1.head?.any Char.isDigit
  writes _ b := "VERSION ".toList.isPrefixOf (b.dropWhile isTab) &&
    (firstWord ((b.dropWhile isTab).drop "VERSION ".toList.length)).head?.any Char.isDigit
  keyword := "VERSION ".toList
  closing := []

theorem meson_form : QuotedForm "version:".toList "version: ".toList '\x27' ",".toList := by
  constructor <;> decide

theorem toml_form : QuotedForm "version = \"".toList "version = ".toList '\x22' [] := by
  constructor <;> decide

theorem meson_version_eq (b : Text) : meson_version b = mesonSurface.read () b :=
  read_quoted (k := "version".toList) (c := ':') (q := '\x27') (by decide) (by decide) b

theorem toml_version_eq (b : Text) : toml_version b = tomlSurface.read () b :=
  read_quoted (k := "version = ".toList) (c := '\x22') (q := '\x22') (by decide) (by decide) b

theorem strip_prefix_eq_some {k s r : Text} : strip_prefix k s = some r ↔ s = k ++ r := by
  unfold strip_prefix
  by_cases hk : k <+: s
  · rw [if_pos (List.isPrefixOf_iff_prefix.mpr hk)]
    obtain ⟨z, rfl⟩ := hk
    rw [List.drop_left, Option.some.injEq, List.append_cancel_left_eq]
  · rw [if_neg (fun he => hk (List.isPrefixOf_iff_prefix.mp he))]
    refine iff_of_false (by simp) ?_
    rintro rfl
    exact hk (List.prefix_append _ _)

theorem strip_prefix_eq_none {k s : Text} : strip_prefix k s = none ↔ ¬ k <+: s := by
  unfold strip_prefix
  rw [ite_eq_right_iff, ← List.isPrefixOf_iff_prefix]
  simp

theorem cmakeSurface_read (b : Text) : cmakeSurface.read () b =
    ((locateWord "VERSION ".toList b).filter fun l => l.2.1.head?.any Char.isDigit).map fun l => l.2.1 := rfl

/-- Trimming the end does not change the word behind the keyword, and takes no keyword before a word. -/
theorem cmake_version_eq (b : Text) : cmake_version b = cmakeSurface.read () b := by
  obtain ⟨w, hs, hw⟩ := exists_rdropWhile isWhitespace (trimStart b)
  have hstart : trimStart b = trim b ++ w := hs
  rw [cmake_version, cmakeSurface_read]
  cases hstrip : strip_prefix "VERSION ".toList (trim b) with
  | some rest =>
    have hb : trimStart b = "VERSION ".toList ++ (rest ++ w) := by
      rw [hstart, strip_prefix_eq_some.mp hstrip, List.append_assoc]
    have hloc := locateWord_eq_some.mpr ⟨rest ++ w, hb, rfl, rfl, rfl⟩
    simp only [hloc, firstWord_append hw, Option.filter_some, Option.bind_eq_bind, Option.bind_some]
    split <;> rfl
  | none =>
    cases hloc : locateWord "VERSION ".toList b with
    | none =>
      simp only [Option.filter_none, Option.map_none, Option.bind_eq_bind, Option.bind_none]
    | some found =>
      obtain ⟨p, v, r⟩ := found
      obtain ⟨rest, hb, -, rfl, -⟩ := locateWord_eq_some.mp hloc
      have hword : (firstWord rest).head?.any Char.isDigit = false := by
        cases hv : firstWord rest with
        | nil => rfl
        | cons d v =>
          exfalso
          apply strip_prefix_eq_none.mp hstrip
          have hd : trimStart rest = d :: (v ++ afterWord rest) := by
            have hrest := firstWord_append_afterWord rest
            rw [List.append_assoc, hv] at hrest
            exact List.append_cancel_left ((indent_append_trimStart rest).trans hrest.symm)
          have hline : trimStart b = "VERSION ".toList ++ indent rest ++ d :: (v ++ afterWord rest) := by
            rw [hb, List.append_assoc, ← hd, indent_append_trimStart]
          rw [trim, hline, trimEnd, rdropWhile_append_of_last (trimStart_head hd)]
          exact ⟨_, (List.append_assoc _ _ _).symm⟩
      simp only [hword, Option.filter_some, Option.bind_eq_bind, Option.bind_none, Bool.false_eq_true,
        if_false, Option.map_none]

/-- A line that starts with `version` is no table header. -/
theorem toml_table_name_eq_none {k b : Text} {c : Char} (hk : 'v' :: k ++ [c] <+: trimStart b)
    (hc : isWhitespace c = false) : toml_table_name b = none := by
  obtain ⟨r, hr⟩ := (prefix_trim hc).mpr hk
  have hnone : strip_prefix ['['] (trim b) = none := by
    rw [strip_prefix_eq_none, ← hr]
    rintro ⟨z, hz⟩
    cases hz
  rw [toml_table_name, hnone]
  rfl

theorem toml_table_name_of_version {b : Text} (h : "version = \"".toList <+: trimStart b) :
    toml_table_name b = none :=
  toml_table_name_eq_none (k := "ersion = ".toList) (c := '\x22') h (by decide)

theorem section_version_eq (name : Text) (here : Bool) (b : Text) :
    (if (toml_table_name b).isSome then none else if here then toml_version b else none) =
      (sectionSurface name).read here b := by
  rw [Surface.read, sectionSurface, Surface.quoted_locate]
  cases here with
  | false => simp
  | true =>
    have hread : toml_version b = (locateQuoted "version = \"".toList '\x22' b).map fun l => l.2.1 :=
      toml_version_eq b
    simp only [hread, id, if_true]
    by_cases hhead : "version = \"".toList <+: trimStart b
    · rw [toml_table_name_of_version hhead]
      rfl
    · have hnone : locateQuoted "version = \"".toList '\x22' b = none := by
        rw [locateQuoted, if_neg fun he => hhead (List.isPrefixOf_iff_prefix.mp he)]
      rw [hnone]
      simp

/-- A writer that looks behind spaces and tabs looks at the line's body. -/
theorem isPrefixOf_tab {k : Text} (hk : noEol k = true) (l : Text) :
    k.isPrefixOf (l.dropWhile isTab) = k.isPrefixOf ((lineBody l).dropWhile isTab) := by
  rw [Bool.eq_iff_iff, List.isPrefixOf_iff_prefix, List.isPrefixOf_iff_prefix,
    dropWhile_lineEol (fun c => isTab_of_isEol) l, prefix_lineEol hk]

theorem written_tab {k : Text} (hk : k.head?.any (fun c => !isWhitespace c) = true) {l : Text}
    (h : k.isPrefixOf ((lineBody l).dropWhile isTab) = true) :
    line_indent (l.rdropWhile isEol) = indent (lineBody l) := by
  have hstarts := List.isPrefixOf_iff_prefix.mp h
  apply line_indent_bare
  rw [trimStart_of_tab hk hstarts]
  intro hnil
  rw [hnil, List.prefix_nil] at hstarts
  rw [hstarts] at hk
  exact Bool.false_ne_true hk

theorem meson_line_eq (v l : Text) : meson_line v l = mesonSurface.writeLine v () l := by
  rw [meson_line, Surface.writeLine, isPrefixOf_tab (by decide) l]
  change (if _ then _ else _) = if "version:".toList.isPrefixOf ((lineBody l).dropWhile isTab) then _ else _
  by_cases hw : "version:".toList.isPrefixOf ((lineBody l).dropWhile isTab) = true
  · rw [if_pos hw, if_pos hw, written_tab (by decide) hw]
    simp [Surface.written, mesonSurface, Surface.quoted]
  · rw [if_neg hw, if_neg hw]

theorem toml_line_eq (v l : Text) : toml_line v l = tomlSurface.writeLine v () l := by
  have hpicks : "version = \"".toList.isPrefixOf (trim l) =
      "version = \"".toList.isPrefixOf (trimStart (lineBody l)) := by
    rw [Bool.eq_iff_iff, List.isPrefixOf_iff_prefix, List.isPrefixOf_iff_prefix, ← trim_lineBody]
    exact prefix_trim (k := "version = ".toList) (c := '\x22') (by decide)
  rw [toml_line, Surface.writeLine, hpicks]
  change (if _ then _ else _) = if "version = \"".toList.isPrefixOf (trimStart (lineBody l)) then _ else _
  by_cases hw : "version = \"".toList.isPrefixOf (trimStart (lineBody l)) = true
  · have hne : trimStart (lineBody l) ≠ [] := by
      intro hnil
      rw [hnil] at hw
      cases hw
    rw [if_pos hw, if_pos hw, line_indent_bare hne]
    simp [Surface.written, tomlSurface, Surface.quoted]
  · rw [if_neg hw, if_neg hw]

theorem cmake_line_eq (v l : Text) : cmake_line v l = cmakeSurface.writeLine v () l := by
  rw [cmake_line, Surface.writeLine, dropWhile_lineEol (fun c => isTab_of_isEol) l]
  change _ = if ("VERSION ".toList.isPrefixOf ((lineBody l).dropWhile isTab) && _) = true then _ else _
  by_cases hw : "VERSION ".toList <+: (lineBody l).dropWhile isTab
  · have hbody := List.isPrefixOf_iff_prefix.mpr hw
    obtain ⟨rest, hrest⟩ := hw
    have hstrip : strip_prefix "VERSION ".toList ((lineBody l).dropWhile isTab ++ lineEol l) =
        some (rest ++ lineEol l) := by
      rw [strip_prefix_eq_some, ← hrest, List.append_assoc]
    have hword : firstWord (rest ++ lineEol l) = firstWord rest :=
      firstWord_append fun c hc => isEol_whitespace (isEol_lineEol c hc)
    have hdrop : ((lineBody l).dropWhile isTab).drop "VERSION ".toList.length = rest := by
      rw [← hrest, List.drop_left]
    simp only [hstrip, hword, hbody, hdrop, Bool.true_and]
    split
    · rw [written_tab (by decide) hbody]
      simp [Surface.written, cmakeSurface]
    · rfl
  · have hstrip : strip_prefix "VERSION ".toList ((lineBody l).dropWhile isTab ++ lineEol l) = none := by
      rw [strip_prefix_eq_none, prefix_lineEol (by decide)]
      exact hw
    have hbody : "VERSION ".toList.isPrefixOf ((lineBody l).dropWhile isTab) = false :=
      Bool.eq_false_iff.mpr fun he => hw (List.isPrefixOf_iff_prefix.mp he)
    simp only [hstrip, hbody, Bool.false_and, Bool.false_eq_true, if_false]

theorem section_line_eq (name v : Text) (here : Bool) (l : Text) :
    (if (toml_table_name (l.rdropWhile isEol)).isSome then none
      else if here ∧ "version = \"".toList.isPrefixOf (trim (l.rdropWhile isEol)) then
        some (line_indent (l.rdropWhile isEol) ++ ("version = \"".toList ++ v ++ "\"".toList) ++ lineEol l)
      else none) = (sectionSurface name).writeLine v here l := by
  have hline : (if "version = \"".toList.isPrefixOf (trim l) then
      some (line_indent (l.rdropWhile isEol) ++ ("version = \"".toList ++ v ++ "\"".toList) ++ lineEol l)
      else none) = tomlSurface.writeLine v () l := toml_line_eq v l
  have htable : toml_table_name (l.rdropWhile isEol) = toml_table_name (lineBody l) :=
    toml_table_name_congr ((trim_bare l).trans (trim_lineBody l).symm)
  rw [trim_bare, htable]
  cases here with
  | false =>
    have hoff : (sectionSurface name).writeLine v false l = none := rfl
    rw [hoff]
    simp
  | true =>
    have hon : (sectionSurface name).writeLine v true l = tomlSurface.writeLine v () l := by
      rw [Surface.writeLine, Surface.writeLine, sectionSurface, tomlSurface]
      rfl
    simp only [true_and, hline, hon]
    by_cases hhead : "version = \"".toList <+: trimStart (lineBody l)
    · rw [toml_table_name_of_version hhead]
      rfl
    · have hnone : tomlSurface.writeLine v () l = none :=
        if_neg fun he => hhead (List.isPrefixOf_iff_prefix.mp he)
      rw [hnone, ite_self]

end Surfaces

section Texts
variable (v t : Text)

theorem first_meson_version (t : Text) : first_version meson_version t = mesonSurface.readText t := by
  rw [first_version, Surface.readText, funext meson_version_eq]

theorem first_cmake_version (t : Text) : first_version cmake_version t = cmakeSurface.readText t := by
  rw [first_version, Surface.readText, funext cmake_version_eq]

theorem first_toml_version (t : Text) : first_version toml_version t = tomlSurface.readText t := by
  rw [first_version, Surface.readText, funext toml_version_eq]

theorem toml_section_version_eq (name : Text) :
    toml_section_version t name = (sectionSurface name).readText t := by
  rw [toml_section_version, Surface.readText, funext₂ (section_version_eq name)]
  rfl

theorem replace_first_meson_version_eq : replace_first_meson_version t v = mesonSurface.sync v t := by
  rw [replace_first_meson_version, replace_first, Surface.sync, funext (meson_line_eq v)]

theorem replace_first_cmake_version_eq : replace_first_cmake_version t v = cmakeSurface.sync v t := by
  rw [replace_first_cmake_version, replace_first, Surface.sync, funext (cmake_line_eq v)]

theorem replace_first_toml_version_line_eq :
    replace_first_toml_version_line t v = tomlSurface.sync v t := by
  rw [replace_first_toml_version_line, replace_first, Surface.sync, funext (toml_line_eq v)]

theorem replace_toml_section_version_line_eq (name : Text) :
    replace_toml_section_version_line t name v = (sectionSurface name).sync v t := by
  have hnext : (fun here line => in_section name here (line.rdropWhile isEol)) =
      (sectionSurface name).nextLine := by
    funext here l
    have htable : toml_table_name (l.rdropWhile isEol) = toml_table_name (lineBody l) :=
      toml_table_name_congr ((trim_bare l).trans (trim_lineBody l).symm)
    rw [in_section, htable]
    rfl
  rw [replace_toml_section_version_line, Surface.sync, funext₂ (section_line_eq name v), hnext]
  rfl

end Texts

section Laws
variable {v : Text}

theorem Version.plain (h : Version v) {a z : Text} (ha : noEol a = true) (hz : noEol z = true) :
    ∀ c ∈ a ++ v ++ z, c ≠ '\n' ∧ c ≠ '\r' := by
  have hsplit : ∀ c, isEol c = false → c ≠ '\n' ∧ c ≠ '\r' := by
    intro c hc
    simp only [isEol, decide_eq_false_iff_not, not_or] at hc
    exact hc.symm
  intro c hc
  rcases List.mem_append.mp hc with hc | hc
  · rcases List.mem_append.mp hc with hc | hc
    · exact hsplit c (isEol_of_noEol ha hc)
    · have hrange := h.chars c hc
      constructor
      · rintro rfl
        exact absurd hrange.1 (by decide)
      · rintro rfl
        exact absurd hrange.1 (by decide)
  · exact hsplit c (isEol_of_noEol hz hc)

theorem mesonSurface_lawful (h : Version v) : mesonSurface.Lawful v :=
  meson_form.lawful (fun _ _ _ => rfl) h.ne_nil (h.plain (by decide) (by decide))

theorem tomlSurface_lawful (h : Version v) : tomlSurface.Lawful v :=
  toml_form.lawful (fun _ _ _ => rfl) h.ne_nil (h.plain (by decide) (by decide))

theorem sectionSurface_lawful (name : Text) (h : Version v) : (sectionSurface name).Lawful v :=
  toml_form.lawful (fun _ _ hw => (Bool.and_eq_true_iff.mp hw).1) h.ne_nil
    (h.plain (by decide) (by decide))

theorem cmakeSurface_locate {s : Unit} {b p q r : Text} :
    cmakeSurface.locate s b = some (p, q, r) ↔
      locateWord "VERSION ".toList b = some (p, q, r) ∧ q.head?.any Char.isDigit = true :=
  Option.filter_eq_some_iff

theorem cmake_black : ("VERSION ".toList).head?.any (fun c => !isWhitespace c) = true := by decide

theorem cmakeSurface_lawful (h : Version v) : cmakeSurface.Lawful v where
  ne_nil := h.ne_nil
  plain := h.plain (by decide) (by decide)
  located hloc := locateWord_located (cmakeSurface_locate.mp hloc).1
  relocated hloc := cmakeSurface_locate.mpr
    ⟨locateWord_relocated (by decide) h.no_blank h.ne_nil (cmakeSurface_locate.mp hloc).1, h.digit⟩
  rereads := by
    intro s b _
    have hloc := locateWord_rereads cmake_black h.no_blank h.ne_nil b
    refine Surface.read_eq_some.mpr ⟨indent b ++ "VERSION ".toList, [], ?_⟩
    rw [show cmakeSurface.closing = [] from rfl, List.append_nil]
    exact cmakeSurface_locate.mpr ⟨hloc, h.digit⟩
  framed := by
    intro s b p q r u _ hloc heq
    rw [show cmakeSurface.closing = [] from rfl, List.append_nil] at heq
    exact locateWord_framed (cmakeSurface_locate.mp hloc).1 heq le_rfl

end Laws
end Rgpot.Potctl
