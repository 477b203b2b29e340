import Rgpot.Potctl.Surfaces

/-! When a version bump changes the versions of a release tree and nothing else. -/
namespace Rgpot.Potctl
open Lines

section Header
variable {version : Text} {m : Text × Text}

/-- The value in what follows a macro's name, with the texts around it: from the first quote to the last
one for the version string, else the first word. -/
def macro_value (quoted : Bool) (rest : Text) : Text × Text × Text :=
  match if quoted then quotedAt '\x22' rest else none with
  | some (p, t, r) => (p.dropLast, '\x22' :: t ++ ['\x22'], r.tail)
  | none => (indent rest, firstWord rest, afterWord rest)

/-- A macro line as its value and the texts around it. -/
def macro_parts (name body : Text) : Text × Text × Text :=
  let (p, t, r) := macro_value (name = "#define RGPOT_VERSION ".toList) ((trimStart body).drop name.length)
  (indent body ++ name ++ p, t, r)

/-- The macro that a line defines, with its value for `version`. -/
def macro_of (version line : Text) : Option (Text × Text) :=
  (header_macros version).find? fun m => m.1.isPrefixOf (trimStart (lineBody line))

/-- A macro line with its value replaced. -/
def bump_header_line (version line : Text) : Text :=
  match macro_of version line with
  | some m => (macro_parts m.1 (lineBody line)).1 ++ m.2 ++ (macro_parts m.1 (lineBody line)).2.2 ++ lineEol line
  | none => line

def bump_header (version text : Text) : Text :=
  ((splitInclusive text).map (bump_header_line version)).flatten

/-- Every macro line is the macro's name and its value, with nothing before, between or behind. -/
def HeaderClean (version text : Text) : Prop :=
  ∀ line ∈ splitInclusive text, ∀ m, macro_of version line = some m →
    lineBody line = m.1 ++ (macro_parts m.1 (lineBody line)).2.1

theorem macro_value_eq (quoted : Bool) (rest : Text) :
    (macro_value quoted rest).1 ++ (macro_value quoted rest).2.1 ++ (macro_value quoted rest).2.2 = rest := by
  rw [macro_value]
  cases hq : if quoted then quotedAt '\x22' rest else none with
  | none => exact firstWord_append_afterWord rest
  | some found =>
    obtain ⟨p, t, r⟩ := found
    cases quoted with
    | false => cases hq
    | true =>
      rw [if_pos rfl] at hq
      obtain ⟨x, y, hquoted, rfl, rfl⟩ := quotedAt_eq_some.mp hq
      rw [hquoted.eq]
      simp

theorem macro_parts_eq {name body : Text} (h : name <+: trimStart body) :
    (macro_parts name body).1 ++ (macro_parts name body).2.1 ++ (macro_parts name body).2.2 = body := by
  obtain ⟨rest, hrest⟩ := h
  have hvalue := macro_value_eq (name = "#define RGPOT_VERSION ".toList) rest
  rw [macro_parts, ← hrest, List.drop_left]
  simp only [List.append_assoc] at hvalue ⊢
  rw [hvalue, hrest, indent_append_trimStart]

theorem macro_of_eq_some {line : Text} (h : macro_of version line = some m) :
    m ∈ header_macros version ∧ m.1 <+: trimStart (lineBody line) :=
  ⟨List.mem_of_find?_eq_some h, by simpa using List.find?_some h⟩

/-- Dropping what stands around a value changes nothing only where nothing stands there. -/
theorem framed_iff {name p t r b u e : Text} (hparts : p ++ t ++ r = b) (hname : name.length ≤ p.length) :
    name ++ u ++ e = p ++ u ++ r ++ e ↔ b = name ++ t := by
  constructor
  · intro heq
    have hlength := congrArg List.length heq
    simp only [List.length_append] at hlength
    have hr : r = [] := List.length_eq_zero_iff.mp (by omega)
    rw [hr, List.append_nil] at heq hparts
    rw [← hparts, List.append_cancel_right (List.append_cancel_right heq)]
  · intro hbody
    have hlength := congrArg List.length (hparts.trans hbody)
    simp only [List.length_append] at hlength
    have hr : r = [] := List.length_eq_zero_iff.mp (by omega)
    rw [hr, List.append_nil] at hparts ⊢
    rw [List.append_cancel_right (hparts.trans hbody)]

theorem name_length_le (name body : Text) : name.length ≤ (macro_parts name body).1.length := by
  rw [macro_parts]
  simp only [List.length_append]
  omega

theorem header_line_length_le (line : Text) :
    (header_line version line).length ≤ (bump_header_line version line).length := by
  rw [header_line, ← macro_of, bump_header_line]
  cases macro_of version line with
  | none => exact le_rfl
  | some m =>
    have hname := name_length_le m.1 (lineBody line)
    simp only [List.length_append]
    omega

/-- The writer keeps the value's place only on lines that are name and value. -/
theorem header_line_eq_iff (line : Text) : header_line version line = bump_header_line version line ↔
    ∀ m, macro_of version line = some m →
      lineBody line = m.1 ++ (macro_parts m.1 (lineBody line)).2.1 := by
  rw [header_line, ← macro_of, bump_header_line]
  cases hm : macro_of version line with
  | none => simp
  | some m =>
    simp only [Option.some.injEq, forall_eq']
    exact framed_iff (macro_parts_eq (macro_of_eq_some hm).2) (name_length_le m.1 (lineBody line))

theorem replace_header_eq_iff (text : Text) :
    replace_header_versions text version = bump_header version text ↔ HeaderClean version text := by
  rw [replace_header_versions, bump_header, flatten_map_eq_iff fun l _ => header_line_length_le l]
  exact forall₂_congr fun l _ => header_line_eq_iff l

theorem mem_of_mem_splitOn {s : Text} {c d : Char} {part : Text} (hpart : part ∈ s.splitOn d)
    (hc : c ∈ part) : c ∈ s := by
  induction s generalizing part with
  | nil =>
    rw [List.splitOn_nil, List.mem_singleton] at hpart
    rw [hpart] at hc
    cases hc
  | cons e s ih =>
    rw [List.splitOn_cons_eq_if_modifyHead] at hpart
    split at hpart
    · rcases List.mem_cons.mp hpart with rfl | hpart
      · cases hc
      · exact List.mem_cons_of_mem _ (ih hpart hc)
    · obtain ⟨first, others, hs⟩ := List.exists_cons_of_ne_nil (List.splitOn_ne_nil d s)
      rw [hs] at hpart ih
      rcases List.mem_cons.mp hpart with rfl | hpart
      · rcases List.mem_cons.mp hc with rfl | hc
        · exact List.mem_cons_self
        · exact List.mem_cons_of_mem _ (ih List.mem_cons_self hc)
      · exact List.mem_cons_of_mem _ (ih (List.mem_cons_of_mem _ hpart) hc)

def macro_names : List Text :=
  ["#define RGPOT_VERSION_MAJOR ".toList, "#define RGPOT_VERSION_MINOR ".toList,
    "#define RGPOT_VERSION_PATCH ".toList, "#define RGPOT_VERSION ".toList]

theorem header_macros_names (version : Text) : (header_macros version).map Prod.fst = macro_names := rfl

theorem macro_name_mem (hm : m ∈ header_macros version) : m.1 ∈ macro_names := by
  rw [← header_macros_names version]
  exact List.mem_map_of_mem hm

theorem macro_names_plain : ∀ k ∈ macro_names, k ≠ [] ∧ noEol k = true := by decide

theorem Version.number (hv : Version version) (i : ℕ) :
    ∀ c ∈ ((version.takeWhile fun c => c ≠ '-' ∧ c ≠ '+').splitOn '.').getD i ['0'], 34 ≤ c.toNat := by
  intro c hc
  rw [List.getD_eq_getElem?_getD] at hc
  cases hpart : ((version.takeWhile fun c => c ≠ '-' ∧ c ≠ '+').splitOn '.')[i]? with
  | none =>
    rw [hpart] at hc
    obtain rfl := List.mem_singleton.mp hc
    decide
  | some part =>
    rw [hpart] at hc
    have hcore := mem_of_mem_splitOn (List.mem_of_getElem? hpart) hc
    exact le_trans (by omega) (hv.chars c ((List.takeWhile_prefix _).subset hcore)).1

/-- The values are made of the characters of versions, and quotes. -/
theorem header_macros_value (hv : Version version) (hm : m ∈ header_macros version) :
    ∀ c ∈ m.2, 34 ≤ c.toNat := by
  simp only [header_macros, List.mem_cons, List.not_mem_nil, or_false] at hm
  obtain rfl | rfl | rfl | rfl := hm
  · exact hv.number 0
  · exact hv.number 1
  · exact hv.number 2
  · intro c hc
    rcases List.mem_append.mp hc with hc | hc
    · rcases List.mem_append.mp hc with hc | hc
      · obtain rfl := List.mem_singleton.mp hc
        decide
      · exact le_trans (by omega) (hv.chars c hc).1
    · obtain rfl := List.mem_singleton.mp hc
      decide

theorem header_line_keeps (hv : Version version) (hm : m ∈ header_macros version) (b : Text) :
    Keeps b (m.1 ++ m.2) := by
  obtain ⟨hne, hname⟩ := macro_names_plain m.1 (macro_name_mem hm)
  have hplain : ∀ c ∈ m.1 ++ m.2, c ≠ '\n' ∧ c ≠ '\r' := by
    intro c hc
    rcases List.mem_append.mp hc with hc | hc
    · have heol := isEol_of_noEol hname hc
      simp only [isEol, decide_eq_false_iff_not, not_or] at heol
      exact heol.symm
    · have hrange := header_macros_value hv hm c hc
      constructor
      · rintro rfl
        exact absurd hrange (by decide)
      · rintro rfl
        exact absurd hrange (by decide)
  refine ⟨by simp [hne], fun hc => (hplain _ hc).1 rfl, ?_⟩
  intro hlast
  exact absurd rfl (hplain _ (List.mem_of_getLast? hlast)).2

theorem header_version_eq_none {l : Text} (h : ¬ "#define RGPOT_VERSION ".toList <+: trimStart l) :
    header_version l = none := by
  rw [header_version, strip_prefix_eq_none.mpr h]
  rfl

theorem macro_black : ∀ k ∈ macro_names, k.head?.any (fun c => !isWhitespace c) = true := by decide

theorem macro_trim (hm : m ∈ header_macros version) : trimStart (m.1 ++ m.2) = m.1 ++ m.2 :=
  (trimStart_black (a := []) (macro_black m.1 (macro_name_mem hm)) (by simp) m.2).1

theorem macro_names_apart : ∀ k ∈ macro_names, k ≠ "#define RGPOT_VERSION ".toList →
    ¬ "#define RGPOT_VERSION ".toList <+: k ∧ ¬ k <+: "#define RGPOT_VERSION ".toList := by decide

theorem macro_apart (hm : m ∈ header_macros version) (hname : m.1 ≠ "#define RGPOT_VERSION ".toList)
    {s : Text} (hs : m.1 <+: s) : ¬ "#define RGPOT_VERSION ".toList <+: s := by
  intro hstarts
  obtain ⟨hleft, hright⟩ := macro_names_apart m.1 (macro_name_mem hm) hname
  exact (List.prefix_or_prefix_of_prefix hstarts hs).elim hleft hright

/-- The numbers are in macros of other names. -/
theorem header_number_unread (hm : m ∈ header_macros version) (hname : m.1 ≠ "#define RGPOT_VERSION ".toList) :
    header_version (m.1 ++ m.2) = none := by
  apply header_version_eq_none
  rw [macro_trim hm]
  exact macro_apart hm hname (List.prefix_append m.1 m.2)

theorem header_string (hm : m ∈ header_macros version) (hname : m.1 = "#define RGPOT_VERSION ".toList) :
    m.2 = "\"".toList ++ version ++ "\"".toList := by
  simp only [header_macros, List.mem_cons, List.not_mem_nil, or_false] at hm
  obtain rfl | rfl | rfl | rfl := hm
  · exact absurd hname (show "#define RGPOT_VERSION_MAJOR ".toList ≠ _ by decide)
  · exact absurd hname (show "#define RGPOT_VERSION_MINOR ".toList ≠ _ by decide)
  · exact absurd hname (show "#define RGPOT_VERSION_PATCH ".toList ≠ _ by decide)
  · rfl

theorem header_version_read (version : Text) :
    header_version ("#define RGPOT_VERSION ".toList ++ ("\"".toList ++ version ++ "\"".toList)) =
      between_quotes ("\"".toList ++ version ++ "\"".toList) := by
  have hblack := macro_black "#define RGPOT_VERSION ".toList (by decide)
  rw [header_version, ← List.nil_append ("#define RGPOT_VERSION ".toList ++ _),
    (trimStart_black hblack (a := []) (by simp) _).1, strip_prefix_eq_some.mpr rfl]
  rfl

theorem between_quoted (version : Text) :
    between_quotes ("\"".toList ++ version ++ "\"".toList) = some version := by
  have hquoted : Quoted '\x22' ("\"".toList ++ version ++ "\"".toList) [] version [] :=
    ⟨by simp, by simp, by simp⟩
  rw [between_quotes, between_eq, hquoted.quotedAt]
  rfl

/-- A rewritten header shows the new version on the lines of the version macro, and no other version. -/
theorem header_version_line (hv : Version version) (l : Text) :
    header_version (lineBody (header_line version l)) =
      if "#define RGPOT_VERSION ".toList <+: trimStart (lineBody l) then some version else none := by
  cases hm : macro_of version l with
  | none =>
    have hline : header_line version l = l := by rw [header_line, ← macro_of, hm]
    have hver : ¬ "#define RGPOT_VERSION ".toList <+: trimStart (lineBody l) := by
      intro hstarts
      have hnone := List.find?_eq_none.mp hm _ (List.mem_of_getLast? rfl)
      exact hnone (List.isPrefixOf_iff_prefix.mpr hstarts)
    rw [hline, if_neg hver, header_version_eq_none hver]
  | some m =>
    obtain ⟨hmem, hname⟩ := macro_of_eq_some hm
    have hline : header_line version l = m.1 ++ m.2 ++ lineEol l := by rw [header_line, ← macro_of, hm]
    rw [hline, (header_line_keeps hv hmem (lineBody l)).body]
    by_cases hver : m.1 = "#define RGPOT_VERSION ".toList
    · rw [header_string hmem hver, hver, header_version_read, between_quoted, if_pos (hver ▸ hname)]
    · rw [header_number_unread hmem hver, if_neg (macro_apart hmem hver hname)]

theorem first_header_version (hv : Version version) {text : Text}
    (hread : first_version header_version text ≠ none) :
    first_version header_version (replace_header_versions text version) = some version := by
  have hsplit : Split ((splitInclusive text).map (header_line version)) := by
    refine (split_splitInclusive text).map ?_
    intro l _
    rw [header_line]
    cases hm : (header_macros version).find? fun m => m.1.isPrefixOf (trimStart (lineBody l)) with
    | none => exact .inl rfl
    | some m =>
      exact .inr ⟨m.1 ++ m.2, rfl, header_line_keeps hv (List.mem_of_find?_eq_some hm) _⟩
  rw [first_version, lines] at hread ⊢
  rw [replace_header_versions, hsplit.splitInclusive_flatten, List.map_map]
  clear hsplit
  generalize splitInclusive text = ls at hread
  induction ls with
  | nil => exact absurd rfl hread
  | cons l ls ih =>
    rw [List.map_cons, scanFirst] at hread ⊢
    rw [Function.comp_apply, header_version_line hv l]
    by_cases hname : "#define RGPOT_VERSION ".toList <+: trimStart (lineBody l)
    · rw [if_pos hname]
    · rw [header_version_eq_none hname] at hread
      rw [if_neg hname]
      exact ih hread

end Header

/-- The kinds of files that carry the version. -/
inductive Kind where
  | meson
  | cmake
  | toml
  | table (name : Text)
  | header

namespace Kind

/-- The version that a file of a kind shows. -/
def version : Kind → Text → Option Text
  | meson, text => first_version meson_version text
  | cmake, text => first_version cmake_version text
  | toml, text => first_version toml_version text
  | table name, text => toml_section_version text name
  | header, text => first_version header_version text

/-- What the command makes of a file of a kind. -/
def write : Kind → Text → Text → Text
  | meson, text, version => replace_first_meson_version text version
  | cmake, text, version => replace_first_cmake_version text version
  | toml, text, version => replace_first_toml_version_line text version
  | table name, text, version => replace_toml_section_version_line text name version
  | header, text, version => replace_header_versions text version

/-- The version the file shows replaced where it stands, for the header the values of its macros. -/
def bump : Kind → Text → Text → Text
  | meson => mesonSurface.bump
  | cmake => cmakeSurface.bump
  | toml => tomlSurface.bump
  | table name => (sectionSurface name).bump
  | header => bump_header

/-- The lines with the version are laid out as the command writes them. -/
def Clean : Kind → Text → Text → Prop
  | meson, v, text => mesonSurface.Clean v () (splitInclusive text)
  | cmake, v, text => cmakeSurface.Clean v () (splitInclusive text)
  | toml, v, text => tomlSurface.Clean v () (splitInclusive text)
  | table name, v, text => (sectionSurface name).Clean v false (splitInclusive text)
  | header, v, text => HeaderClean v text

variable {k : Kind} {v text : Text}

theorem write_eq_bump_iff (hv : Version v) (hread : k.version text ≠ none) :
    k.write text v = k.bump v text ↔ k.Clean v text := by
  cases k with
  | meson =>
    rw [version, first_meson_version] at hread
    rw [write, replace_first_meson_version_eq]
    exact (mesonSurface_lawful hv).sync_eq_bump_iff hread
  | cmake =>
    rw [version, first_cmake_version] at hread
    rw [write, replace_first_cmake_version_eq]
    exact (cmakeSurface_lawful hv).sync_eq_bump_iff hread
  | toml =>
    rw [version, first_toml_version] at hread
    rw [write, replace_first_toml_version_line_eq]
    exact (tomlSurface_lawful hv).sync_eq_bump_iff hread
  | table name =>
    rw [version, toml_section_version_eq] at hread
    rw [write, replace_toml_section_version_line_eq]
    exact (sectionSurface_lawful name hv).sync_eq_bump_iff hread
  | header => exact replace_header_eq_iff text

/-- A file that is changed in its versions only shows the new one. -/
theorem version_write (hv : Version v) (hread : k.version text ≠ none) (hclean : k.Clean v text) :
    k.version (k.write text v) = some v := by
  have hbump := (write_eq_bump_iff hv hread).mpr hclean
  cases k with
  | meson =>
    rw [version, first_meson_version] at hread
    rw [hbump, version, first_meson_version]
    exact (mesonSurface_lawful hv).readText_bump hread
  | cmake =>
    rw [version, first_cmake_version] at hread
    rw [hbump, version, first_cmake_version]
    exact (cmakeSurface_lawful hv).readText_bump hread
  | toml =>
    rw [version, first_toml_version] at hread
    rw [hbump, version, first_toml_version]
    exact (tomlSurface_lawful hv).readText_bump hread
  | table name =>
    rw [version, toml_section_version_eq] at hread
    rw [hbump, version, toml_section_version_eq]
    exact (sectionSurface_lawful name hv).readText_bump hread
  | header => exact first_header_version hv hread

end Kind

section Trees
variable {tree tree' : Tree} {version v : Text}

/-- The files of a bump, in its order. -/
def version_files : List (String × Kind) :=
  [("meson.build", .meson), ("CMakeLists.txt", .cmake), ("towncrier.toml", .toml),
    ("rgpot-core/Cargo.toml", .toml), ("pixi.toml", .table "workspace".toList),
    ("pyproject.toml", .table "project".toList), (HEADER_REL, .header)]

def kind (rel : String) : Option Kind := version_files.lookup rel

/-- A file with its versions replaced, and nothing else. -/
def bumped (rel : String) (v text : Text) : Text :=
  match kind rel with
  | some k => k.bump v text
  | none => text

/-- Every reader of `assert_lockstep` finds its version; only the header may be missing. -/
def Readable (tree : Tree) : Prop :=
  (∃ v, read_meson_version tree = .ok v) ∧ (∃ v, read_cmake_version tree = .ok v) ∧
    (∃ v, read_cargo_version tree = .ok v) ∧ (∃ v, read_towncrier_version tree = .ok v) ∧
    (∃ v, read_pixi_workspace_version tree = .ok v) ∧ (∃ v, read_pyproject_version tree = .ok v) ∧
    ∃ v, read_header_version tree = .ok v

/-- The lines with versions are laid out as the command writes them, in every file. -/
def CleanTree (tree : Tree) (v : Text) : Prop :=
  ∀ rel k text, kind rel = some k → tree.file rel = some text → k.Clean v text

/-- A bump sets every version, and changes nothing else. -/
def BumpsExactly (tree : Tree) (version : Text) : Prop :=
  ∀ tree', sync_versions tree version = .ok tree' →
    assert_lockstep tree' (some version) false = .ok () ∧
      ∀ rel, tree'.file rel = (tree.file rel).map (bumped rel (strip_v version))

theorem rewrite_file_file (rel rel' : String) (f : Text → Text) (tree : Tree) :
    (rewrite_file rel f tree).file rel' = if rel' = rel then (tree.file rel).map f else tree.file rel' := by
  rw [rewrite_file]
  cases hfile : tree.file rel with
  | none =>
    by_cases hrel : rel' = rel
    · rw [if_pos hrel, hrel, hfile, Option.map_none]
    · rw [if_neg hrel]
  | some text =>
    by_cases hrel : rel' = rel
    · rw [if_pos hrel, hrel, Option.map_some]
      exact Function.update_self ..
    · rw [if_neg hrel]
      exact Function.update_of_ne hrel ..

theorem strip_v_of_digit (h : v.head?.any Char.isDigit = true) : strip_v v = v := by
  cases v with
  | nil => rfl
  | cons c v =>
    have hc : c.isDigit = true := h
    rw [strip_v, if_neg]
    rintro (rfl | rfl) <;> exact absurd hc (by decide)

/-- Each file is rewritten once. -/
theorem foldl_rewrite_file (files : List (String × Kind)) (hnodup : (files.map Prod.fst).Nodup) (rel : String)
    (tree : Tree) : (files.foldl (fun tree f => rewrite_file f.1 (f.2.write · v) tree) tree).file rel =
      match files.lookup rel with
      | some k => (tree.file rel).map (k.write · v)
      | none => tree.file rel := by
  induction files generalizing tree with
  | nil => rfl
  | cons f files ih =>
    rw [List.map_cons, List.nodup_cons] at hnodup
    rw [List.foldl_cons, ih hnodup.2, List.lookup_cons]
    by_cases hrel : rel = f.1
    · subst hrel
      have hnone : files.lookup f.1 = none := by
        rw [List.lookup_eq_none_iff]
        intro p hp
        simpa using fun he : f.1 = p.1 => hnodup.1 (he ▸ List.mem_map_of_mem hp)
      simp only [hnone, rewrite_file_file, beq_self_eq_true, if_true]
    · simp only [rewrite_file_file, if_neg hrel, beq_eq_false_iff_ne.mpr hrel]

variable (tree) in
theorem sync_versions_ok (hok : semver_ok version = true) : ∃ tree', sync_versions tree version = .ok tree' ∧
    ∀ rel, tree'.file rel = match kind rel with
      | some k => (tree.file rel).map (k.write · (strip_v version))
      | none => tree.file rel := by
  have hv := version_of_semver_ok hok
  have hagain : semver_ok (strip_v version) = true := by
    rw [semver_ok, strip_v_of_digit hv.digit]
    exact hok
  refine ⟨_, if_neg (by rw [hagain]; decide), ?_⟩
  intro rel
  exact foldl_rewrite_file version_files (by decide) rel tree

/-- The tree has a file of the kind that shows the version. -/
def Shows (tree : Tree) (rel : String) (k : Kind) (v : Text) : Prop :=
  ∃ text, tree.file rel = some text ∧ k.version text = some v

theorem found_eq_ok {rel missing : String} {find : Text → Option Text} :
    (do let text ← read_text tree rel
        found (find text) missing) = .ok v ↔ ∃ text, tree.file rel = some text ∧ find text = some v := by
  rw [read_text]
  cases hfile : tree.file rel with
  | none => simp [bind, Except.bind]
  | some text => cases hv : find text <;> simp [bind, Except.bind, found, hv]

theorem read_meson : read_meson_version tree = .ok v ↔ Shows tree "meson.build" .meson v := found_eq_ok

theorem read_cmake : read_cmake_version tree = .ok v ↔ Shows tree "CMakeLists.txt" .cmake v := found_eq_ok

theorem read_cargo : read_cargo_version tree = .ok v ↔ Shows tree "rgpot-core/Cargo.toml" .toml v :=
  found_eq_ok

theorem read_towncrier : read_towncrier_version tree = .ok v ↔ Shows tree "towncrier.toml" .toml v :=
  found_eq_ok

theorem read_pixi : read_pixi_workspace_version tree = .ok v ↔
    Shows tree "pixi.toml" (.table "workspace".toList) v := found_eq_ok

theorem read_pyproject : read_pyproject_version tree = .ok v ↔
    Shows tree "pyproject.toml" (.table "project".toList) v := found_eq_ok

theorem read_header {o : Option Text} : read_header_version tree = .ok o ↔
    tree.file HEADER_REL = none ∧ o = none ∨ ∃ v, o = some v ∧ Shows tree HEADER_REL .header v := by
  rw [read_header_version]
  cases hfile : tree.file HEADER_REL with
  | none => simp [Shows, hfile, eq_comm]
  | some text =>
    cases hv : first_version header_version text <;>
      simp [Shows, hfile, hv, found, Kind.version, Except.map, eq_comm]

theorem assert_lockstep_ok (hmeson : read_meson_version tree = .ok v)
    (hcmake : read_cmake_version tree = .ok v) (hcargo : read_cargo_version tree = .ok v)
    (htown : read_towncrier_version tree = .ok v) (hpixi : read_pixi_workspace_version tree = .ok v)
    (hpyproj : read_pyproject_version tree = .ok v) {o : Option Text}
    (hheader : read_header_version tree = .ok o) (ho : ∀ h, o = some h → h = v)
    (hversion : strip_v version = v) : assert_lockstep tree (some version) false = .ok () := by
  have hexp : ((some version).map strip_v).filter (· ≠ []) = none ∨
      ((some version).map strip_v).filter (· ≠ []) = some v := by
    rw [Option.map_some, hversion, Option.filter_some]
    split
    · exact .inr rfl
    · exact .inl rfl
  have hshown : o = none ∨ o = some v := by
    cases o with
    | none => exact .inl rfl
    | some h => exact .inr (congrArg some (ho h rfl))
  rw [assert_lockstep]
  simp only [hmeson, hcmake, hcargo, htown, hpixi, hpyproj, hheader, bind, Except.bind, pure, Except.pure,
    List.forIn_cons, List.forIn_nil, ne_eq, not_true_eq_false, if_false, Bool.false_eq_true]
  simp only [ne_eq] at hexp
  obtain hexp | hexp := hexp <;> obtain rfl | rfl := hshown <;>
    simp only [hexp, not_true_eq_false, if_false]

theorem kind_cases {rel : String} {k : Kind} (h : kind rel = some k) : (rel, k) ∈ version_files := by
  obtain ⟨before, after, heq, -⟩ := List.lookup_eq_some_iff.mp h
  rw [heq]
  simp

theorem Readable.shows (hread : Readable tree) {rel : String} {k : Kind} (h : kind rel = some k) {text : Text}
    (hfile : tree.file rel = some text) : k.version text ≠ none := by
  have hshown : ∀ {rel k v}, Shows tree rel k v → ∀ text, tree.file rel = some text → k.version text ≠ none := by
    rintro rel k v ⟨text, hfile, hversion⟩ text' hfile'
    rw [hfile] at hfile'
    cases hfile'
    rw [hversion]
    exact Option.some_ne_none v
  obtain ⟨⟨m, hm⟩, ⟨c, hc⟩, ⟨a, ha⟩, ⟨w, hw⟩, ⟨x, hx⟩, ⟨y, hy⟩, o, ho⟩ := hread
  have hfiles := kind_cases h
  simp only [version_files, List.mem_cons, Prod.mk.injEq, List.not_mem_nil, or_false] at hfiles
  obtain ⟨rfl, rfl⟩ | ⟨rfl, rfl⟩ | ⟨rfl, rfl⟩ | ⟨rfl, rfl⟩ | ⟨rfl, rfl⟩ | ⟨rfl, rfl⟩ | ⟨rfl, rfl⟩ := hfiles
  · exact hshown (read_meson.mp hm) text hfile
  · exact hshown (read_cmake.mp hc) text hfile
  · exact hshown (read_towncrier.mp hw) text hfile
  · exact hshown (read_cargo.mp ha) text hfile
  · exact hshown (read_pixi.mp hx) text hfile
  · exact hshown (read_pyproject.mp hy) text hfile
  · obtain ⟨hnone, -⟩ | ⟨v, -, hv⟩ := read_header.mp ho
    · rw [hnone] at hfile
      cases hfile
    · exact hshown hv text hfile

/-- A tree of clean files shows the new version everywhere after a bump. -/
theorem shows_bumped (hv : Version v) (hclean : CleanTree tree v)
    (hfiles : ∀ rel, tree'.file rel = match kind rel with
      | some k => (tree.file rel).map (k.write · v)
      | none => tree.file rel) {rel : String} {k : Kind} (hk : kind rel = some k) {old : Text}
    (hold : Shows tree rel k old) : Shows tree' rel k v := by
  obtain ⟨text, hfile, hversion⟩ := hold
  refine ⟨k.write text v, ?_, ?_⟩
  · rw [hfiles rel, hk]
    simp only [hfile, Option.map_some]
  · refine Kind.version_write hv ?_ (hclean rel k text hk hfile)
    rw [hversion]
    exact Option.some_ne_none old

theorem assert_bumped (hread : Readable tree) (hv : Version v) (hversion : strip_v version = v)
    (hclean : CleanTree tree v)
    (hfiles : ∀ rel, tree'.file rel = match kind rel with
      | some k => (tree.file rel).map (k.write · v)
      | none => tree.file rel) : assert_lockstep tree' (some version) false = .ok () := by
  have hnew : ∀ {rel k old}, kind rel = some k → Shows tree rel k old → Shows tree' rel k v :=
    fun hk hold => shows_bumped hv hclean hfiles hk hold
  obtain ⟨⟨m, hm⟩, ⟨c, hc⟩, ⟨a, ha⟩, ⟨w, hw⟩, ⟨x, hx⟩, ⟨y, hy⟩, o, ho⟩ := hread
  have hheader : ∃ o', read_header_version tree' = .ok o' ∧ ∀ h, o' = some h → h = v := by
    obtain ⟨hnone, -⟩ | ⟨old, -, hold⟩ := read_header.mp ho
    · refine ⟨none, read_header.mpr (.inl ⟨?_, rfl⟩), by simp⟩
      rw [hfiles HEADER_REL]
      simp only [hnone, Option.map_none]
      rfl
    · refine ⟨some v, read_header.mpr (.inr ⟨v, rfl, hnew rfl hold⟩), ?_⟩
      intro h heq
      exact (Option.some.inj heq).symm
  obtain ⟨o', hread', ho'⟩ := hheader
  exact assert_lockstep_ok (read_meson.mpr (hnew rfl (read_meson.mp hm)))
    (read_cmake.mpr (hnew rfl (read_cmake.mp hc))) (read_cargo.mpr (hnew rfl (read_cargo.mp ha)))
    (read_towncrier.mpr (hnew rfl (read_towncrier.mp hw))) (read_pixi.mpr (hnew rfl (read_pixi.mp hx)))
    (read_pyproject.mpr (hnew rfl (read_pyproject.mp hy))) hread' ho' hversion

/-- A bump sets every version and nothing else exactly on trees laid out as it writes them. -/
theorem bumps_exactly_iff (hread : Readable tree) (hok : semver_ok version = true) :
    (∃ tree', sync_versions tree version = .ok tree') ∧
      (BumpsExactly tree version ↔ CleanTree tree (strip_v version)) := by
  have hv := version_of_semver_ok hok
  obtain ⟨tree', hsync, hfiles⟩ := sync_versions_ok tree hok
  refine ⟨⟨tree', hsync⟩, ?_⟩
  constructor
  · intro hbump rel k text hk hfile
    have hframe := (hbump tree' hsync).2 rel
    rw [hfiles rel] at hframe
    simp only [hk, hfile, Option.map_some, Option.some.injEq, bumped] at hframe
    exact (Kind.write_eq_bump_iff hv (hread.shows hk hfile)).mp hframe
  · intro hclean tree'' hsync'
    rw [hsync] at hsync'
    cases hsync'
    refine ⟨assert_bumped hread hv rfl hclean hfiles, ?_⟩
    intro rel
    rw [hfiles rel]
    cases hfile : tree.file rel with
    | none => cases kind rel <;> rfl
    | some text =>
      cases hk : kind rel with
      | none => simp only [Option.map_some, bumped, hk]
      | some k =>
        simp only [Option.map_some, bumped, hk]
        exact congrArg some ((Kind.write_eq_bump_iff hv (hread.shows hk hfile)).mpr (hclean rel k text hk hfile))

/-- A small release tree without the C header. -/
def scratch (towncrier : String) : Tree where
  root := "/tmp/potctl-lockstep"
  file rel := (List.lookup rel [
    ("meson.build", "project(\n    'rgpot',\n    version: '2.5.3',\n)\n"),
    ("CMakeLists.txt", "project(\n  rgpot\n  VERSION 2.5.3\n)\n"),
    ("rgpot-core/Cargo.toml", "[package]\nversion = \"2.5.3\"\n"),
    ("towncrier.toml", towncrier),
    ("pixi.toml", "[workspace]\nversion = \"2.5.3\"\n"),
    ("pyproject.toml", "[project]\nversion = \"2.5.3\"\n")]).map String.toList

def towncrier_toml : String := "[tool.towncrier]\nversion = \"2.5.3\"\n"

/-- The version line ends in a comment. -/
def commented_toml : String := "[tool.towncrier]\nversion = \"2.5.3\" # lockstep\n"

theorem scratch_readable : Readable (scratch towncrier_toml) :=
  ⟨⟨"2.5.3".toList, rfl⟩, ⟨"2.5.3".toList, rfl⟩, ⟨"2.5.3".toList, rfl⟩, ⟨"2.5.3".toList, rfl⟩,
    ⟨"2.5.3".toList, rfl⟩, ⟨"2.5.3".toList, rfl⟩, none, rfl⟩

theorem commented_readable : Readable (scratch commented_toml) :=
  ⟨⟨"2.5.3".toList, rfl⟩, ⟨"2.5.3".toList, rfl⟩, ⟨"2.5.3".toList, rfl⟩, ⟨"2.5.3".toList, rfl⟩,
    ⟨"2.5.3".toList, rfl⟩, ⟨"2.5.3".toList, rfl⟩, none, rfl⟩

theorem scratch_clean : CleanTree (scratch towncrier_toml) "3.1.4".toList := by
  intro rel k text hk hfile
  have hv : Version "3.1.4".toList := version_of_semver_ok (v := "v3.1.4".toList) (by decide)
  refine (Kind.write_eq_bump_iff hv (scratch_readable.shows hk hfile)).mp ?_
  have hfiles := kind_cases hk
  simp only [version_files, List.mem_cons, Prod.mk.injEq, List.not_mem_nil, or_false] at hfiles
  obtain ⟨rfl, rfl⟩ | ⟨rfl, rfl⟩ | ⟨rfl, rfl⟩ | ⟨rfl, rfl⟩ | ⟨rfl, rfl⟩ | ⟨rfl, rfl⟩ | ⟨rfl, rfl⟩ := hfiles
  all_goals cases hfile
  all_goals decide +kernel

theorem bumps_exactly_scratch : BumpsExactly (scratch towncrier_toml) "v3.1.4".toList :=
  (bumps_exactly_iff scratch_readable (by decide)).2.mpr scratch_clean

theorem not_bumps_exactly : ¬ ∀ (tree : Tree) (version : Text), Readable tree → semver_ok version = true →
    BumpsExactly tree version := by
  intro h
  have hok : semver_ok "3.1.4".toList = true := by decide
  obtain ⟨tree', hsync, hfiles⟩ := sync_versions_ok (scratch commented_toml) hok
  have hframe := (h _ _ commented_readable hok tree' hsync).2 "towncrier.toml"
  rw [hfiles "towncrier.toml"] at hframe
  revert hframe
  decide +kernel

end Trees
end Rgpot.Potctl
