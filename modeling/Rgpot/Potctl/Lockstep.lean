import Rgpot.Lib.LineEdit
import Mathlib.Logic.Function.Basic

/-! The release command of `potctl`: the version that six project files and the C header carry, how it is
read, written and compared. -/
namespace Rgpot.Potctl
open Lines

/-- The files below a repository root, by their relative paths. -/
structure Tree where
  root : String
  file : String → Option Text

def read_text (tree : Tree) (rel : String) : Except String Text :=
  match tree.file rel with
  | some text => .ok text
  | none => .error ("read " ++ tree.root ++ "/" ++ rel ++ ": No such file or directory (os error 2)")

def write_text (tree : Tree) (rel : String) (content : Text) : Tree :=
  ⟨tree.root, Function.update tree.file rel (some content)⟩

section Versions

def strip_v : Text → Text
  | [] => []
  | c :: v => if c = 'v' ∨ c = 'V' then v else c :: v

/-- The number groups at the front: how many dots they have, and what follows. `start` before the first
digit of a group, where a digit must come. -/
def dotGroups (dots : ℕ) (start : Bool) : Text → Option (ℕ × Text)
  | [] => if start then none else some (dots, [])
  | c :: v =>
    if c.isDigit then dotGroups dots false v
    else if start then none
    else if c = '.' then dotGroups (dots + 1) true v
    else some (dots, c :: v)

def semver_ok (v : Text) : Bool :=
  match dotGroups 0 true (strip_v v) with
  | none => false
  | some (dots, rest) =>
    if dots ≠ 2 then false
    else match rest with
      | [] => true
      | c :: tail =>
        if c = '.' ∨ c = '-' then
          tail ≠ [] ∧ tail.all fun d => d.isAlphanum ∨ d = '.' ∨ d = '-' ∨ d = '_'
        else false

end Versions

section Texts

def line_indent (line : Text) : Text := line.take (line.length - (trimStart line).length)

def isTab (c : Char) : Bool := c = ' ' ∨ c = '\t'

def isEol (c : Char) : Bool := c = '\r' ∨ c = '\n'

def strip_prefix (p s : Text) : Option Text := if p.isPrefixOf s then some (s.drop p.length) else none

def strip_suffix (p s : Text) : Option Text :=
  if p.isSuffixOf s then some (s.take (s.length - p.length)) else none

def between (q : Char) (s : Text) : Option Text := do
  let a ← find q s
  let b ← rfind q s
  if b > a then some ((s.take b).drop (a + 1)) else none

def between_quotes (s : Text) : Option Text := between '\x22' s

def between_single_quotes (s : Text) : Option Text := between '\x27' s

def toml_table_name (line : Text) : Option Text := do
  let inner ← strip_prefix ['['] (trim line)
  let inner ← strip_suffix [']'] inner
  let inner ← match strip_prefix ['['] inner with
    | some i => strip_suffix [']'] i
    | none => some inner
  return trim inner

end Texts

section Readers

def meson_version (line : Text) : Option Text :=
  if "version:".toList.isPrefixOf (trim line) then between_single_quotes (trim line) else none

def cmake_version (line : Text) : Option Text := do
  let rest ← strip_prefix "VERSION ".toList (trim line)
  if (firstWord rest).head?.any Char.isDigit then some (firstWord rest) else none

def toml_version (line : Text) : Option Text :=
  if "version = \"".toList.isPrefixOf (trim line) then between_quotes (trim line) else none

/-- The first line that holds a version, for files without tables. -/
def first_version (version : Text → Option Text) (text : Text) : Option Text :=
  scanFirst (fun _ _ => ()) (fun _ => version) () (lines text)

/-- `here`: the lines belong to the table `name`. -/
def in_section (name : Text) (here : Bool) (line : Text) : Bool :=
  match toml_table_name line with
  | some table => table = name
  | none => here

def toml_section_version (text name : Text) : Option Text :=
  scanFirst (in_section name)
    (fun here line => if (toml_table_name line).isSome then none else if here then toml_version line else none)
    false (lines text)

def found (version : Option Text) (missing : String) : Except String Text :=
  match version with
  | some v => .ok v
  | none => .error missing

def read_meson_version (tree : Tree) : Except String Text := do
  let text ← read_text tree "meson.build"
  found (first_version meson_version text) "meson.build: no version: line"

def read_cmake_version (tree : Tree) : Except String Text := do
  let text ← read_text tree "CMakeLists.txt"
  found (first_version cmake_version text) "CMakeLists.txt: no VERSION line"

def read_first_toml_version (tree : Tree) (rel : String) : Except String Text := do
  let text ← read_text tree rel
  found (first_version toml_version text) (rel ++ ": no version = \"...\" line")

def read_toml_section_version (tree : Tree) (rel : String) (name : Text) : Except String Text := do
  let text ← read_text tree rel
  found (toml_section_version text name)
    (rel ++ ": no version = \"...\" under [" ++ String.ofList name ++ "]")

def read_cargo_version (tree : Tree) : Except String Text :=
  read_first_toml_version tree "rgpot-core/Cargo.toml"

def read_towncrier_version (tree : Tree) : Except String Text :=
  read_first_toml_version tree "towncrier.toml"

def read_pixi_workspace_version (tree : Tree) : Except String Text :=
  read_toml_section_version tree "pixi.toml" "workspace".toList

def read_pyproject_version (tree : Tree) : Except String Text :=
  read_toml_section_version tree "pyproject.toml" "project".toList

def HEADER_REL : String := "rgpot-core/include/rgpot.h"

def header_version (line : Text) : Option Text := do
  let rest ← strip_prefix "#define RGPOT_VERSION ".toList (trimStart line)
  between_quotes rest

/-- `none` for a tree without the header. -/
def read_header_version (tree : Tree) : Except String (Option Text) :=
  match tree.file HEADER_REL with
  | none => .ok none
  | some text =>
    (found (first_version header_version text) (HEADER_REL ++ ": no #define RGPOT_VERSION line")).map some

end Readers

section Writers

/-- The first line that `rewrite` rewrites, for files without tables. -/
def replace_first (rewrite : Text → Option Text) (text : Text) : Text :=
  (rewriteFirst (fun _ _ => ()) (fun _ => rewrite) false () (splitInclusive text)).flatten

def meson_line (version line : Text) : Option Text :=
  if "version:".toList.isPrefixOf (line.dropWhile isTab) then
    some (line_indent (line.rdropWhile isEol) ++ ("version: '".toList ++ version ++ "',".toList) ++
      lineEol line)
  else none

def replace_first_meson_version (text version : Text) : Text := replace_first (meson_line version) text

def cmake_line (version line : Text) : Option Text :=
  match strip_prefix "VERSION ".toList (line.dropWhile isTab) with
  | some rest =>
    if (firstWord rest).head?.any Char.isDigit then
      some (line_indent (line.rdropWhile isEol) ++ "VERSION ".toList ++ version ++ lineEol line)
    else none
  | none => none

def replace_first_cmake_version (text version : Text) : Text := replace_first (cmake_line version) text

def toml_line (version line : Text) : Option Text :=
  if "version = \"".toList.isPrefixOf (trim line) then
    some (line_indent (line.rdropWhile isEol) ++ ("version = \"".toList ++ version ++ "\"".toList) ++
      lineEol line)
  else none

def replace_first_toml_version_line (text version : Text) : Text := replace_first (toml_line version) text

def replace_toml_section_version_line (text name version : Text) : Text :=
  (rewriteFirst (fun here line => in_section name here (line.rdropWhile isEol))
    (fun here line =>
      if (toml_table_name (line.rdropWhile isEol)).isSome then none
      else if here ∧ "version = \"".toList.isPrefixOf (trim (line.rdropWhile isEol)) then
        some (line_indent (line.rdropWhile isEol) ++ ("version = \"".toList ++ version ++ "\"".toList) ++
          lineEol line)
      else none)
    false false (splitInclusive text)).flatten

/-- A macro of the header: its definition up to the value, and the value of a version. -/
def header_macros (version : Text) : List (Text × Text) :=
  let core := version.takeWhile fun c => c ≠ '-' ∧ c ≠ '+'
  let parts := core.splitOn '.'
  [("#define RGPOT_VERSION_MAJOR ".toList, parts.getD 0 ['0']),
    ("#define RGPOT_VERSION_MINOR ".toList, parts.getD 1 ['0']),
    ("#define RGPOT_VERSION_PATCH ".toList, parts.getD 2 ['0']),
    ("#define RGPOT_VERSION ".toList, "\"".toList ++ version ++ "\"".toList)]

def header_line (version line : Text) : Text :=
  match (header_macros version).find? fun m => m.1.isPrefixOf (trimStart (lineBody line)) with
  | some m => m.1 ++ m.2 ++ lineEol line
  | none => line

def replace_header_versions (text version : Text) : Text :=
  ((splitInclusive text).map (header_line version)).flatten

end Writers

section Commands

/-- `if p.is_file()`: read, rewrite, write back. -/
def rewrite_file (rel : String) (rewrite : Text → Text) (tree : Tree) : Tree :=
  match tree.file rel with
  | some text => write_text tree rel (rewrite text)
  | none => tree

def sync_versions (tree : Tree) (version : Text) : Except String Tree :=
  let version := strip_v version
  if semver_ok version = false then
    .error ("refusing non-semver version: " ++ String.ofList version)
  else
    let tree := rewrite_file "meson.build" (replace_first_meson_version · version) tree
    let tree := rewrite_file "CMakeLists.txt" (replace_first_cmake_version · version) tree
    let tree := rewrite_file "towncrier.toml" (replace_first_toml_version_line · version) tree
    let tree := rewrite_file "rgpot-core/Cargo.toml" (replace_first_toml_version_line · version) tree
    let tree := rewrite_file "pixi.toml"
      (replace_toml_section_version_line · "workspace".toList version) tree
    let tree := rewrite_file "pyproject.toml"
      (replace_toml_section_version_line · "project".toList version) tree
    .ok (rewrite_file HEADER_REL (replace_header_versions · version) tree)

def changelog_lines (needle : Text) : Bool → List Text → List Text
  | _, [] => []
  | grab, line :: rest =>
    if needle.isPrefixOf line then line :: changelog_lines needle true rest
    else if grab ∧ "## [".toList.isPrefixOf line then []
    else if grab then line :: changelog_lines needle grab rest
    else changelog_lines needle grab rest

def changelog_section (tree : Tree) (ver : Text) : Text :=
  match tree.file "CHANGELOG.md" with
  | none => []
  | some text =>
    let out := ['\n'].intercalate (changelog_lines ("## [".toList ++ ver ++ [']']) false (lines text))
    if out ≠ [] ∧ ¬ ['\n'].isSuffixOf out then out ++ ['\n'] else out

def assert_lockstep (tree : Tree) (expected : Option Text) (require_changelog : Bool) :
    Except String Unit := do
  let meson_v ← read_meson_version tree
  let cmake_v ← read_cmake_version tree
  let cargo_v ← read_cargo_version tree
  let town_v ← read_towncrier_version tree
  let pixi_v ← read_pixi_workspace_version tree
  let pyproj_v ← read_pyproject_version tree
  let header_v ← read_header_version tree
  let exp := (expected.map strip_v).filter (· ≠ [])
  for (name, val) in [("cmake", cmake_v), ("cargo", cargo_v), ("towncrier", town_v), ("pixi", pixi_v),
      ("pyproject", pyproj_v)] do
    if val ≠ meson_v then
      throw (name ++ " version (" ++ String.ofList val ++ ") != meson (" ++ String.ofList meson_v ++ ")")
  if let some h := header_v then
    if h ≠ meson_v then
      throw ("rgpot.h version (" ++ String.ofList h ++ ") != meson (" ++ String.ofList meson_v ++ ")")
  if let some e := exp then
    if meson_v ≠ e then
      throw ("lockstep version (" ++ String.ofList meson_v ++ ") != expected (" ++ String.ofList e ++ ")")
  if require_changelog then
    let ver := exp.getD meson_v
    if trim (changelog_section tree ver) = [] then
      throw ("no CHANGELOG.md section for " ++ String.ofList ver ++
        " (run towncrier build via cog bump first)")

end Commands
end Rgpot.Potctl
