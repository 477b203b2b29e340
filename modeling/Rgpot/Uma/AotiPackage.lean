import Rgpot.Uma.ElfStack

/-! AOTI packages as ZIP archives: what the patcher makes of the bytes of one. -/
namespace Rgpot.AotiExecstack
open ByteBuffer Words

/-- Bytes of a fixed number that are neither read nor changed. -/
abbrev Raw (n : ℕ) : Type := {bs : List UInt8 // bs.length = n}

/-- What follows the data of a streamed member; the signature may be left out. -/
structure Descriptor where
  signed : Bool
  crc : UInt32
  sizes : List UInt8

/-- A member of an archive: its data, and what its local record, its descriptor and its entry in the
directory say of it. -/
structure Member where
  gap : List UInt8
  name : List UInt8
  data : List UInt8
  localHead : Raw 10
  localCrc : UInt32
  localSizes : Raw 8
  localExtra : List UInt8
  descriptor : Option Descriptor
  versions : Raw 4
  flags : UInt16
  method : UInt16
  stamp : Raw 4
  crc : UInt32
  usize : ℕ
  attributes : Raw 8
  /-- Extra fields of other kinds, before the ZIP64 field. -/
  extras : List (ℕ × List UInt8)
  wideUsize : Bool
  wideCsize : Bool
  wideLocal : Bool
  otherExtra : List UInt8
  comment : List UInt8

def Descriptor.bytes (d : Descriptor) : List UInt8 :=
  (if d.signed then leBytes 4 0x08074b50 else []) ++ leBytes 4 d.crc.toNat ++ d.sizes

/-- A size or an offset in its short field, or the mark that sends the reader to the ZIP64 field. -/
def narrow (wide : Bool) (v : ℕ) : ℕ := if wide then 0xffffffff else v

def wideBytes (wide : Bool) (v : ℕ) : List UInt8 := if wide then leBytes 8 v else []

def Fits (wide : Bool) (v : ℕ) : Prop := v < if wide then 2 ^ 64 else 0xffffffff

instance (wide : Bool) (v : ℕ) : Decidable (Fits wide v) := Nat.decLt _ _

def extraField (kind : ℕ) (payload : List UInt8) : List UInt8 :=
  leBytes 2 kind ++ leBytes 2 payload.length ++ payload

def soSuffix : List UInt8 := [0x2e, 0x73, 0x6f]

namespace Member
variable (m : Member)

def descriptorBytes : List UInt8 := (m.descriptor.map Descriptor.bytes).getD []

def localRecord : List UInt8 :=
  leBytes 4 kZipLocal ++ m.localHead.1 ++ leBytes 4 m.localCrc.toNat ++ m.localSizes.1 ++
    leBytes 2 m.name.length ++ leBytes 2 m.localExtra.length ++ m.name ++ m.localExtra ++ m.data ++
    m.descriptorBytes

def isWide : Bool := m.wideUsize || m.wideCsize || m.wideLocal

def zip64Payload (off : ℕ) : List UInt8 :=
  wideBytes m.wideUsize m.usize ++ wideBytes m.wideCsize m.data.length ++ wideBytes m.wideLocal off

def centralExtra (off : ℕ) : List UInt8 :=
  m.extras.flatMap (fun e => extraField e.1 e.2) ++
    ((if m.isWide then extraField 1 (m.zip64Payload off) else []) ++ m.otherExtra)

/-- The entry in the directory of a member whose local record is at `off`. -/
def centralRecord (off : ℕ) : List UInt8 :=
  leBytes 4 kZipCentral ++ m.versions.1 ++ leBytes 2 m.flags.toNat ++ leBytes 2 m.method.toNat ++ m.stamp.1 ++
    leBytes 4 m.crc.toNat ++ leBytes 4 (narrow m.wideCsize m.data.length) ++
    leBytes 4 (narrow m.wideUsize m.usize) ++ leBytes 2 m.name.length ++ leBytes 2 (m.centralExtra off).length ++
    leBytes 2 m.comment.length ++ m.attributes.1 ++ leBytes 4 (narrow m.wideLocal off) ++ m.name ++
    m.centralExtra off ++ m.comment

/-- A library by its name. -/
def isSo : Bool := m.name.drop (m.name.length - 3) = soSuffix

def needed : Bool := m.isSo && needsClear m.data

/-- The member with its library patched and every checksum of it renewed. -/
def patched : Member :=
  let data := clearedElf m.data
  let crc := zipCrc32 data
  { m with data, localCrc := crc, crc, descriptor := m.descriptor.map ({ · with crc }) }

def cleared : Member := if m.needed then m.patched else m

/-- What the fields of a record can hold, and what a library needs: stored, with a descriptor exactly where
its flags announce one, and with its program headers behind the ELF header. -/
structure WellFormed (off : ℕ) : Prop where
  name_lt : m.name.length < 2 ^ 16
  localExtra_lt : m.localExtra.length < 2 ^ 16
  centralExtra_lt : (m.centralExtra off).length < 2 ^ 16
  comment_lt : m.comment.length < 2 ^ 16
  extras_fit : ∀ e ∈ m.extras, e.1 ≠ 1 ∧ e.1 < 2 ^ 16 ∧ e.2.length < 2 ^ 16
  usize_fits : Fits m.wideUsize m.usize
  csize_fits : Fits m.wideCsize m.data.length
  local_fits : Fits m.wideLocal off
  stored : m.isSo = true → m.method.toNat = 0 ∧ m.flags.toNat &&& 1 = 0 ∧ m.usize = m.data.length
  streamed : m.isSo = true → (m.flags.toNat &&& 8 ≠ 0 ↔ m.descriptor.isSome = true)
  table : m.isSo = true → TableBehind m.data

/-- A descriptor without a signature whose checksum is none by chance. -/
def Unambiguous : Prop :=
  ∀ d, m.descriptor = some d → d.signed = false → d.crc.toNat ≠ 0x08074b50

end Member

section Sizes
variable {buf : List UInt8} {off v stop extra : ℕ} {wide : Bool}

theorem length_wideBytes (wide : Bool) (v : ℕ) : (wideBytes wide v).length = if wide then 8 else 0 := by
  cases wide
  · rfl
  · exact length_leBytes 8 v

theorem narrow_lt (h : Fits wide v) : narrow wide v < 256 ^ 4 := by
  cases wide
  · exact lt_of_lt_of_le h (by norm_num)
  · exact show 0xffffffff < 256 ^ 4 by norm_num

theorem narrow_eq_mark (h : Fits wide v) : narrow wide v = 0xffffffff ↔ wide = true := by
  cases wide
  · exact iff_of_false (Nat.ne_of_lt h) Bool.false_ne_true
  · exact iff_of_true rfl rfl

theorem runs_expand (h : Fits wide v) (hstands : Stands buf extra (wideBytes wide v))
    (hstop : extra + (wideBytes wide v).length ≤ stop) :
    Runs (expand stop (narrow wide v) extra) buf (v, extra + (wideBytes wide v).length) buf := by
  rw [expand]
  cases wide with
  | false =>
    rw [if_pos ((narrow_eq_mark h).not.mpr Bool.false_ne_true)]
    exact Runs.pure
  | true =>
    have hlength : (wideBytes true v).length = 8 := length_wideBytes true v
    rw [if_neg (not_not.mpr ((narrow_eq_mark h).mpr rfl)), if_neg (by omega), hlength]
    exact Runs.bind (Stands.runs_load hstands (by decide) h) Runs.pure

theorem length_extraField (kind : ℕ) (payload : List UInt8) :
    (extraField kind payload).length = 4 + payload.length := by
  simp only [extraField, List.length_append, length_leBytes]

/-- The walk passes over fields of other kinds. -/
theorem runs_zip64Sizes_skip {usize csize localOff : ℕ} {r : ℕ × ℕ × ℕ} {tail : List UInt8}
    {es : List (ℕ × List UInt8)} (hes : ∀ e ∈ es, e.1 ≠ 1 ∧ e.1 < 2 ^ 16 ∧ e.2.length < 2 ^ 16)
    (hstands : Stands buf extra (es.flatMap (fun e => extraField e.1 e.2) ++ tail))
    (hstop : stop = extra + (es.flatMap (fun e => extraField e.1 e.2) ++ tail).length)
    (hrest : ∀ extra, Stands buf extra tail → stop = extra + tail.length →
      Runs (zip64Sizes usize csize localOff stop extra) buf r buf) :
    Runs (zip64Sizes usize csize localOff stop extra) buf r buf := by
  induction es generalizing extra with
  | nil => exact hrest extra hstands hstop
  | cons e es ih =>
    obtain ⟨hkind, hkindlt, hlenlt⟩ := hes e List.mem_cons_self
    rw [List.flatMap_cons, List.append_assoc, List.length_append, length_extraField] at hstop
    rw [List.flatMap_cons, List.append_assoc, stands_append, length_extraField] at hstands
    obtain ⟨hfield, hnext⟩ := hstands
    simp only [extraField, stands_append, List.length_append, length_leBytes] at hfield
    obtain ⟨⟨hk, hl⟩, -⟩ := hfield
    rw [zip64Sizes, dif_pos (by omega)]
    refine Runs.bind (hk.runs_load (by decide) hkindlt) (Runs.bind (hl.runs_load (by decide) hlenlt) ?_)
    refine Runs.bind (runs_refuse (by omega)) ?_
    rw [if_neg hkind, Nat.add_assoc extra]
    exact ih (fun e' he' => hes e' (List.mem_cons_of_mem _ he')) hnext (by omega)

/-- The sizes and the offset of a member, wherever its entry keeps them. -/
theorem Member.WellFormed.runs_fullSizes {m : Member} (hm : m.WellFormed off)
    (hstands : Stands buf extra (m.centralExtra off)) (hstop : stop = extra + (m.centralExtra off).length) :
    Runs (fullSizes (narrow m.wideUsize m.usize) (narrow m.wideCsize m.data.length) (narrow m.wideLocal off)
      stop extra) buf (m.usize, m.data.length, off) buf := by
  have hmarks : (narrow m.wideUsize m.usize = 0xffffffff ∨ narrow m.wideCsize m.data.length = 0xffffffff ∨
      narrow m.wideLocal off = 0xffffffff) ↔ m.isWide = true := by
    rw [narrow_eq_mark hm.usize_fits, narrow_eq_mark hm.csize_fits, narrow_eq_mark hm.local_fits,
      Member.isWide, Bool.or_eq_true, Bool.or_eq_true, or_assoc]
  rw [fullSizes]
  by_cases hwide : m.isWide = true
  · rw [if_pos (hmarks.mpr hwide)]
    rw [Member.centralExtra, if_pos hwide] at hstands hstop
    refine runs_zip64Sizes_skip hm.extras_fit hstands hstop fun extra hfield hstop => ?_
    have hpayload : (m.zip64Payload off).length = (wideBytes m.wideUsize m.usize).length +
        (wideBytes m.wideCsize m.data.length).length + (wideBytes m.wideLocal off).length := by
      rw [Member.zip64Payload, List.length_append, List.length_append]
    have hshort : (m.zip64Payload off).length ≤ 24 := by
      rw [hpayload, length_wideBytes, length_wideBytes, length_wideBytes]
      split_ifs <;> omega
    rw [List.length_append, length_extraField] at hstop
    obtain ⟨hfield, -⟩ := stands_append.mp hfield
    simp only [extraField, stands_append, List.length_append, length_leBytes] at hfield
    obtain ⟨⟨hkind, hlen⟩, hvalues⟩ := hfield
    simp only [Member.zip64Payload, stands_append, List.length_append] at hvalues
    obtain ⟨⟨husize, hcsize⟩, hlocal⟩ := hvalues
    rw [zip64Sizes, dif_pos (by omega)]
    refine Runs.bind (hkind.runs_load (by decide) (by norm_num)) ?_
    refine Runs.bind (hlen.runs_load (by decide) (by omega)) (Runs.bind (runs_refuse (by omega)) ?_)
    rw [if_pos rfl]
    refine Runs.bind (runs_expand hm.usize_fits husize (by omega)) ?_
    refine Runs.bind (runs_expand hm.csize_fits hcsize (by omega)) ?_
    rw [← Nat.add_assoc] at hlocal
    exact Runs.bind (runs_expand hm.local_fits hlocal (by omega)) Runs.pure
  · rw [if_neg (hmarks.not.mpr hwide)]
    rw [Member.isWide, Bool.or_eq_true, Bool.or_eq_true] at hwide
    push Not at hwide
    simp only [narrow, hwide]
    exact Runs.pure

end Sizes

section Entry
variable {A B C : List UInt8} {m : Member} {off : ℕ}

/-- The local record of a member and its entry in the directory, with what is around them. -/
def layout (A : List UInt8) (m : Member) (B : List UInt8) (off : ℕ) (C : List UInt8) : List UInt8 :=
  A ++ m.localRecord ++ B ++ m.centralRecord off ++ C

theorem length_layout : (layout A m B off C).length =
    A.length + m.localRecord.length + B.length + (m.centralRecord off).length + C.length := by
  simp only [layout, List.length_append]

theorem stands_local : Stands (layout A m B off C) A.length m.localRecord := by
  have hlayout : layout A m B off C = A ++ m.localRecord ++ (B ++ m.centralRecord off ++ C) := by
    simp only [layout, List.append_assoc]
  exact hlayout ▸ stands_between _ _ _

theorem stands_central : Stands (layout A m B off C) (A.length + m.localRecord.length + B.length)
    (m.centralRecord off) := by
  have hstart : A.length + m.localRecord.length + B.length = (A ++ m.localRecord ++ B).length := by
    simp only [List.length_append]
  exact hstart ▸ stands_between _ _ _

theorem length_localRecord : m.localRecord.length =
    30 + m.name.length + m.localExtra.length + m.data.length + m.descriptorBytes.length := by
  simp only [Member.localRecord, List.length_append, length_leBytes, m.localHead.2, m.localSizes.2]

theorem length_centralRecord : (m.centralRecord off).length =
    46 + m.name.length + (m.centralExtra off).length + m.comment.length := by
  simp only [Member.centralRecord, List.length_append, length_leBytes, m.versions.2, m.stamp.2, m.attributes.2]

theorem runs_endsInSo {buf : List UInt8} {nameOff : ℕ} (h : Stands buf nameOff m.name) :
    Runs (endsInSo nameOff m.name.length) buf m.isSo buf := by
  rw [endsInSo, Member.isSo]
  by_cases hname : m.name.length ≥ 3
  · have hsplit : m.name = m.name.take (m.name.length - 3) ++ m.name.drop (m.name.length - 3) :=
      (List.take_append_drop _ _).symm
    rw [hsplit, stands_append, List.length_take_of_le (Nat.sub_le _ _)] at h
    have hthree : (m.name.drop (m.name.length - 3)).length = 3 := by
      rw [List.length_drop]
      omega
    have hin := h.2.le (by omega)
    have hload := h.2.runs_loadBytes (by omega)
    rw [hthree, ← Nat.add_sub_assoc hname] at hload
    rw [if_pos hname]
    exact Runs.bind hload Runs.pure
  · have hne : m.name.drop (m.name.length - 3) ≠ soSuffix := by
      intro heq
      have hlength := congrArg List.length heq
      rw [List.length_drop, soSuffix] at hlength
      simp only [List.length_cons, List.length_nil] at hlength
      omega
    rw [if_neg hname, decide_eq_false hne]
    exact Runs.pure

/-- The bytes of a local record before its data. -/
def Member.localStart (m : Member) (localCrc : UInt32) : List UInt8 :=
  leBytes 4 kZipLocal ++ m.localHead.1 ++ leBytes 4 localCrc.toNat ++ m.localSizes.1 ++
    leBytes 2 m.name.length ++ leBytes 2 m.localExtra.length ++ m.name ++ m.localExtra

theorem length_localStart (localCrc : UInt32) :
    (m.localStart localCrc).length = 30 + m.name.length + m.localExtra.length := by
  simp only [Member.localStart, List.length_append, length_leBytes, m.localHead.2, m.localSizes.2]

/-- A member with other data and other checksums. -/
def Member.restamped (m : Member) (data : List UInt8) (localCrc crc : UInt32) (descriptor : Option Descriptor) :
    Member := { m with data, localCrc, crc, descriptor }

section Restamped
variable {data : List UInt8} (hdata : data.length = m.data.length) (localCrc crc : UInt32)
  (descriptor : Option Descriptor)
include hdata

theorem centralExtra_restamped :
    (m.restamped data localCrc crc descriptor).centralExtra off = m.centralExtra off := by
  simp only [Member.centralExtra, Member.zip64Payload, Member.restamped, hdata]
  rfl

theorem length_localRecord_restamped : (m.restamped data localCrc crc descriptor).localRecord.length =
    30 + m.name.length + m.localExtra.length + m.data.length +
      ((descriptor.map Descriptor.bytes).getD []).length := by
  rw [length_localRecord]
  simp only [Member.restamped, Member.descriptorBytes, hdata]

theorem length_centralRecord_restamped :
    ((m.restamped data localCrc crc descriptor).centralRecord off).length = (m.centralRecord off).length := by
  rw [length_centralRecord, length_centralRecord, centralExtra_restamped hdata]
  rfl

theorem centralRecord_restamped : (m.restamped data localCrc crc descriptor).centralRecord off =
    (leBytes 4 kZipCentral ++ m.versions.1 ++ leBytes 2 m.flags.toNat ++ leBytes 2 m.method.toNat ++ m.stamp.1) ++
      leBytes 4 crc.toNat ++
      (leBytes 4 (narrow m.wideCsize m.data.length) ++ leBytes 4 (narrow m.wideUsize m.usize) ++
        leBytes 2 m.name.length ++ leBytes 2 (m.centralExtra off).length ++ leBytes 2 m.comment.length ++
        m.attributes.1 ++ leBytes 4 (narrow m.wideLocal off) ++ m.name ++ m.centralExtra off ++ m.comment) := by
  rw [Member.centralRecord, centralExtra_restamped hdata]
  simp only [Member.restamped, hdata, List.append_assoc]

omit hdata in
/-- The place of the data, of the checksum in the local record, and of the one in the directory. -/
theorem layout_restamped : layout A (m.restamped data localCrc crc descriptor) B off C =
      (A ++ m.localStart localCrc) ++ data ++ (((descriptor.map Descriptor.bytes).getD []) ++ B ++
        (m.restamped data localCrc crc descriptor).centralRecord off ++ C) ∧
    layout A (m.restamped data localCrc crc descriptor) B off C =
      (A ++ leBytes 4 kZipLocal ++ m.localHead.1) ++ leBytes 4 localCrc.toNat ++
        (m.localSizes.1 ++ leBytes 2 m.name.length ++ leBytes 2 m.localExtra.length ++ m.name ++ m.localExtra ++
          data ++ ((descriptor.map Descriptor.bytes).getD []) ++ B ++
          (m.restamped data localCrc crc descriptor).centralRecord off ++ C) := by
  simp only [layout, Member.localRecord, Member.localStart, Member.descriptorBytes, List.append_assoc]
  exact ⟨rfl, rfl⟩

end Restamped

section Writes
variable {data : List UInt8} {localCrc crc new : UInt32} {descriptor : Option Descriptor} {n pos dataOff : ℕ}

theorem toNat_lt_word (v : UInt32) : v.toNat < 256 ^ 4 := v.toNat_lt

/-- The library in its member: its headers are patched, and its bytes are read for the checksum. -/
theorem runs_patch_data (hsmall : (layout A m B off C).length < 2 ^ 63) (htable : TableBehind m.data)
    (hdataOff : dataOff = A.length + 30 + m.name.length + m.localExtra.length) :
    (∃ r, Runs (clearElfGnuStack dataOff m.data.length) (layout A m B off C) r
      (layout A (m.restamped (clearedElf m.data) m.localCrc m.crc m.descriptor) B off C)) ∧
    Runs (loadBytes dataOff m.data.length)
      (layout A (m.restamped (clearedElf m.data) m.localCrc m.crc m.descriptor) B off C) (clearedElf m.data)
      (layout A (m.restamped (clearedElf m.data) m.localCrc m.crc m.descriptor) B off C) := by
  have hlength := length_clearedElf htable
  have hold : layout A m B off C = _ :=
    (layout_restamped m.localCrc m.crc m.descriptor).1
  have hcentral : (m.restamped (clearedElf m.data) m.localCrc m.crc m.descriptor).centralRecord off =
      (m.restamped m.data m.localCrc m.crc m.descriptor).centralRecord off := by
    rw [centralRecord_restamped hlength, centralRecord_restamped rfl]
  have hat : dataOff = (A ++ m.localStart m.localCrc).length := by
    rw [List.length_append, length_localStart, hdataOff]
    omega
  rw [(layout_restamped _ _ _).1, hat, hcentral]
  constructor
  · rw [hold] at hsmall ⊢
    exact runs_clearElfGnuStack hsmall htable
  · rw [← hlength]
    refine (stands_between _ _ _).runs_loadBytes ?_
    simp only [List.length_append]
    omega

theorem runs_store_localCrc (hdata : data.length = m.data.length) : Runs (store 4 (A.length + 14) new.toNat)
    (layout A (m.restamped data localCrc crc descriptor) B off C) ()
    (layout A (m.restamped data new crc descriptor) B off C) := by
  have hat : A.length + 14 = (A ++ leBytes 4 kZipLocal ++ m.localHead.1).length := by
    simp only [List.length_append, length_leBytes, m.localHead.2]
  have hcentral : (m.restamped data localCrc crc descriptor).centralRecord off =
      (m.restamped data new crc descriptor).centralRecord off := by
    rw [centralRecord_restamped hdata, centralRecord_restamped hdata]
  rw [(layout_restamped _ _ _).2, (layout_restamped _ _ _).2, hat, hcentral]
  exact runs_store (length_leBytes _ _)

theorem runs_store_crc (hdata : data.length = m.data.length)
    (hpos : pos = A.length + (m.restamped data localCrc crc descriptor).localRecord.length + B.length) :
    Runs (store 4 (pos + 16) new.toNat) (layout A (m.restamped data localCrc crc descriptor) B off C) ()
      (layout A (m.restamped data localCrc new descriptor) B off C) := by
  have hlocal : (m.restamped data localCrc new descriptor).localRecord =
      (m.restamped data localCrc crc descriptor).localRecord := rfl
  rw [layout, layout, hlocal, centralRecord_restamped hdata, centralRecord_restamped hdata]
  set P := A ++ (m.restamped data localCrc crc descriptor).localRecord ++ B with hP
  set S := leBytes 4 kZipCentral ++ m.versions.1 ++ leBytes 2 m.flags.toNat ++ leBytes 2 m.method.toNat ++
    m.stamp.1 with hS
  set T := leBytes 4 (narrow m.wideCsize m.data.length) ++ leBytes 4 (narrow m.wideUsize m.usize) ++
    leBytes 2 m.name.length ++ leBytes 2 (m.centralExtra off).length ++ leBytes 2 m.comment.length ++
    m.attributes.1 ++ leBytes 4 (narrow m.wideLocal off) ++ m.name ++ m.centralExtra off ++ m.comment
  have hsplit : ∀ v : UInt32, P ++ (S ++ leBytes 4 v.toNat ++ T) ++ C = P ++ S ++ leBytes 4 v.toNat ++ (T ++ C) := by
    intro v
    simp only [List.append_assoc]
  have hat : pos + 16 = (P ++ S).length := by
    simp only [hP, hS, List.length_append, length_leBytes, m.versions.2, m.stamp.2, hpos]
  rw [hsplit, hsplit, hat]
  exact runs_store (length_leBytes _ _)

/-- The descriptor's checksum is found with or without the signature. -/
theorem runs_descriptor (hdata : data.length = m.data.length) {d : Descriptor}
    (hun : d.signed = false → d.crc.toNat ≠ 0x08074b50) {start : ℕ}
    (hn : n = (layout A (m.restamped data localCrc crc (some d)) B off C).length)
    (hstart : start = A.length + 30 + m.name.length + m.localExtra.length + m.data.length) :
    Runs (do
      requireRegion n start 4
      let sig ← load 4 start
      let descriptor := if sig = 0x08074b50 then start + 4 else start
      requireRegion n descriptor 4
      store 4 descriptor new.toNat) (layout A (m.restamped data localCrc crc (some d)) B off C) ()
      (layout A (m.restamped data localCrc crc (some { d with crc := new })) B off C) := by
  have hcentral : (m.restamped data localCrc crc (some { d with crc := new })).centralRecord off =
      (m.restamped data localCrc crc (some d)).centralRecord off := by
    rw [centralRecord_restamped hdata, centralRecord_restamped hdata]
  rw [(layout_restamped _ _ _).1] at hn
  rw [(layout_restamped _ _ _).1, (layout_restamped _ _ _).1, hcentral]
  simp only [Option.map_some, Option.getD_some, Descriptor.bytes] at hn ⊢
  set P := A ++ m.localStart localCrc ++ data with hP
  set rest := d.sizes ++ B ++ (m.restamped data localCrc crc (some d)).centralRecord off ++ C with hrest
  have hstart' : start = P.length := by
    rw [hP, List.length_append, List.length_append, length_localStart, hdata, hstart]
    omega
  have hsplit : ∀ v : UInt32, P ++ ((if d.signed then leBytes 4 0x08074b50 else []) ++ leBytes 4 v.toNat ++ d.sizes ++
      B ++ (m.restamped data localCrc crc (some d)).centralRecord off ++ C) =
      P ++ (if d.signed then leBytes 4 0x08074b50 else []) ++ leBytes 4 v.toNat ++ rest := by
    intro v
    simp only [hrest, List.append_assoc]
  rw [hsplit] at hn ⊢
  rw [hsplit]
  have hlength : n = P.length + (if d.signed then leBytes 4 0x08074b50 else []).length + 4 + rest.length := by
    rw [hn]
    simp only [List.length_append, length_leBytes]
  by_cases hsigned : d.signed = true
  · rw [if_pos hsigned, length_leBytes] at hlength
    rw [if_pos hsigned]
    have hsig : Stands (P ++ leBytes 4 0x08074b50 ++ leBytes 4 d.crc.toNat ++ rest) start
        (leBytes 4 0x08074b50) := by
      rw [List.append_assoc (P ++ _), hstart']
      exact stands_between _ _ _
    refine Runs.bind (runs_refuse (by omega)) (Runs.bind (hsig.runs_load (by decide) (by norm_num)) ?_)
    rw [if_pos rfl]
    refine Runs.bind (runs_refuse (by omega)) ?_
    have hat : start + 4 = (P ++ leBytes 4 0x08074b50).length := by
      rw [List.length_append, length_leBytes, hstart']
    rw [hat]
    exact runs_store (length_leBytes _ _)
  · rw [if_neg hsigned, List.length_nil] at hlength
    rw [if_neg hsigned, List.append_nil]
    have hcrc : Stands (P ++ leBytes 4 d.crc.toNat ++ rest) start (leBytes 4 d.crc.toNat) := by
      rw [hstart']
      exact stands_between _ _ _
    refine Runs.bind (runs_refuse (by omega)) (Runs.bind (hcrc.runs_load (by decide) (toNat_lt_word _)) ?_)
    rw [if_neg (hun (Bool.eq_false_iff.mpr hsigned))]
    refine Runs.bind (runs_refuse (by omega)) ?_
    rw [hstart']
    exact runs_store (length_leBytes _ _)

end Writes

theorem length_descriptorBytes (crc : UInt32) (descriptor : Option Descriptor) :
    (((descriptor.map ({ · with crc })).map Descriptor.bytes).getD []).length =
      ((descriptor.map Descriptor.bytes).getD []).length := by
  cases descriptor with
  | none => rfl
  | some d => simp only [Option.map_some, Option.getD_some, Descriptor.bytes, List.length_append, length_leBytes]

theorem patched_eq : m.patched = m.restamped (clearedElf m.data) (zipCrc32 (clearedElf m.data))
    (zipCrc32 (clearedElf m.data)) (m.descriptor.map ({ · with crc := zipCrc32 (clearedElf m.data) })) := rfl

theorem length_patched (htable : TableBehind m.data) :
    m.patched.localRecord.length = m.localRecord.length ∧
      (m.patched.centralRecord off).length = (m.centralRecord off).length := by
  have hlength := length_clearedElf htable
  rw [patched_eq, length_localRecord_restamped hlength, length_descriptorBytes, length_localRecord]
  exact ⟨rfl, length_centralRecord_restamped hlength _ _ _⟩

/-- The writes to a library make its member the patched one. -/
theorem runs_clearLibrary (hsmall : (layout A m B off C).length < 2 ^ 63) (hm : m.WellFormed off)
    (hso : m.isSo = true) (hun : m.Unambiguous) {n pos dataOff : ℕ} (hn : n = (layout A m B off C).length)
    (hpos : pos = A.length + m.localRecord.length + B.length)
    (hdataOff : dataOff = A.length + 30 + m.name.length + m.localExtra.length) :
    Runs (clearLibrary n pos m.flags.toNat A.length dataOff m.data.length) (layout A m B off C) ()
      (layout A m.patched B off C) := by
  have htable := hm.table hso
  have hlength := length_clearedElf htable
  have hflags := hm.streamed hso
  obtain ⟨⟨r, hclear⟩, hload⟩ := runs_patch_data hsmall htable hdataOff
  refine Runs.bind hclear (Runs.bind hload ?_)
  rw [patched_eq]
  set crc := zipCrc32 (clearedElf m.data) with hcrc
  have hroom (localCrc crc : UInt32) : (m.restamped (clearedElf m.data) localCrc crc m.descriptor).localRecord.length =
      m.localRecord.length := by
    rw [length_localRecord_restamped hlength, length_localRecord]
    rfl
  refine Runs.bind (runs_store_localCrc hlength) (Runs.bind (runs_store_crc hlength (by rw [hpos, hroom])) ?_)
  rcases Option.eq_none_or_eq_some m.descriptor with hdesc | ⟨d, hdesc⟩
  · rw [hdesc] at hflags ⊢
    rw [if_neg (hflags.not.mpr Bool.false_ne_true)]
    exact Runs.pure
  · rw [hdesc] at hflags hroom ⊢
    rw [if_pos (hflags.mpr rfl)]
    refine runs_descriptor hlength (hun d hdesc) ?_ (by rw [hdataOff])
    rw [hn, length_layout, length_layout, hroom, length_centralRecord_restamped hlength]

section Round
variable {n pos : ℕ} {write : Bool}

/-- The fields of a local record that are read. -/
theorem local_fields : Stands (layout A m B off C) A.length (leBytes 4 kZipLocal) ∧
    Stands (layout A m B off C) (A.length + 26) (leBytes 2 m.name.length) ∧
    Stands (layout A m B off C) (A.length + 28) (leBytes 2 m.localExtra.length) := by
  have h : Stands (layout A m B off C) A.length m.localRecord := stands_local
  simp only [Member.localRecord, stands_append, List.length_append, length_leBytes, m.localHead.2,
    m.localSizes.2] at h
  obtain ⟨⟨⟨⟨⟨⟨⟨⟨⟨hsig, -⟩, -⟩, -⟩, hname⟩, hextra⟩, -⟩, -⟩, -⟩, -⟩ := h
  exact ⟨hsig, hname, hextra⟩

/-- The round of a library. -/
theorem runs_scanLibrary (hsmall : (layout A m B A.length C).length < 2 ^ 63) (hm : m.WellFormed A.length)
    (hso : m.isSo = true) (hun : write = true → m.Unambiguous) (hn : n = (layout A m B A.length C).length)
    (hpos : pos = A.length + m.localRecord.length + B.length) :
    Runs (scanLibrary n write pos m.flags.toNat m.method.toNat m.data.length m.usize A.length)
      (layout A m B A.length C) (needsClear m.data)
      (layout A (if needsClear m.data && write then m.patched else m) B A.length C) := by
  obtain ⟨hmethod, hflag, husize⟩ := hm.stored hso
  obtain ⟨hsig, hname, hextra⟩ : Stands (layout A m B A.length C) A.length _ ∧ _ ∧ _ := local_fields
  have htotal : (layout A m B A.length C).length =
      A.length + m.localRecord.length + B.length + (m.centralRecord A.length).length + C.length := length_layout
  rw [length_localRecord] at htotal
  refine Runs.bind (runs_refuse (by simp [hmethod, hflag])) (Runs.bind (runs_refuse (by omega)) ?_)
  refine Runs.bind (hsig.runs_load (by decide) (by norm_num [kZipLocal])) ?_
  refine Runs.bind (runs_refuse (by simp [husize])) ?_
  refine Runs.bind (hname.runs_load (by decide) hm.name_lt) ?_
  refine Runs.bind (hextra.runs_load (by decide) hm.localExtra_lt) (Runs.bind (runs_refuse (by omega)) ?_)
  have hold : layout A m B A.length C = _ := (layout_restamped m.localCrc m.crc m.descriptor).1
  have hat : A.length + 30 + m.name.length + m.localExtra.length = (A ++ m.localStart m.localCrc).length := by
    rw [List.length_append, length_localStart]
    omega
  have hneeds : Runs (elfNeedsGnuStackClear (A.length + 30 + m.name.length + m.localExtra.length) m.data.length)
      (layout A m B A.length C) (needsClear m.data) (layout A m B A.length C) := by
    rw [hat]
    rw [hold] at hsmall ⊢
    exact runs_elfNeedsGnuStackClear hsmall (hm.table hso)
  refine Runs.bind hneeds ?_
  by_cases hboth : (needsClear m.data && write) = true
  · rw [if_pos hboth, if_pos hboth]
    rw [Bool.and_eq_true] at hboth
    exact Runs.bind (runs_clearLibrary hsmall hm hso (hun hboth.2) hn hpos rfl) Runs.pure
  · rw [if_neg hboth, if_neg hboth]
    exact Runs.pure

/-- One round over the directory. -/
theorem runs_scanEntry (hsmall : (layout A m B A.length C).length < 2 ^ 63) (hm : m.WellFormed A.length)
    (hun : write = true → m.Unambiguous) (hn : n = (layout A m B A.length C).length)
    (hpos : pos = A.length + m.localRecord.length + B.length) {centralEnd : ℕ}
    (hend : pos + (m.centralRecord A.length).length ≤ centralEnd) :
    Runs (scanEntry n write centralEnd pos) (layout A m B A.length C)
      (m.needed, (m.centralRecord A.length).length)
      (layout A (if write then m.cleared else m) B A.length C) := by
  have htotal : (layout A m B A.length C).length =
      A.length + m.localRecord.length + B.length + (m.centralRecord A.length).length + C.length := length_layout
  have hrecord : (m.centralRecord A.length).length =
      46 + m.name.length + (m.centralExtra A.length).length + m.comment.length := length_centralRecord
  have hcentral : Stands (layout A m B A.length C) pos (m.centralRecord A.length) := hpos ▸ stands_central
  simp only [Member.centralRecord, stands_append, List.length_append, length_leBytes, m.versions.2, m.stamp.2,
    m.attributes.2] at hcentral
  obtain ⟨⟨⟨⟨⟨⟨⟨⟨⟨⟨⟨⟨⟨⟨⟨hsig, -⟩, hflags⟩, hmethod⟩, -⟩, -⟩, hcsize⟩, husize⟩, hnamelen⟩, hextralen⟩,
    hcommentlen⟩, -⟩, hlocal⟩, hname⟩, hextra⟩, -⟩ := hcentral
  rw [hrecord] at hend htotal
  rw [← Nat.add_assoc pos] at hextra
  refine Runs.bind (runs_refuse (by omega)) (Runs.bind (hsig.runs_load (by decide) (by norm_num [kZipCentral])) ?_)
  refine Runs.bind (runs_refuse (by simp; omega)) ?_
  refine Runs.bind (hflags.runs_load (by decide) m.flags.toNat_lt) ?_
  refine Runs.bind (hmethod.runs_load (by decide) m.method.toNat_lt) ?_
  refine Runs.bind (hcsize.runs_load (by decide) (narrow_lt hm.csize_fits)) ?_
  refine Runs.bind (husize.runs_load (by decide) (narrow_lt hm.usize_fits)) ?_
  refine Runs.bind (hnamelen.runs_load (by decide) hm.name_lt) ?_
  refine Runs.bind (hextralen.runs_load (by decide) hm.centralExtra_lt) ?_
  refine Runs.bind (hcommentlen.runs_load (by decide) hm.comment_lt) ?_
  refine Runs.bind (hlocal.runs_load (by decide) (narrow_lt hm.local_fits)) ?_
  refine Runs.bind (runs_refuse (by omega)) ?_
  refine Runs.bind (hm.runs_fullSizes hextra rfl) (Runs.bind (runs_endsInSo hname) ?_)
  rw [hrecord]
  by_cases hso : m.isSo = true
  · rw [if_pos hso]
    have hneeded : m.needed = needsClear m.data := by
      rw [Member.needed, hso, Bool.true_and]
    have hresult : (if write then m.cleared else m) = if needsClear m.data && write then m.patched else m := by
      rw [Member.cleared, hneeded]
      cases write <;> simp
    rw [hneeded, hresult]
    exact Runs.bind (runs_scanLibrary hsmall hm hso hun hn hpos) Runs.pure
  · have hneeded : m.needed = false := by
      rw [Member.needed, Bool.eq_false_iff.mpr hso, Bool.false_and]
    have hsame : (if write then m.cleared else m) = m := by
      rw [Member.cleared, hneeded]
      split <;> rfl
    rw [if_neg hso, hneeded, hsame]
    exact Runs.pure

end Round

end Entry

section Directory

def locals (ms : List Member) : List UInt8 := ms.flatMap fun m => m.gap ++ m.localRecord

/-- The directory of members whose first gap starts at `off`. -/
def central : ℕ → List Member → List UInt8
  | _, [] => []
  | off, m :: ms =>
    m.centralRecord (off + m.gap.length) ++ central (off + m.gap.length + m.localRecord.length) ms

/-- A property of each member and the place of its local record. -/
def AllAt (P : Member → ℕ → Prop) : ℕ → List Member → Prop
  | _, [] => True
  | off, m :: ms => P m (off + m.gap.length) ∧ AllAt P (off + m.gap.length + m.localRecord.length) ms

/-- An archive up to its end records, which are `tail`. -/
def archive (ms : List Member) (gap tail : List UInt8) : List UInt8 := locals ms ++ gap ++ central 0 ms ++ tail

/-- What a round of the patcher leaves of a member. -/
def Member.scanned (m : Member) (write : Bool) : Member := if write then m.cleared else m

variable {ms : List Member} {m : Member} {off n centralEnd : ℕ} {gap tail : List UInt8} {write : Bool}

theorem locals_append (xs ys : List Member) : locals (xs ++ ys) = locals xs ++ locals ys := List.flatMap_append

theorem length_locals_cons : (locals (m :: ms)).length =
    m.gap.length + m.localRecord.length + (locals ms).length := by
  simp only [locals, List.flatMap_cons, List.length_append]

theorem central_append (off : ℕ) (xs ys : List Member) :
    central off (xs ++ ys) = central off xs ++ central (off + (locals xs).length) ys := by
  induction xs generalizing off with
  | nil => rfl
  | cons m xs ih =>
    rw [List.cons_append, central, central, ih, List.append_assoc, length_locals_cons]
    simp only [Nat.add_assoc]

/-- The archive around one of its members. -/
theorem archive_eq_layout (done : List Member) (m : Member) (todo : List Member) (gap tail : List UInt8) :
    archive (done ++ m :: todo) gap tail = layout (locals done ++ m.gap) m (locals todo ++ gap ++ central 0 done)
      (locals done ++ m.gap).length
      (central ((locals done).length + m.gap.length + m.localRecord.length) todo ++ tail) := by
  have hlocals : locals (done ++ m :: todo) = locals done ++ (m.gap ++ m.localRecord ++ locals todo) := by
    rw [locals_append]
    rfl
  rw [archive, layout, hlocals, central_append, Nat.zero_add, central, List.length_append]
  simp only [List.append_assoc]

theorem length_scanned (hm : m.WellFormed off) (write : Bool) :
    (m.scanned write).localRecord.length = m.localRecord.length ∧
      ∀ off, ((m.scanned write).centralRecord off).length = (m.centralRecord off).length := by
  rw [Member.scanned, Member.cleared]
  by_cases hneeded : write = true ∧ m.needed = true
  · rw [if_pos hneeded.1, if_pos hneeded.2]
    have hso : m.isSo = true := (Bool.and_eq_true_iff.mp hneeded.2).1
    obtain ⟨hlocal, -⟩ : m.patched.localRecord.length = m.localRecord.length ∧
        (m.patched.centralRecord off).length = (m.centralRecord off).length := length_patched (hm.table hso)
    exact ⟨hlocal, fun _ => (length_patched (hm.table hso)).2⟩
  · have hsame : (if write then (if m.needed then m.patched else m) else m) = m := by
      split_ifs <;> simp_all
    rw [hsame]
    exact ⟨rfl, fun _ => rfl⟩

theorem gap_scanned (m : Member) (write : Bool) : (m.scanned write).gap = m.gap := by
  rw [Member.scanned, Member.cleared]
  split_ifs <;> rfl

/-- The loop over the directory, from the members that are still to do. -/
theorem runs_scanEntries (done todo : List Member) (needed : Bool)
    (hn : n = (archive (done ++ todo) gap tail).length) (hsmall : n < 2 ^ 63)
    (hm : AllAt Member.WellFormed (locals done).length todo)
    (hun : write = true → ∀ m ∈ todo, m.Unambiguous) {pos : ℕ}
    (hpos : pos = (locals (done ++ todo)).length + gap.length + (central 0 done).length)
    (hend : centralEnd = pos + (central (locals done).length todo).length) :
    Runs (scanEntries n write centralEnd todo.length pos needed) (archive (done ++ todo) gap tail)
      (needed || todo.any Member.needed) (archive (done ++ todo.map (Member.scanned · write)) gap tail) := by
  induction todo generalizing done needed pos with
  | nil =>
    rw [List.any_nil, Bool.or_false]
    exact Runs.pure
  | cons m todo ih =>
    obtain ⟨hmember, hrest⟩ := hm
    rw [← List.length_append] at hmember
    obtain ⟨hlocal, hcentral⟩ := length_scanned hmember write
    have hgap := gap_scanned m write
    have hstart : pos = (locals done ++ m.gap).length + m.localRecord.length +
        (locals todo ++ gap ++ central 0 done).length := by
      rw [hpos, locals_append, List.length_append, length_locals_cons]
      simp only [List.length_append]
      omega
    have hentry : pos + (m.centralRecord (locals done ++ m.gap).length).length ≤ centralEnd := by
      rw [hend, central, List.length_append, List.length_append]
      omega
    have hbefore := archive_eq_layout done m todo gap tail
    have hafter : archive ((done ++ [m.scanned write]) ++ todo) gap tail = layout (locals done ++ m.gap)
        (m.scanned write) (locals todo ++ gap ++ central 0 done) (locals done ++ m.gap).length
        (central ((locals done).length + m.gap.length + m.localRecord.length) todo ++ tail) := by
      rw [List.append_assoc done, List.singleton_append, archive_eq_layout, hgap, hlocal]
    have hround : Runs (scanEntry n write centralEnd pos) (archive (done ++ m :: todo) gap tail)
        (m.needed, (m.centralRecord (locals done ++ m.gap).length).length)
        (archive ((done ++ [m.scanned write]) ++ todo) gap tail) := by
      rw [hbefore] at hn ⊢
      rw [hafter]
      exact runs_scanEntry (hn ▸ hsmall) hmember (fun hw => hun hw m List.mem_cons_self) hn hstart hentry
    have hlocals : (locals (done ++ [m.scanned write])).length =
        (locals done).length + m.gap.length + m.localRecord.length := by
      rw [locals_append, List.length_append, length_locals_cons, hgap, hlocal]
      simp only [locals, List.flatMap_nil, List.length_nil]
      omega
    have hroom : n = (archive ((done ++ [m.scanned write]) ++ todo) gap tail).length := by
      rw [hn, hbefore, hafter, length_layout, length_layout, hlocal, hcentral]
    have hdirectory : (central 0 (done ++ [m.scanned write])).length =
        (central 0 done).length + (m.centralRecord (locals done ++ m.gap).length).length := by
      rw [central_append, List.length_append, Nat.zero_add, central, central, List.append_nil, hgap,
        hcentral, List.length_append]
    have hnext := ih (done ++ [m.scanned write]) (needed || m.needed) hroom (hlocals ▸ hrest)
      (fun hw m' hm' => hun hw m' (List.mem_cons_of_mem _ hm'))
      (show pos + (m.centralRecord (locals done ++ m.gap).length).length = _ by
        rw [hpos, hdirectory, locals_append done, locals_append (done ++ _)]
        simp only [List.length_append, length_locals_cons, hlocals]
        omega)
      (by
        rw [hend, hlocals, central, List.length_append, List.length_append]
        omega)
    have hdone : archive ((done ++ [m.scanned write]) ++ todo.map (Member.scanned · write)) gap tail =
        archive (done ++ (m :: todo).map (Member.scanned · write)) gap tail := by
      rw [List.append_assoc]
      rfl
    rw [hdone, Bool.or_assoc] at hnext
    exact Runs.bind hround hnext

end Directory

end Rgpot.AotiExecstack
