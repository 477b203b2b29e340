import Rgpot.Uma.AotiPackage

/-! Whole packages: the end records, and what scanning and clearing make of them. -/
namespace Rgpot.AotiExecstack
open ByteBuffer Words

/-- The ZIP64 end record with its locator, and what the short end record holds beside them. -/
structure Zip64End where
  recordSize : Raw 8
  versions : Raw 4
  onDisk : Raw 8
  extensible : List UInt8
  locatorDisk : Raw 4
  disks : Raw 4
  shortEntries : ℕ
  shortSize : ℕ
  shortOff : ℕ

def Zip64End.record (z : Zip64End) (entries size off : ℕ) : List UInt8 :=
  leBytes 4 0x06064b50 ++ z.recordSize.1 ++ z.versions.1 ++ leBytes 4 0 ++ leBytes 4 0 ++ z.onDisk.1 ++
    leBytes 8 entries ++ leBytes 8 size ++ leBytes 8 off ++ z.extensible

def Zip64End.locator (z : Zip64End) (off : ℕ) : List UInt8 :=
  leBytes 4 0x07064b50 ++ z.locatorDisk.1 ++ leBytes 8 off ++ z.disks.1

structure Package where
  members : List Member
  gap : List UInt8
  zip64 : Option Zip64End
  onDisk : Raw 2
  comment : List UInt8

namespace Package
variable (p : Package)

def entries : ℕ := p.members.length
def centralSize : ℕ := (central 0 p.members).length
def centralOff : ℕ := (locals p.members ++ p.gap).length

/-- The entries, size and offset of the short end record. -/
def shortFields : ℕ × ℕ × ℕ :=
  match p.zip64 with
  | none => (p.entries, p.centralSize, p.centralOff)
  | some z => (z.shortEntries, z.shortSize, z.shortOff)

def endRecord : List UInt8 :=
  leBytes 4 0x06054b50 ++ leBytes 2 0 ++ leBytes 2 0 ++ p.onDisk.1 ++ leBytes 2 p.shortFields.1 ++
    leBytes 4 p.shortFields.2.1 ++ leBytes 4 p.shortFields.2.2 ++ leBytes 2 p.comment.length ++ p.comment

def zip64Records : List UInt8 :=
  match p.zip64 with
  | none => []
  | some z => z.record p.entries p.centralSize p.centralOff ++ z.locator (p.centralOff + p.centralSize)

def bytes : List UInt8 := archive p.members p.gap (p.zip64Records ++ p.endRecord)

def needed : Bool := p.members.any Member.needed

/-- What the patcher leaves of a package. -/
def scanned (write : Bool) : Package := { p with members := p.members.map (Member.scanned · write) }

/-- Members whose fields hold them, end records that a reader finds, and no comment that looks like one. -/
structure WellFormed : Prop where
  placed : AllAt Member.WellFormed 0 p.members
  length_lt : p.bytes.length < 2 ^ 63
  entries_lt : p.entries < 2 ^ 64
  comment_lt : p.comment.length < 2 ^ 16
  short_lt : p.shortFields.1 < 2 ^ 16 ∧ p.shortFields.2.1 < 2 ^ 32 ∧ p.shortFields.2.2 < 2 ^ 32
  marked : (p.shortFields.1 = 0xffff ∨ p.shortFields.2.1 = 0xffffffff ∨ p.shortFields.2.2 = 0xffffffff) ↔
    p.zip64.isSome = true
  quiet : ∀ k, 0 < k → k ≤ p.comment.length →
    ¬ (word 4 p.endRecord k = 0x06054b50 ∧ word 2 p.endRecord (k + 20) = p.comment.length - k)

end Package

section Scanned
variable {ms : List Member} {m : Member} {off : ℕ}

theorem wellFormed_scanned (hm : m.WellFormed off) (write : Bool) : (m.scanned write).WellFormed off := by
  rw [Member.scanned, Member.cleared]
  by_cases hboth : write = true ∧ m.needed = true
  · rw [if_pos hboth.1, if_pos hboth.2]
    have hso : m.isSo = true := (Bool.and_eq_true_iff.mp hboth.2).1
    have htable := hm.table hso
    have hlength : m.patched.data.length = m.data.length := length_clearedElf htable
    have hextra : m.patched.centralExtra off = m.centralExtra off :=
      centralExtra_restamped (length_clearedElf htable) _ _ _
    obtain ⟨hmethod, hflag, husize⟩ := hm.stored hso
    refine ⟨hm.name_lt, hm.localExtra_lt, hextra ▸ hm.centralExtra_lt, hm.comment_lt, hm.extras_fit,
      hm.usize_fits, hlength ▸ hm.csize_fits, hm.local_fits, fun _ => ⟨hmethod, hflag, husize.trans hlength.symm⟩,
      fun _ => ?_, fun _ => tableBehind_clearedElf htable⟩
    have hsome : m.patched.descriptor.isSome = m.descriptor.isSome := Option.isSome_map
    rw [hsome]
    exact hm.streamed hso
  · have hsame : (if write then (if m.needed then m.patched else m) else m) = m := by
      split_ifs <;> simp_all
    rw [hsame]
    exact hm

theorem placed_scanned (h : AllAt Member.WellFormed off ms) (write : Bool) :
    AllAt Member.WellFormed off (ms.map (Member.scanned · write)) ∧
      (locals (ms.map (Member.scanned · write))).length = (locals ms).length ∧
      (central off (ms.map (Member.scanned · write))).length = (central off ms).length := by
  induction ms generalizing off with
  | nil => exact ⟨trivial, rfl, rfl⟩
  | cons m ms ih =>
    obtain ⟨hm, hms⟩ := h
    obtain ⟨hplaced, hlocals, hcentral⟩ := ih hms
    obtain ⟨hlocal, hentry⟩ := length_scanned hm write
    have hgap := gap_scanned m write
    rw [List.map_cons]
    refine ⟨⟨?_, ?_⟩, ?_, ?_⟩
    · rw [hgap]
      exact wellFormed_scanned hm write
    · rw [hgap, hlocal]
      exact hplaced
    · rw [length_locals_cons, length_locals_cons, hgap, hlocal, hlocals]
    · rw [central, central, List.length_append, List.length_append, hgap, hlocal, hentry, hcentral]

/-- A patched library needs no second round. -/
theorem needed_cleared (hm : m.WellFormed off) : (m.scanned true).needed = false := by
  rw [Member.scanned, if_pos rfl, Member.cleared]
  by_cases hneeded : m.needed = true
  · rw [if_pos hneeded]
    have hso : m.isSo = true := (Bool.and_eq_true_iff.mp hneeded).1
    have hdata : needsClear m.patched.data = false := needsClear_clearedElf (hm.table hso)
    rw [Member.needed, hdata, Bool.and_false]
  · rw [if_neg hneeded]
    exact Bool.eq_false_iff.mpr hneeded

variable {p : Package}

/-- The end records stay. -/
theorem Package.WellFormed.end_scanned (hp : p.WellFormed) (write : Bool) :
    (p.scanned write).zip64Records = p.zip64Records ∧ (p.scanned write).endRecord = p.endRecord ∧
      (p.scanned write).shortFields = p.shortFields := by
  obtain ⟨-, hlocals, hcentral⟩ := placed_scanned hp.placed write
  have hentries : (p.scanned write).entries = p.entries := List.length_map _
  have hsize : (p.scanned write).centralSize = p.centralSize := hcentral
  have hoff : (p.scanned write).centralOff = p.centralOff := by
    rw [Package.centralOff, Package.centralOff, List.length_append, List.length_append]
    exact congrArg (· + p.gap.length) hlocals
  have hzip64 : (p.scanned write).zip64 = p.zip64 := rfl
  have hshort : (p.scanned write).shortFields = p.shortFields := by
    rw [Package.shortFields, Package.shortFields, hentries, hsize, hoff, hzip64]
  refine ⟨?_, ?_, hshort⟩
  · rw [Package.zip64Records, Package.zip64Records, hentries, hsize, hoff, hzip64]
  · rw [Package.endRecord, Package.endRecord, hshort]
    rfl

theorem Package.WellFormed.bytes_scanned (hp : p.WellFormed) (write : Bool) : (p.scanned write).bytes =
    archive (p.members.map (Member.scanned · write)) p.gap (p.zip64Records ++ p.endRecord) := by
  obtain ⟨hrecords, hend, -⟩ := hp.end_scanned write
  rw [Package.bytes, hrecords, hend]
  rfl

theorem Package.WellFormed.scanned (hp : p.WellFormed) (write : Bool) : (p.scanned write).WellFormed := by
  obtain ⟨-, hend, hshort⟩ := hp.end_scanned write
  obtain ⟨hplaced, hlocals, hcentral⟩ := placed_scanned hp.placed write
  have hlength : (p.scanned write).bytes.length = p.bytes.length := by
    rw [hp.bytes_scanned, Package.bytes, archive, archive]
    simp only [List.length_append, hlocals, hcentral]
  have hentries : (p.scanned write).entries = p.entries := List.length_map _
  refine ⟨hplaced, hlength ▸ hp.length_lt, hentries ▸ hp.entries_lt, hp.comment_lt, hshort ▸ hp.short_lt,
    hshort ▸ hp.marked, ?_⟩
  rw [hend]
  exact hp.quiet

theorem allAt_forall {P : Member → ℕ → Prop} (h : AllAt P off ms) : ∀ m ∈ ms, ∃ off, P m off := by
  induction ms generalizing off with
  | nil => exact fun _ h => nomatch h
  | cons m ms ih =>
    intro m' hm'
    rcases List.mem_cons.mp hm' with rfl | hm'
    · exact ⟨_, h.1⟩
    · exact ih h.2 m' hm'

theorem Package.WellFormed.needed_cleared (hp : p.WellFormed) : (p.scanned true).needed = false := by
  rw [Package.needed, Package.scanned, List.any_map, List.any_eq_false]
  intro m hm
  obtain ⟨off, hmember⟩ := allAt_forall hp.placed m hm
  exact Bool.eq_false_iff.mp (AotiExecstack.needed_cleared hmember)

end Scanned

section EndRecord
variable {front e : List UInt8} {n first : ℕ}

/-- Whether the bytes `e` at the end of a file hold an end record at `k`. -/
theorem runs_isEocd {k : ℕ} (hk : k + 22 ≤ e.length) (hn : n = front.length + e.length) :
    Runs (isEocd n (front.length + k)) (front ++ e ++ [])
      (decide (word 4 e k = 0x06054b50 ∧ word 2 e (k + 20) = e.length - k - 22)) (front ++ e ++ []) := by
  have hrest : n - (front.length + k) - 22 = e.length - k - 22 := by omega
  refine Runs.bind (runs_load_between (by omega)) ?_
  by_cases hsig : word 4 e k = 0x06054b50
  · rw [if_pos hsig, hrest, Nat.add_assoc]
    refine Runs.bind (runs_load_between (by omega)) ?_
    simp only [hsig, true_and]
    exact Runs.pure
  · rw [if_neg hsig]
    simp only [hsig, false_and, decide_false]
    exact Runs.pure

/-- The search from the end stops at the end record. -/
theorem runs_findEocd (hn : n = front.length + e.length) (hfirst : first ≤ front.length)
    (hrecord : word 4 e 0 = 0x06054b50 ∧ word 2 e 20 = e.length - 22)
    (hquiet : ∀ k, 0 < k → k + 22 ≤ e.length →
      ¬ (word 4 e k = 0x06054b50 ∧ word 2 e (k + 20) = e.length - k - 22)) {k : ℕ} (hk : k + 22 ≤ e.length) :
    Runs (findEocd n first (front.length + k)) (front ++ e ++ []) (some front.length) (front ++ e ++ []) := by
  induction k with
  | zero =>
    have hhere := runs_isEocd hk hn
    rw [Nat.zero_add, Nat.sub_zero, decide_eq_true hrecord, Nat.add_zero] at hhere
    rw [Nat.add_zero]
    cases hlength : front.length with
    | zero =>
      rw [hlength] at hhere
      exact Runs.bind hhere Runs.pure
    | succ pos =>
      rw [hlength] at hhere
      exact Runs.bind hhere Runs.pure
  | succ k ih =>
    have hhere := runs_isEocd hk hn
    rw [decide_eq_false (hquiet (k + 1) (Nat.succ_pos k) hk)] at hhere
    rw [← Nat.add_assoc] at hhere ⊢
    refine Runs.bind hhere ?_
    rw [if_neg Bool.false_ne_true, if_neg (by omega)]
    exact ih (by omega)

end EndRecord

section Scan
variable {p : Package}

theorem length_endRecord : p.endRecord.length = 22 + p.comment.length := by
  simp only [Package.endRecord, List.length_append, length_leBytes, p.onDisk.2]

/-- What comes before the short end record. -/
def Package.front (p : Package) : List UInt8 := locals p.members ++ p.gap ++ central 0 p.members ++ p.zip64Records

theorem bytes_eq_front : p.bytes = p.front ++ p.endRecord ++ [] := by
  rw [Package.bytes, archive, Package.front]
  simp only [List.append_assoc, List.append_nil]

theorem length_front : p.front.length = p.centralOff + p.centralSize + p.zip64Records.length := by
  rw [Package.front, Package.centralOff, Package.centralSize, List.length_append, List.length_append]

/-- The fields of the end record. -/
theorem end_fields : Stands p.bytes p.front.length (leBytes 4 0x06054b50) ∧
    Stands p.bytes (p.front.length + 4) (leBytes 2 0) ∧ Stands p.bytes (p.front.length + 6) (leBytes 2 0) ∧
    Stands p.bytes (p.front.length + 10) (leBytes 2 p.shortFields.1) ∧
    Stands p.bytes (p.front.length + 12) (leBytes 4 p.shortFields.2.1) ∧
    Stands p.bytes (p.front.length + 16) (leBytes 4 p.shortFields.2.2) ∧
    Stands p.bytes (p.front.length + 20) (leBytes 2 p.comment.length) := by
  have h : Stands p.bytes p.front.length p.endRecord := bytes_eq_front ▸ stands_between _ _ _
  simp only [Package.endRecord, stands_append, List.length_append, length_leBytes, p.onDisk.2] at h
  obtain ⟨⟨⟨⟨⟨⟨⟨⟨hsig, hdisk⟩, hfirst⟩, -⟩, hentries⟩, hsize⟩, hoff⟩, hcomment⟩, -⟩ := h
  exact ⟨hsig, hdisk, hfirst, hentries, hsize, hoff, hcomment⟩

namespace Package.WellFormed
variable (hp : p.WellFormed)
include hp

theorem runs_lastEocd : Runs (lastEocd p.bytes.length) p.bytes (some p.front.length) p.bytes := by
  have hlength : p.bytes.length = p.front.length + p.endRecord.length := by
    rw [bytes_eq_front, List.append_nil, List.length_append]
  have hend : p.endRecord.length = 22 + p.comment.length := length_endRecord
  have hcomment := hp.comment_lt
  have hword : ∀ w k v, Stands p.bytes (p.front.length + k) (leBytes w v) → 0 < w → v < 256 ^ w →
      k + w ≤ p.endRecord.length → word w p.endRecord k = v := by
    intro w k v hstands hw hv hk
    have hload := hstands.word
    rwa [length_leBytes, bytes_eq_front, word_between hk, ofLeBytes_leBytes hv] at hload
  obtain ⟨hsig, -, -, -, -, -, hcommentlen⟩ := end_fields (p := p)
  have hrecord : word 4 p.endRecord 0 = 0x06054b50 ∧ word 2 p.endRecord 20 = p.endRecord.length - 22 := by
    refine ⟨hword 4 0 _ hsig (by decide) (by norm_num) (by omega), ?_⟩
    rw [hword 2 20 _ hcommentlen (by decide) hcomment (by omega), hend]
    omega
  have hquiet : ∀ k, 0 < k → k + 22 ≤ p.endRecord.length →
      ¬ (word 4 p.endRecord k = 0x06054b50 ∧ word 2 p.endRecord (k + 20) = p.endRecord.length - k - 22) := by
    intro k hk hle
    have hrest : p.endRecord.length - k - 22 = p.comment.length - k := by omega
    rw [hrest]
    exact hp.quiet k hk (by omega)
  rw [lastEocd, if_pos (by omega)]
  have hstart : p.bytes.length - 22 = p.front.length + p.comment.length := by omega
  have hfirst : (if p.bytes.length > 65557 then p.bytes.length - 65557 else 0) ≤ p.front.length := by
    split <;> omega
  rw [hstart]
  have hroom : p.comment.length + 22 ≤ p.endRecord.length := by omega
  have hfound := runs_findEocd hlength hfirst hrecord hquiet hroom
  rwa [← bytes_eq_front] at hfound

theorem runs_centralDirectory : Runs (centralDirectory p.bytes.length p.front.length) p.bytes
    (p.entries, p.centralSize, p.centralOff) p.bytes := by
  obtain ⟨-, -, -, hentries, hsize, hoff, -⟩ := end_fields (p := p)
  obtain ⟨hentries_lt, hsize_lt, hoff_lt⟩ := hp.short_lt
  have hlength := hp.length_lt
  have htotal : p.bytes.length = p.centralOff + p.centralSize + p.zip64Records.length + p.endRecord.length := by
    rw [bytes_eq_front, List.append_nil, List.length_append, length_front]
  refine Runs.bind (hentries.runs_load (by decide) hentries_lt) ?_
  refine Runs.bind (hsize.runs_load (by decide) hsize_lt) (Runs.bind (hoff.runs_load (by decide) hoff_lt) ?_)
  cases hzip64 : p.zip64 with
  | none =>
    have hmarked := hp.marked
    rw [hzip64] at hmarked
    rw [if_neg (hmarked.not.mpr Bool.false_ne_true)]
    simp only [Package.shortFields, hzip64]
    exact Runs.pure
  | some z =>
    rw [if_pos (hp.marked.mpr (hzip64 ▸ rfl))]
    have hrecords : p.zip64Records = z.record p.entries p.centralSize p.centralOff ++
        z.locator (p.centralOff + p.centralSize) := by
      rw [Package.zip64Records, hzip64]
    have hrecord : (z.record p.entries p.centralSize p.centralOff).length = 56 + z.extensible.length := by
      simp only [Zip64End.record, List.length_append, length_leBytes, z.recordSize.2, z.versions.2, z.onDisk.2]
    have hlocator : (z.locator (p.centralOff + p.centralSize)).length = 20 := by
      simp only [Zip64End.locator, List.length_append, length_leBytes, z.locatorDisk.2, z.disks.2]
    have hroom : p.zip64Records.length = 56 + z.extensible.length + 20 := by
      rw [hrecords, List.length_append, hrecord, hlocator]
    have hstands : Stands p.bytes (p.centralOff + p.centralSize)
        (z.record p.entries p.centralSize p.centralOff ++ z.locator (p.centralOff + p.centralSize)) := by
      have hbytes : p.bytes = (locals p.members ++ p.gap ++ central 0 p.members) ++ p.zip64Records ++
          p.endRecord := by
        rw [Package.bytes, archive, List.append_assoc _ p.zip64Records]
      have hat : p.centralOff + p.centralSize = (locals p.members ++ p.gap ++ central 0 p.members).length := by
        rw [List.length_append]
        rfl
      rw [← hrecords, hbytes, hat]
      exact stands_between _ _ _
    rw [stands_append, hrecord] at hstands
    obtain ⟨hfields, hloc⟩ := hstands
    simp only [Zip64End.record, stands_append, List.length_append, length_leBytes, z.recordSize.2, z.versions.2,
      z.onDisk.2] at hfields
    simp only [Zip64End.locator, stands_append, List.length_append, length_leBytes, z.locatorDisk.2] at hloc
    obtain ⟨⟨⟨⟨⟨⟨⟨⟨⟨hsig, -⟩, -⟩, hdisk⟩, hfirst⟩, -⟩, hentries64⟩, hsize64⟩, hoff64⟩, -⟩ := hfields
    obtain ⟨⟨⟨hlocsig, -⟩, hat⟩, -⟩ := hloc
    have hfront : p.front.length = p.centralOff + p.centralSize + (56 + z.extensible.length) + 20 := by
      rw [length_front, hroom]
      omega
    have hback20 : p.front.length - 20 = p.centralOff + p.centralSize + (56 + z.extensible.length) := by omega
    have hback12 : p.front.length - 12 =
        p.centralOff + p.centralSize + (56 + z.extensible.length) + (4 + 4) := by omega
    rw [if_neg (by omega), hback20, hback12]
    refine Runs.bind (hlocsig.runs_load (by decide) (by norm_num)) (Runs.bind (runs_refuse (by simp)) ?_)
    refine Runs.bind (hat.runs_load (by decide) (by omega)) (Runs.bind (runs_refuse (by omega)) ?_)
    refine Runs.bind (hsig.runs_load (by decide) (by norm_num)) ?_
    refine Runs.bind (hdisk.runs_load (by decide) (by norm_num)) ?_
    refine Runs.bind (hfirst.runs_load (by decide) (by norm_num)) (Runs.bind (runs_refuse (by simp)) ?_)
    refine Runs.bind (hentries64.runs_load (by decide) hp.entries_lt) ?_
    refine Runs.bind (hsize64.runs_load (by decide) (by omega)) ?_
    exact Runs.bind (hoff64.runs_load (by decide) (by omega)) Runs.pure

/-- A scan finds exactly whether a library needs to be patched, and with `write` it patches exactly those. -/
theorem runs_scan (write : Bool) (hun : write = true → ∀ m ∈ p.members, m.Unambiguous) :
    Runs (scanOrClearPt2 write) p.bytes p.needed (p.scanned write).bytes := by
  obtain ⟨-, hdisk, hfirst, -, -, -, -⟩ := end_fields (p := p)
  have htotal : p.bytes.length = p.centralOff + p.centralSize + p.zip64Records.length + p.endRecord.length := by
    rw [bytes_eq_front, List.append_nil, List.length_append, length_front]
  refine Runs.bind runs_extent (Runs.bind hp.runs_lastEocd ?_)
  refine Runs.bind (hdisk.runs_load (by decide) (by norm_num)) ?_
  refine Runs.bind (hfirst.runs_load (by decide) (by norm_num)) (Runs.bind (runs_refuse (by simp)) ?_)
  refine Runs.bind hp.runs_centralDirectory (Runs.bind (runs_refuse (by omega)) ?_)
  have hstart : p.centralOff = (locals ([] ++ p.members)).length + p.gap.length +
      (central 0 ([] : List Member)).length := List.length_append
  have hloop := runs_scanEntries [] p.members false (Eq.refl p.bytes.length) hp.length_lt hp.placed hun hstart
    (Eq.refl (p.centralOff + p.centralSize))
  rw [List.nil_append, List.nil_append, Bool.false_or] at hloop
  rw [hp.bytes_scanned]
  exact hloop

/-- Clearing settles a package. -/
theorem runs_settled : Runs (scanOrClearPt2 false) (p.scanned true).bytes false (p.scanned true).bytes := by
  have hsame : ((p.scanned true).scanned false).bytes = (p.scanned true).bytes := by
    have hid : (Member.scanned · false) = id := rfl
    rw [Package.scanned, hid, List.map_id]
  have hscan := (hp.scanned true).runs_scan false nofun
  rwa [hp.needed_cleared, hsame] at hscan

end Package.WellFormed

/-- Clearing a package patches the libraries whose stack would be executable and renews their checksums, and
nothing else; a second scan then finds none. -/
theorem clear_settles (p : Package) (hp : p.WellFormed) (hun : ∀ m ∈ p.members, m.Unambiguous) :
    scanOrClearPt2 true p.bytes = .ok (p.needed, (p.scanned true).bytes) ∧
      scanOrClearPt2 false (p.scanned true).bytes = .ok (false, (p.scanned true).bytes) :=
  ⟨hp.runs_scan true fun _ => hun, hp.runs_settled⟩

end Scan

section Sample

/-- A library with one program header, that of an executable stack. -/
def sampleElf : List UInt8 :=
  [0x7f, 0x45, 0x4c, 0x46, 2, 1] ++ List.replicate 26 0 ++ leBytes 8 64 ++ List.replicate 14 0 ++ leBytes 2 56 ++
    leBytes 2 1 ++ List.replicate 6 0 ++ leBytes 4 kPtGnuStack ++ leBytes 4 7 ++ List.replicate 48 0

def sampleMember : Member where
  gap := []
  name := soSuffix
  data := sampleElf
  localHead := ⟨List.replicate 10 0, rfl⟩
  localCrc := 0
  localSizes := ⟨leBytes 4 120 ++ leBytes 4 120, rfl⟩
  localExtra := []
  descriptor := none
  versions := ⟨List.replicate 4 0, rfl⟩
  flags := 0
  method := 0
  stamp := ⟨List.replicate 4 0, rfl⟩
  crc := 0
  usize := 120
  attributes := ⟨List.replicate 8 0, rfl⟩
  extras := []
  wideUsize := false
  wideCsize := false
  wideLocal := false
  otherExtra := []
  comment := []

def samplePackage : Package := ⟨[sampleMember], [], none, ⟨leBytes 2 1, rfl⟩, []⟩

theorem programHeaders_sampleElf : programHeaders sampleElf = some (64, 56, 1) := by
  decide

theorem wellFormed_sampleMember : sampleMember.WellFormed 0 := by
  refine ⟨by decide, by decide, by decide, by decide, nofun, by decide, by decide, by decide,
    fun _ => by decide, fun _ => by decide, fun _ phoff phentsize phnum h => ?_⟩
  obtain ⟨rfl, rfl, rfl⟩ : 64 = phoff ∧ 56 = phentsize ∧ 1 = phnum := by
    simpa using programHeaders_sampleElf.symm.trans h
  decide

theorem wellFormed_samplePackage : samplePackage.WellFormed :=
  ⟨⟨wellFormed_sampleMember, trivial⟩, by decide +kernel, by decide, by decide, by decide +kernel,
    by decide +kernel, fun _ hk hle => absurd hk (Nat.not_lt.mpr hle)⟩

theorem unambiguous_sampleMember : ∀ m ∈ samplePackage.members, m.Unambiguous := by
  rintro m hm _ hd
  obtain rfl := List.mem_singleton.mp hm
  cases hd

theorem clear_settles_sample : scanOrClearPt2 true samplePackage.bytes =
      .ok (samplePackage.needed, (samplePackage.scanned true).bytes) ∧
    scanOrClearPt2 false (samplePackage.scanned true).bytes = .ok (false, (samplePackage.scanned true).bytes) :=
  clear_settles samplePackage wellFormed_samplePackage unambiguous_sampleMember

end Sample

end Rgpot.AotiExecstack
