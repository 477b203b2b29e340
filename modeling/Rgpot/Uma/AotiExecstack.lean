import Rgpot.Lib.ByteBuffer

/-! The patcher of AOTI packages: it walks the directory of a ZIP archive and clears the executable bit of
the stack headers of its libraries. Whatever bytes it is given, it stays inside of the buffer. -/
namespace Rgpot.AotiExecstack
open ByteBuffer

def kPtGnuStack : ℕ := 0x6474e551
def kPfX : ℕ := 1
def kZipLocal : ℕ := 0x04034b50
def kZipCentral : ℕ := 0x02014b50

def zipCrc32 (data : List UInt8) : UInt32 :=
  ~~~data.foldl (fun crc byte => (List.range 8).foldl
    (fun crc _ => (crc >>> 1) ^^^ (0xedb88320 &&& (0 - (crc &&& 1)))) (crc ^^^ byte.toUInt32)) 0xffffffff

/-- `uint64_t` arithmetic; a pointer plus an offset wraps in the same way. -/
def wrap64 (x : ℕ) : ℕ := x % 2 ^ 64

section Elf
variable (data n : ℕ)

/-- The checks of an ELF file of `n` bytes at `data`, and its `phoff`, `phentsize` and `phnum`. -/
def elfProgramHeaders : Access (Option (ℕ × ℕ × ℕ)) := do
  if n < 64 then return none
  else if (← loadBytes data 4) ≠ [0x7f, 0x45, 0x4c, 0x46] then return none
  else if (← load 1 (data + 4)) ≠ 2 ∨ (← load 1 (data + 5)) ≠ 1 then return none
  else
    let phoff ← load 8 (data + 32)
    let phentsize ← load 2 (data + 54)
    let phnum ← load 2 (data + 56)
    if phentsize < 8 ∨ phnum = 0 then return none
    else return some (phoff, phentsize, phnum)

/-- The loop of `clear_elf_gnu_stack`, with the headers that are left. -/
def clearHeaders (phoff phentsize : ℕ) : ℕ → ℕ → Bool → Access Bool
  | 0, _, changed => return changed
  | left + 1, i, changed => do
    let off := wrap64 (phoff + i * phentsize)
    if wrap64 (off + 8) > n then return changed
    else if (← load 4 (wrap64 (data + off))) ≠ kPtGnuStack then
      clearHeaders phoff phentsize left (i + 1) changed
    else
      let flags ← load 4 (wrap64 (data + off + 4))
      if flags &&& kPfX ≠ 0 then
        store 4 (wrap64 (data + off + 4)) (flags &&& (2 ^ 32 - 1 - kPfX))
        clearHeaders phoff phentsize left (i + 1) true
      else clearHeaders phoff phentsize left (i + 1) changed

/-- `clear_elf_gnu_stack`. -/
def clearElfGnuStack : Access Bool := do
  match ← elfProgramHeaders data n with
  | none => return false
  | some (phoff, phentsize, phnum) => clearHeaders data n phoff phentsize phnum 0 false

/-- The loop of `elf_needs_gnu_stack_clear`. -/
def firstStackHeader (phoff phentsize : ℕ) : ℕ → ℕ → Access Bool
  | 0, _ => return false
  | left + 1, i => do
    let off := wrap64 (phoff + i * phentsize)
    if wrap64 (off + 8) > n then return false
    else if (← load 4 (wrap64 (data + off))) = kPtGnuStack then
      return (← load 4 (wrap64 (data + off + 4))) &&& kPfX ≠ 0
    else firstStackHeader phoff phentsize left (i + 1)

/-- `elf_needs_gnu_stack_clear`. -/
def elfNeedsGnuStackClear : Access Bool := do
  match ← elfProgramHeaders data n with
  | none => return false
  | some (phoff, phentsize, phnum) => firstStackHeader data n phoff phentsize phnum 0

end Elf

section Zip
variable (n : ℕ)

def requireRegion (off len : ℕ) : Access Unit :=
  refuse (off > n ∨ len > n - off) "UmaPot: truncated AOTI ZIP record"

/-- An end record at `pos` whose comment ends with the file. -/
def isEocd (pos : ℕ) : Access Bool := do
  if (← load 4 pos) = 0x06054b50 then return (← load 2 (pos + 20)) = n - pos - 22
  else return false

/-- `for (at = n - 22;; --at)`. -/
def findEocd (first : ℕ) : ℕ → Access (Option ℕ)
  | 0 => do
    if ← isEocd n 0 then return some 0
    else return none
  | pos + 1 => do
    if ← isEocd n (pos + 1) then return some (pos + 1)
    else if pos + 1 = first then return none
    else findEocd first pos

/-- The last end record, no further from the end than the longest comment. -/
def lastEocd : Access (Option ℕ) := do
  if n ≥ 22 then findEocd n (if n > 65557 then n - 65557 else 0) (n - 22)
  else return none

/-- `entries`, `central_size` and `central_off`. -/
def centralDirectory (eocd : ℕ) : Access (ℕ × ℕ × ℕ) := do
  let entries ← load 2 (eocd + 10)
  let centralSize ← load 4 (eocd + 12)
  let centralOff ← load 4 (eocd + 16)
  if entries = 0xffff ∨ centralSize = 0xffffffff ∨ centralOff = 0xffffffff then
    if eocd < 20 then fail "UmaPot: missing AOTI ZIP64 locator"
    else
      refuse ((← load 4 (eocd - 20)) ≠ 0x07064b50) "UmaPot: missing AOTI ZIP64 locator"
      let zip64 ← load 8 (eocd - 12)
      requireRegion n zip64 56
      refuse ((← load 4 zip64) ≠ 0x06064b50 ∨ (← load 4 (zip64 + 16)) ≠ 0 ∨ (← load 4 (zip64 + 20)) ≠ 0)
        "UmaPot: invalid AOTI ZIP64 directory"
      return (← load 8 (zip64 + 32), ← load 8 (zip64 + 40), ← load 8 (zip64 + 48))
  else return (entries, centralSize, centralOff)

/-- `expand(value)`, with the position after it. -/
def expand (stop value extra : ℕ) : Access (ℕ × ℕ) := do
  if value ≠ 0xffffffff then return (value, extra)
  else if stop - extra < 8 then fail "UmaPot: truncated AOTI ZIP64 size"
  else return (← load 8 extra, extra + 8)

/-- The walk over the extra fields, for `usize`, `csize` and `local`. -/
def zip64Sizes (usize csize localOff extraEnd extra : ℕ) : Access (ℕ × ℕ × ℕ) := do
  if h : extraEnd - extra ≥ 4 then
    let kind ← load 2 extra
    let len ← load 2 (extra + 2)
    refuse (len > extraEnd - (extra + 4)) "UmaPot: truncated AOTI ZIP extra field"
    if kind = 1 then
      let stop := extra + 4 + len
      let (usize, extra) ← expand stop usize (extra + 4)
      let (csize, extra) ← expand stop csize extra
      let (localOff, _) ← expand stop localOff extra
      return (usize, csize, localOff)
    else zip64Sizes usize csize localOff extraEnd (extra + 4 + len)
  else fail "UmaPot: missing AOTI ZIP64 sizes"
  termination_by extraEnd - extra

/-- `usize`, `csize` and `local` of an entry, from its extra fields where its own fields are too short. -/
def fullSizes (usize csize localOff extraEnd extra : ℕ) : Access (ℕ × ℕ × ℕ) := do
  if usize = 0xffffffff ∨ csize = 0xffffffff ∨ localOff = 0xffffffff then
    zip64Sizes usize csize localOff extraEnd extra
  else return (usize, csize, localOff)

/-- The writes to a library that needs them: its headers, and the CRC fields of both of its records and of
a data descriptor. -/
def clearLibrary (pos flags localOff dataOff csize : ℕ) : Access Unit := do
  let _ ← clearElfGnuStack dataOff csize
  let crc := (zipCrc32 (← loadBytes dataOff csize)).toNat
  store 4 (localOff + 14) crc
  store 4 (pos + 16) crc
  if flags &&& 8 ≠ 0 then
    requireRegion n (dataOff + csize) 4
    let sig ← load 4 (dataOff + csize)
    let descriptor := if sig = 0x08074b50 then dataOff + csize + 4 else dataOff + csize
    requireRegion n descriptor 4
    store 4 descriptor crc
  else return ()

/-- The part of a round for a name that ends in `.so`. -/
def scanLibrary (write : Bool) (pos flags method csize usize localOff : ℕ) : Access Bool := do
  refuse (method ≠ 0 ∨ flags &&& 1 ≠ 0) "UmaPot: AOTI libraries must use stored ZIP records"
  requireRegion n localOff 30
  refuse ((← load 4 localOff) ≠ kZipLocal ∨ csize ≠ usize) "UmaPot: invalid stored AOTI ZIP library"
  let dataOff := localOff + 30 + (← load 2 (localOff + 26)) + (← load 2 (localOff + 28))
  requireRegion n dataOff csize
  let needed ← elfNeedsGnuStackClear dataOff csize
  if needed && write then
    clearLibrary n pos flags localOff dataOff csize
    return needed
  else return needed

/-- `is_so`. -/
def endsInSo (nameOff namelen : ℕ) : Access Bool := do
  if namelen ≥ 3 then return (← loadBytes (nameOff + namelen - 3) 3) = [0x2e, 0x73, 0x6f]
  else return false

/-- One round of the loop over the directory: whether the entry needs a change, and the entry's length. -/
def scanEntry (write : Bool) (centralEnd pos : ℕ) : Access (Bool × ℕ) := do
  requireRegion n pos 46
  refuse (pos > centralEnd ∨ centralEnd - pos < 46 ∨ (← load 4 pos) ≠ kZipCentral)
    "UmaPot: invalid AOTI ZIP central entry"
  let flags ← load 2 (pos + 8)
  let method ← load 2 (pos + 10)
  let csize ← load 4 (pos + 20)
  let usize ← load 4 (pos + 24)
  let namelen ← load 2 (pos + 28)
  let extralen ← load 2 (pos + 30)
  let commentlen ← load 2 (pos + 32)
  let localOff ← load 4 (pos + 42)
  let recordLen := 46 + namelen + extralen + commentlen
  refuse (recordLen > centralEnd - pos) "UmaPot: truncated AOTI ZIP central entry"
  let (usize, csize, localOff) ←
    fullSizes usize csize localOff (pos + 46 + namelen + extralen) (pos + 46 + namelen)
  if ← endsInSo (pos + 46) namelen then
    let needed ← scanLibrary n write pos flags method csize usize localOff
    return (needed, recordLen)
  else return (false, recordLen)

/-- The loop over the directory, with the entries that are left. -/
def scanEntries (write : Bool) (centralEnd : ℕ) : ℕ → ℕ → Bool → Access Bool
  | 0, _, needed => return needed
  | left + 1, pos, needed => do
    let (here, recordLen) ← scanEntry n write centralEnd pos
    scanEntries write centralEnd left (pos + recordLen) (needed || here)

end Zip

/-- `scan_or_clear_pt2`. -/
def scanOrClearPt2 (write : Bool) : Access Bool := do
  let n ← extent
  match ← lastEocd n with
  | none => fail "UmaPot: AOTI ZIP has no central directory"
  | some eocd => do
    refuse ((← load 2 (eocd + 4)) ≠ 0 ∨ (← load 2 (eocd + 6)) ≠ 0) "UmaPot: split AOTI ZIP is unsupported"
    let (entries, centralSize, centralOff) ← centralDirectory n eocd
    requireRegion n centralOff centralSize
    scanEntries n write (centralOff + centralSize) entries centralOff false

section Bounds
variable {n data size phoff phentsize : ℕ}

/-- Where a program header is found that passes the bound check: past its library's first byte, or, after
the address has wrapped, in the eight bytes before it. -/
theorem header_bounds {off : ℕ} (hn : n < 2 ^ 63) (hdata : 8 ≤ data) (hend : data + size ≤ n)
    (hcheck : ¬ wrap64 (wrap64 off + 8) > size) :
    wrap64 (data + wrap64 off) + 4 ≤ n ∧ wrap64 (data + wrap64 off + 4) + 4 ≤ n := by
  simp only [wrap64] at hcheck ⊢
  omega

theorem safe_elfProgramHeaders (hend : data + size ≤ n) :
    Safe n (elfProgramHeaders data size) fun _ => True := by
  refine Safe.branch (fun _ => Safe.pure trivial) fun hsize => ?_
  refine Safe.bind (safe_loadBytes (by omega)) fun magic _ => ?_
  refine Safe.branch (fun _ => Safe.pure trivial) fun _ => ?_
  refine Safe.bind (safe_load (by omega)) fun cls _ => Safe.bind (safe_load (by omega)) fun order _ => ?_
  refine Safe.branch (fun _ => Safe.pure trivial) fun _ => ?_
  refine Safe.bind (safe_load (by omega)) fun phoff _ => Safe.bind (safe_load (by omega)) fun phentsize _ => ?_
  refine Safe.bind (safe_load (by omega)) fun phnum _ => ?_
  exact Safe.branch (fun _ => Safe.pure trivial) fun _ => Safe.pure trivial

theorem safe_clearHeaders (hn : n < 2 ^ 63) (hdata : 8 ≤ data) (hend : data + size ≤ n) (left i : ℕ)
    (changed : Bool) : Safe n (clearHeaders data size phoff phentsize left i changed) fun _ => True := by
  induction left generalizing i changed with
  | zero => exact Safe.pure trivial
  | succ left ih =>
    refine Safe.branch (fun _ => Safe.pure trivial) fun hcheck => ?_
    obtain ⟨hkind, hflags⟩ := header_bounds hn hdata hend hcheck
    refine Safe.bind (safe_load hkind) fun kind _ => ?_
    refine Safe.branch (fun _ => ih _ _) fun _ => ?_
    refine Safe.bind (safe_load hflags) fun flags _ => ?_
    exact Safe.branch (fun _ => Safe.bind (safe_store hflags) fun _ _ => ih _ _) fun _ => ih _ _

theorem safe_firstStackHeader (hn : n < 2 ^ 63) (hdata : 8 ≤ data) (hend : data + size ≤ n) (left i : ℕ) :
    Safe n (firstStackHeader data size phoff phentsize left i) fun _ => True := by
  induction left generalizing i with
  | zero => exact Safe.pure trivial
  | succ left ih =>
    refine Safe.branch (fun _ => Safe.pure trivial) fun hcheck => ?_
    obtain ⟨hkind, hflags⟩ := header_bounds hn hdata hend hcheck
    refine Safe.bind (safe_load hkind) fun kind _ => ?_
    exact Safe.branch (fun _ => Safe.bind (safe_load hflags) fun _ _ => Safe.pure trivial) fun _ => ih _

theorem safe_clearElfGnuStack (hn : n < 2 ^ 63) (hdata : 8 ≤ data) (hend : data + size ≤ n) :
    Safe n (clearElfGnuStack data size) fun _ => True := by
  refine Safe.bind (safe_elfProgramHeaders hend) fun found _ => ?_
  cases found with
  | none => exact Safe.pure trivial
  | some header => exact safe_clearHeaders hn hdata hend _ _ _

theorem safe_elfNeedsGnuStackClear (hn : n < 2 ^ 63) (hdata : 8 ≤ data) (hend : data + size ≤ n) :
    Safe n (elfNeedsGnuStackClear data size) fun _ => True := by
  refine Safe.bind (safe_elfProgramHeaders hend) fun found _ => ?_
  cases found with
  | none => exact Safe.pure trivial
  | some header => exact safe_firstStackHeader hn hdata hend _ _

theorem safe_requireRegion (off len : ℕ) : Safe n (requireRegion n off len) fun _ => off + len ≤ n :=
  safe_refuse.weaken fun _ h => by omega

theorem safe_isEocd {pos : ℕ} (hpos : pos + 22 ≤ n) : Safe n (isEocd n pos) fun _ => True := by
  refine Safe.bind (safe_load (by omega)) fun sig _ => ?_
  exact Safe.branch (fun _ => Safe.bind (safe_load (by omega)) fun _ _ => Safe.pure trivial)
    fun _ => Safe.pure trivial

theorem safe_findEocd (first : ℕ) {pos : ℕ} (hpos : pos + 22 ≤ n) :
    Safe n (findEocd n first pos) fun found => ∀ eocd ∈ found, eocd + 22 ≤ n := by
  induction pos with
  | zero =>
    refine Safe.bind (safe_isEocd hpos) fun here _ => ?_
    refine Safe.branch (fun _ => Safe.pure ?_) fun _ => Safe.pure nofun
    rintro _ ⟨⟩
    exact hpos
  | succ pos ih =>
    refine Safe.bind (safe_isEocd hpos) fun here _ => ?_
    refine Safe.branch (fun _ => Safe.pure ?_) fun _ => Safe.branch (fun _ => Safe.pure nofun) fun _ => ih (by omega)
    rintro _ ⟨⟩
    exact hpos

theorem safe_lastEocd (n : ℕ) : Safe n (lastEocd n) fun found => ∀ eocd ∈ found, eocd + 22 ≤ n :=
  Safe.branch (fun h => safe_findEocd _ (by omega)) fun _ => Safe.pure nofun

theorem safe_centralDirectory {eocd : ℕ} (heocd : eocd + 22 ≤ n) :
    Safe n (centralDirectory n eocd) fun _ => True := by
  refine Safe.bind (safe_load (by omega)) fun entries _ => Safe.bind (safe_load (by omega)) fun size _ => ?_
  refine Safe.bind (safe_load (by omega)) fun off _ => ?_
  refine Safe.branch (fun _ => ?_) fun _ => Safe.pure trivial
  refine Safe.branch (fun _ => safe_fail) fun _ => ?_
  refine Safe.bind (safe_load (by omega)) fun sig _ => Safe.bind safe_refuse fun _ _ => ?_
  refine Safe.bind (safe_load (by omega)) fun zip64 _ => Safe.bind (safe_requireRegion _ _) fun _ hregion => ?_
  refine Safe.bind (safe_load (by omega)) fun _ _ => Safe.bind (safe_load (by omega)) fun _ _ => ?_
  refine Safe.bind (safe_load (by omega)) fun _ _ => Safe.bind safe_refuse fun _ _ => ?_
  refine Safe.bind (safe_load (by omega)) fun _ _ => Safe.bind (safe_load (by omega)) fun _ _ => ?_
  exact Safe.bind (safe_load (by omega)) fun _ _ => Safe.pure trivial

theorem safe_expand {stop value extra : ℕ} (hstop : stop ≤ n) :
    Safe n (expand stop value extra) fun _ => True := by
  refine Safe.branch (fun _ => Safe.pure trivial) fun _ => Safe.branch (fun _ => safe_fail) fun _ => ?_
  exact Safe.bind (safe_load (by omega)) fun _ _ => Safe.pure trivial

theorem safe_zip64Sizes (usize csize localOff : ℕ) {extraEnd : ℕ} (hend : extraEnd ≤ n) (extra : ℕ) :
    Safe n (zip64Sizes usize csize localOff extraEnd extra) fun _ => True := by
  induction extra using zip64Sizes.induct extraEnd with
  | case1 extra hmore ih =>
    rw [zip64Sizes, dif_pos hmore]
    refine Safe.bind (safe_load (by omega)) fun kind _ => Safe.bind (safe_load (by omega)) fun len _ => ?_
    refine Safe.bind safe_refuse fun _ hlen => Safe.branch (fun _ => ?_) fun _ => ih len
    have hstop : extra + 4 + len ≤ n := by omega
    refine Safe.bind (safe_expand hstop) fun _ _ => Safe.bind (safe_expand hstop) fun _ _ => ?_
    exact Safe.bind (safe_expand hstop) fun _ _ => Safe.pure trivial
  | case2 extra hdone =>
    rw [zip64Sizes, dif_neg hdone]
    exact safe_fail

theorem safe_clearLibrary (hn : n < 2 ^ 63) {pos flags localOff dataOff csize : ℕ} (hpos : pos + 46 ≤ n)
    (hlocal : localOff + 30 ≤ n) (hdata : localOff + 30 ≤ dataOff) (hend : dataOff + csize ≤ n) :
    Safe n (clearLibrary n pos flags localOff dataOff csize) fun _ => True := by
  refine Safe.bind (safe_clearElfGnuStack hn (by omega) hend) fun _ _ => ?_
  refine Safe.bind (safe_loadBytes hend) fun _ _ => Safe.bind (safe_store (by omega)) fun _ _ => ?_
  refine Safe.bind (safe_store (by omega)) fun _ _ => Safe.branch (fun _ => ?_) fun _ => Safe.pure trivial
  refine Safe.bind (safe_requireRegion _ _) fun _ hsig => Safe.bind (safe_load hsig) fun _ _ => ?_
  exact Safe.bind (safe_requireRegion _ _) fun _ hcrc => safe_store hcrc

theorem safe_scanLibrary (hn : n < 2 ^ 63) (write : Bool) {pos : ℕ} (hpos : pos + 46 ≤ n)
    (flags method csize usize localOff : ℕ) :
    Safe n (scanLibrary n write pos flags method csize usize localOff) fun _ => True := by
  refine Safe.bind safe_refuse fun _ _ => Safe.bind (safe_requireRegion _ _) fun _ hlocal => ?_
  refine Safe.bind (safe_load (by omega)) fun _ _ => Safe.bind safe_refuse fun _ _ => ?_
  refine Safe.bind (safe_load (by omega)) fun namelen _ => Safe.bind (safe_load (by omega)) fun extralen _ => ?_
  refine Safe.bind (safe_requireRegion _ _) fun _ hend => ?_
  refine Safe.bind (safe_elfNeedsGnuStackClear hn (by omega) hend) fun needed _ => ?_
  refine Safe.branch (fun _ => ?_) fun _ => Safe.pure trivial
  exact Safe.bind (safe_clearLibrary hn hpos hlocal (by omega) hend) fun _ _ => Safe.pure trivial

theorem safe_scanEntry (hn : n < 2 ^ 63) (write : Bool) {centralEnd : ℕ} (hend : centralEnd ≤ n) (pos : ℕ) :
    Safe n (scanEntry n write centralEnd pos) fun _ => True := by
  refine Safe.bind (safe_requireRegion _ _) fun _ hpos => Safe.bind (safe_load (by omega)) fun _ _ => ?_
  refine Safe.bind safe_refuse fun _ hentry => ?_
  refine Safe.bind (safe_load (by omega)) fun _ _ => Safe.bind (safe_load (by omega)) fun _ _ => ?_
  refine Safe.bind (safe_load (by omega)) fun _ _ => Safe.bind (safe_load (by omega)) fun _ _ => ?_
  refine Safe.bind (safe_load (by omega)) fun namelen _ => Safe.bind (safe_load (by omega)) fun extralen _ => ?_
  refine Safe.bind (safe_load (by omega)) fun commentlen _ => Safe.bind (safe_load (by omega)) fun _ _ => ?_
  refine Safe.bind safe_refuse fun _ hrecord => ?_
  have hextra : pos + 46 + namelen + extralen ≤ n := by omega
  have hsizes : ∀ usize csize localOff extra, Safe n (fullSizes usize csize localOff
      (pos + 46 + namelen + extralen) extra) fun _ => True := fun _ _ _ _ =>
    Safe.branch (fun _ => safe_zip64Sizes _ _ _ hextra _) fun _ => Safe.pure trivial
  refine Safe.bind (hsizes _ _ _ _) fun _ _ => ?_
  have hname : Safe n (endsInSo (pos + 46) namelen) fun _ => True := by
    refine Safe.branch (fun _ => ?_) fun _ => Safe.pure trivial
    exact Safe.bind (safe_loadBytes (by omega)) fun _ _ => Safe.pure trivial
  refine Safe.bind hname fun _ _ => Safe.branch (fun _ => ?_) fun _ => Safe.pure trivial
  exact Safe.bind (safe_scanLibrary hn write hpos _ _ _ _ _) fun _ _ => Safe.pure trivial

theorem safe_scanEntries (hn : n < 2 ^ 63) (write : Bool) {centralEnd : ℕ} (hend : centralEnd ≤ n)
    (left pos : ℕ) (needed : Bool) :
    Safe n (scanEntries n write centralEnd left pos needed) fun _ => True := by
  induction left generalizing pos needed with
  | zero => exact Safe.pure trivial
  | succ left ih => exact Safe.bind (safe_scanEntry hn write hend pos) fun _ _ => ih _ _

/-- Whatever the bytes are, all offsets of the file and those of its libraries included, every read and
every write is inside of the buffer. -/
theorem scan_in_bounds (write : Bool) {buf : List UInt8} (hbuf : buf.length < 2 ^ 63) :
    scanOrClearPt2 write buf ≠ .error .outOfBounds := by
  refine (show Safe buf.length (scanOrClearPt2 write) fun _ => True from ?_) buf rfl |>.1
  refine Safe.bind safe_extent fun n hn => ?_
  subst hn
  refine Safe.bind (safe_lastEocd _) fun found heocd => ?_
  cases found with
  | none => exact safe_fail
  | some eocd =>
    have hle := heocd eocd rfl
    refine Safe.bind (safe_load (by omega)) fun _ _ => Safe.bind (safe_load (by omega)) fun _ _ => ?_
    refine Safe.bind safe_refuse fun _ _ => Safe.bind (safe_centralDirectory hle) fun _ _ => ?_
    exact Safe.bind (safe_requireRegion _ _) fun _ hregion => safe_scanEntries hbuf write hregion _ _ _

/-- An end record that announces an entry where there is none. -/
theorem scan_in_bounds_empty : scanOrClearPt2 true ([0x50, 0x4b, 5, 6, 0, 0, 0, 0, 1, 0, 1, 0] ++
    List.replicate 10 0) ≠ .error .outOfBounds :=
  scan_in_bounds true (by decide)

end Bounds
end Rgpot.AotiExecstack
