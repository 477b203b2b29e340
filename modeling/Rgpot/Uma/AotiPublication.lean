import Rgpot.Lib.Ownership
import Rgpot.Uma.AotiArchive

/-! Loaders that share a cache of patched packages: `prepare_pt2_for_load` and `write_all`, one file
operation at a time, in any interleaving, with operations that fail and processes that die. -/
namespace Rgpot.AotiExecstack
open ByteBuffer Threads

abbrev Path := String

/-- The files at shared paths, and the directories `path.tmp.slot` with the payload in each. -/
structure Disk where
  file : Path → Option (List UInt8)
  slot : Path × ℕ → Option (Option (List UInt8))

def Disk.setSlot (d : Disk) (r : Path × ℕ) (content : Option (Option (List UInt8))) : Disk :=
  { d with slot := Function.update d.slot r content }

/-- `rename` of a payload to the shared path. -/
def Disk.publish (d : Disk) (path : Path) (slot : ℕ) (bytes : List UInt8) : Disk :=
  ⟨Function.update d.file path (some bytes), Function.update d.slot (path, slot) (some none)⟩

abbrev Outcome := Except Fault Path

/-- Where a call of `prepare_pt2_for_load` stands. A call that has stopped knows the slot it left behind;
it has no outcome when its process died. -/
inductive Pc where
  | readSource
  | findCached (buf : List UInt8)
  | sizeCached (buf : List UInt8)
  | readCached (buf : List UInt8)
  | makeParent (buf : List UInt8)
  | reserve (buf : List UInt8) (slot : ℕ)
  | openPayload (buf : List UInt8) (slot : ℕ)
  | write (buf : List UInt8) (slot : ℕ) (rest : List UInt8)
  | rename (buf : List UInt8) (slot : ℕ)
  | removePayload (slot : ℕ) (outcome : Outcome)
  | removeDirectory (slot : ℕ) (outcome : Outcome)
  | stopped (outcome : Option Outcome) (left : Option ℕ)

/-- A call with its `src` and the `dst` that `cache_path_for` gives it. -/
structure Loader where
  src : Path
  dst : Path
  pc : Pc

inductive Move where
  | go
  | fail (message : String)
  | die

/-- The slot that `publication` owns. -/
def Pc.slot : Pc → Option ℕ
  | .openPayload _ k | .write _ k _ | .rename _ k | .removePayload k _ | .removeDirectory k _ => some k
  | .stopped _ left => left
  | _ => none

def Pc.throw (what : String) : Pc := .stopped (some (.error (.thrown what))) none

section Prepare
variable (src dst : Path)

/-- After `read_all(src)`. -/
def afterSource : Option (List UInt8) → Pc
  | none => .throw ("UmaPot: cannot read AOTI package " ++ src)
  | some buf =>
    match scanOrClearPt2 false buf with
    | .error e => .stopped (some (.error e)) none
    | .ok (false, _) => .stopped (some (.ok src)) none
    | .ok (true, _) => .findCached buf

/-- `scan_or_clear_pt2(…, true)`, then `write_all`. -/
def afterCache (buf : List UInt8) : Pc :=
  match scanOrClearPt2 true buf with
  | .error e => .stopped (some (.error e)) none
  | .ok (_, patched) => .makeParent patched

/-- After `exists(dst)`. -/
def afterExists (buf : List UInt8) : Option (List UInt8) → Pc
  | none => afterCache buf
  | some _ => .sizeCached buf

/-- After `file_size(dst) == buf.size()`. -/
def afterSize (buf : List UInt8) : Option (List UInt8) → Pc
  | none => .throw ("filesystem error: cannot get file size: No such file or directory [" ++ dst ++ "]")
  | some cached => if cached.length = buf.length then .readCached buf else afterCache buf

/-- After `read_all(dst)`. -/
def afterCached (buf : List UInt8) : Option (List UInt8) → Pc
  | none => .throw ("UmaPot: cannot read AOTI package " ++ dst)
  | some cached =>
    match scanOrClearPt2 false cached with
    | .error e => .stopped (some (.error e)) none
    | .ok (false, _) => .stopped (some (.ok dst)) none
    | .ok (true, _) => afterCache buf

def payloadPath (slot : ℕ) : Path := dst ++ ".tmp." ++ toString slot ++ "/payload.pt2"

end Prepare

/-- The operation at hand succeeds. -/
def go (d : Disk) (src dst : Path) : Pc → Option (Disk × Pc)
  | .readSource => some (d, afterSource src (d.file src))
  | .findCached buf => some (d, afterExists buf (d.file dst))
  | .sizeCached buf => some (d, afterSize dst buf (d.file dst))
  | .readCached buf => some (d, afterCached dst buf (d.file dst))
  | .makeParent buf => some (d, .reserve buf 0)
  | .reserve buf k =>
    match d.slot (dst, k) with
    | none => some (d.setSlot (dst, k) (some none), .openPayload buf k)
    | some _ => some (d, .reserve buf (k + 1))
  | .openPayload buf k =>
    match d.slot (dst, k) with
    | none => none
    | some _ => some (d.setSlot (dst, k) (some (some [])), .write buf k buf)
  | .write buf k [] => some (d, .rename buf k)
  | .write buf k (byte :: rest) =>
    match d.slot (dst, k) with
    | some (some bytes) => some (d.setSlot (dst, k) (some (some (bytes ++ [byte]))), .write buf k rest)
    | _ => none
  | .rename _ k =>
    match d.slot (dst, k) with
    | some (some bytes) => some (d.publish dst k bytes, .removePayload k (.ok dst))
    | _ => none
  | .removePayload k outcome =>
    match d.slot (dst, k) with
    | none => none
    | some _ => some (d.setSlot (dst, k) (some none), .removeDirectory k outcome)
  | .removeDirectory k outcome =>
    match d.slot (dst, k) with
    | some none => some (d.setSlot (dst, k) none, .stopped (some outcome) none)
    | _ => some (d, .stopped (some outcome) (some k))
  | .stopped _ _ => none

/-- The operation at hand fails; the destructor of `publication` ignores it. -/
def failed (src dst : Path) (message : String) : Pc → Option Pc
  | .readSource => some (.throw ("UmaPot: short read of AOTI package " ++ src))
  | .readCached _ => some (.throw ("UmaPot: short read of AOTI package " ++ dst))
  | .findCached _ | .sizeCached _ | .makeParent _ => some (.throw message)
  | .reserve _ _ => some (.throw ("UmaPot: cannot reserve publication for " ++ dst ++ ": " ++ message))
  | .openPayload _ k =>
    some (.removePayload k (.error (.thrown ("UmaPot: cannot write " ++ payloadPath dst k))))
  | .write _ k [] =>
    some (.removePayload k (.error (.thrown ("UmaPot: cannot close " ++ payloadPath dst k))))
  | .write _ k (_ :: _) =>
    some (.removePayload k (.error (.thrown ("UmaPot: short write of " ++ payloadPath dst k))))
  | .rename _ k =>
    some (.removePayload k (.error (.thrown ("UmaPot: cannot publish " ++ dst ++ ": " ++ message))))
  | .removePayload k outcome => some (.removeDirectory k outcome)
  | .removeDirectory k outcome => some (.stopped (some outcome) (some k))
  | .stopped _ _ => none

def died : Pc → Option Pc
  | .stopped _ _ => none
  | pc => some (.stopped none pc.slot)

def next (d : Disk) (l : Loader) : Move → Option (Disk × Loader)
  | .go => (go d l.src l.dst l.pc).map fun r => (r.1, { l with pc := r.2 })
  | .fail message => (failed l.src l.dst message l.pc).map fun pc => (d, { l with pc := pc })
  | .die => (died l.pc).map fun pc => (d, { l with pc := pc })

section Slots
variable {d d' : Disk} {l l' : Loader} {m : Move}

def Loader.own (l : Loader) : Option (Path × ℕ) := l.pc.slot.map (l.dst, ·)

/-- The payload of the slot so far. -/
def Pc.Fits : Pc → Option (List UInt8) → Prop
  | .openPayload _ _, payload => payload = none
  | .write buf _ rest, payload => ∃ bytes, payload = some bytes ∧ bytes ++ rest = buf
  | .rename buf _, payload => payload = some buf
  | _, _ => True

/-- All that a move does to the slots. -/
inductive SlotMove (slot : Path × ℕ → Option (Option (List UInt8))) (l : Loader) :
    (Path × ℕ → Option (Option (List UInt8))) → Pc → Prop
  | rest {pc : Pc} (hslot : pc.slot = l.pc.slot) (hfits : ∀ p, l.pc.Fits p → pc.Fits p) :
    SlotMove slot l slot pc
  | take {k : ℕ} {pc : Pc} (hold : l.pc.slot = none) (hnew : pc.slot = some k) (hfree : slot (l.dst, k) = none)
    (hfits : pc.Fits none) : SlotMove slot l (Function.update slot (l.dst, k) (some none)) pc
  | fill {k : ℕ} {pc : Pc} {payload payload' : Option (List UInt8)} (hold : l.pc.slot = some k)
    (hnew : pc.slot = some k) (hpayload : slot (l.dst, k) = some payload)
    (hfits : l.pc.Fits payload → pc.Fits payload') :
    SlotMove slot l (Function.update slot (l.dst, k) (some payload')) pc
  | leave {k : ℕ} {pc : Pc} (hold : l.pc.slot = some k) (hnew : pc.slot = none) :
    SlotMove slot l (Function.update slot (l.dst, k) none) pc

theorem slot_afterSource (src : Path) (b : Option (List UInt8)) : (afterSource src b).slot = none := by
  unfold afterSource
  split
  · rfl
  · split <;> rfl

theorem slot_afterCache (buf : List UInt8) : (afterCache buf).slot = none := by
  unfold afterCache
  split <;> rfl

theorem slot_afterExists (buf : List UInt8) (b : Option (List UInt8)) : (afterExists buf b).slot = none := by
  unfold afterExists
  split
  · exact slot_afterCache buf
  · rfl

theorem slot_afterSize (dst : Path) (buf : List UInt8) (b : Option (List UInt8)) :
    (afterSize dst buf b).slot = none := by
  unfold afterSize
  split
  · rfl
  · split
    · rfl
    · exact slot_afterCache buf

theorem slot_afterCached (dst : Path) (buf : List UInt8) (b : Option (List UInt8)) :
    (afterCached dst buf b).slot = none := by
  unfold afterCached
  split
  · rfl
  · split
    · rfl
    · rfl
    · exact slot_afterCache buf

theorem fits_of_slot {pc : Pc} (h : pc.slot = none) (p : Option (List UInt8)) : pc.Fits p := by
  cases pc <;> trivial

theorem SlotMove.quiet {slot : Path × ℕ → Option (Option (List UInt8))} {pc : Pc} (hold : l.pc.slot = none)
    (hnew : pc.slot = none) : SlotMove slot l slot pc :=
  .rest (hnew.trans hold.symm) fun p _ => fits_of_slot hnew p

theorem go_slots {pc : Pc} (h : go d l.src l.dst l.pc = some (d', pc)) : SlotMove d.slot l d'.slot pc := by
  obtain ⟨src, dst, here⟩ := l
  cases here with
  | readSource =>
    obtain ⟨rfl, rfl⟩ := Prod.mk.inj (Option.some.inj h)
    exact .quiet rfl (slot_afterSource _ _)
  | findCached buf =>
    obtain ⟨rfl, rfl⟩ := Prod.mk.inj (Option.some.inj h)
    exact .quiet rfl (slot_afterExists _ _)
  | sizeCached buf =>
    obtain ⟨rfl, rfl⟩ := Prod.mk.inj (Option.some.inj h)
    exact .quiet rfl (slot_afterSize _ _ _)
  | readCached buf =>
    obtain ⟨rfl, rfl⟩ := Prod.mk.inj (Option.some.inj h)
    exact .quiet rfl (slot_afterCached _ _ _)
  | makeParent buf =>
    obtain ⟨rfl, rfl⟩ := Prod.mk.inj (Option.some.inj h)
    exact .quiet rfl rfl
  | reserve buf k =>
    simp only [go] at h
    split at h
    · obtain ⟨rfl, rfl⟩ := Prod.mk.inj (Option.some.inj h)
      exact .take rfl rfl ‹_› rfl
    · obtain ⟨rfl, rfl⟩ := Prod.mk.inj (Option.some.inj h)
      exact .quiet rfl rfl
  | openPayload buf k =>
    simp only [go] at h
    split at h
    · cases h
    · obtain ⟨rfl, rfl⟩ := Prod.mk.inj (Option.some.inj h)
      exact .fill rfl rfl ‹_› fun _ => ⟨[], rfl, rfl⟩
  | write buf k rest =>
    cases rest with
    | nil =>
      obtain ⟨rfl, rfl⟩ := Prod.mk.inj (Option.some.inj h)
      refine .rest rfl ?_
      rintro _ ⟨bytes, rfl, rfl⟩
      exact congrArg some (List.append_nil bytes).symm
    | cons byte rest =>
      simp only [go] at h
      split at h
      · obtain ⟨rfl, rfl⟩ := Prod.mk.inj (Option.some.inj h)
        refine .fill rfl rfl ‹_› ?_
        rintro ⟨_, ⟨⟩, rfl⟩
        exact ⟨_, rfl, List.append_assoc _ _ _⟩
      · cases h
  | rename buf k =>
    simp only [go] at h
    split at h
    · obtain ⟨rfl, rfl⟩ := Prod.mk.inj (Option.some.inj h)
      exact .fill rfl rfl ‹_› fun _ => trivial
    · cases h
  | removePayload k outcome =>
    simp only [go] at h
    split at h
    · cases h
    · obtain ⟨rfl, rfl⟩ := Prod.mk.inj (Option.some.inj h)
      exact .fill rfl rfl ‹_› fun _ => trivial
  | removeDirectory k outcome =>
    simp only [go] at h
    split at h
    · obtain ⟨rfl, rfl⟩ := Prod.mk.inj (Option.some.inj h)
      exact .leave rfl rfl
    · obtain ⟨rfl, rfl⟩ := Prod.mk.inj (Option.some.inj h)
      exact .rest rfl fun _ _ => trivial
  | stopped outcome left => cases h

theorem failed_slots {src dst : Path} {message : String} {here pc : Pc}
    (h : failed src dst message here = some pc) : pc.slot = here.slot ∧ ∀ p, pc.Fits p := by
  cases here with
  | write buf k rest => cases rest <;> (cases h; exact ⟨rfl, fun _ => trivial⟩)
  | stopped outcome left => cases h
  | _ => cases h; exact ⟨rfl, fun _ => trivial⟩

theorem died_slots {here pc : Pc} (h : died here = some pc) : pc.slot = here.slot ∧ ∀ p, pc.Fits p := by
  cases here with
  | stopped outcome left => cases h
  | _ => cases h; exact ⟨rfl, fun _ => trivial⟩

theorem next_slots (h : next d l m = some (d', l')) :
    ∃ pc slots, l' = { l with pc := pc } ∧ d'.slot = slots ∧ SlotMove d.slot l slots pc := by
  cases m with
  | go =>
    obtain ⟨r, hgo, hr⟩ := Option.map_eq_some_iff.mp h
    obtain ⟨rfl, rfl⟩ := Prod.mk.inj hr
    exact ⟨r.2, _, rfl, rfl, go_slots hgo⟩
  | fail message =>
    obtain ⟨pc, hfail, hr⟩ := Option.map_eq_some_iff.mp h
    obtain ⟨rfl, rfl⟩ := Prod.mk.inj hr
    obtain ⟨hslot, hfits⟩ := failed_slots hfail
    exact ⟨pc, _, rfl, rfl, .rest hslot fun p _ => hfits p⟩
  | die =>
    obtain ⟨pc, hdied, hr⟩ := Option.map_eq_some_iff.mp h
    obtain ⟨rfl, rfl⟩ := Prod.mk.inj hr
    obtain ⟨hslot, hfits⟩ := died_slots hdied
    exact ⟨pc, _, rfl, rfl, .rest hslot fun p _ => hfits p⟩

theorem own_eq {k : ℕ} {path : Path} : l.own = some (path, k) ↔ l.pc.slot = some k ∧ l.dst = path := by
  rw [Loader.own, Option.map_eq_some_iff]
  constructor
  · rintro ⟨k, hk, ⟨⟩⟩
    exact ⟨hk, rfl⟩
  · rintro ⟨hk, rfl⟩
    exact ⟨k, hk, rfl⟩

theorem own_start (h : l.pc = .readSource) : l.own = none := by
  rw [Loader.own, h]
  rfl

/-- No two loaders share a slot, and a payload is written by the owner of its slot alone. -/
theorem guarded : Guarded next Disk.slot Loader.own fun l => l.pc.Fits := by
  refine ⟨fun h r hold hnew => ?_, fun h r hold hnew => ?_, fun h r hold hnew => ?_, fun h r hnew hfit => ?_⟩
  all_goals
    obtain ⟨path, k⟩ := r
    obtain ⟨pc, slots, rfl, hslots, hmove⟩ := next_slots h
  · rw [ne_eq, own_eq] at hold hnew
    rw [hslots]
    cases hmove with
    | rest => rfl
    | take _ hk | fill hk | leave hk =>
      refine Function.update_of_ne ?_ _ _
      rintro ⟨⟩
      first | exact hnew ⟨hk, rfl⟩ | exact hold ⟨hk, rfl⟩
  · rw [ne_eq, own_eq] at hold
    rw [own_eq] at hnew
    cases hmove with
    | rest hslot => exact absurd ⟨hslot ▸ hnew.1, hnew.2⟩ hold
    | take _ hk hfree =>
      obtain ⟨hslot, rfl⟩ := hnew
      obtain rfl := Option.some.inj (hk.symm.trans hslot)
      exact hfree
    | fill hk hk' =>
      obtain rfl := Option.some.inj (hk'.symm.trans hnew.1)
      exact absurd ⟨hk, hnew.2⟩ hold
    | leave _ hk => exact absurd (hk.symm.trans hnew.1) nofun
  · rw [own_eq] at hold
    rw [ne_eq, own_eq] at hnew
    obtain ⟨hk, rfl⟩ := hold
    rw [hslots]
    cases hmove with
    | rest hslot => exact absurd ⟨hslot.trans hk, rfl⟩ hnew
    | take hk' => exact absurd (hk'.symm.trans hk) nofun
    | fill hk' hslot =>
      obtain rfl := Option.some.inj (hk'.symm.trans hk)
      exact absurd ⟨hslot, rfl⟩ hnew
    | leave hk' =>
      obtain rfl := Option.some.inj (hk'.symm.trans hk)
      exact Function.update_self _ _ _
  · rw [own_eq] at hnew
    obtain ⟨hk, rfl⟩ := hnew
    rw [hslots]
    cases hmove with
    | rest hslot hfits =>
      obtain ⟨p, hp, hold⟩ := hfit (own_eq.mpr ⟨hslot.symm.trans hk, rfl⟩)
      exact ⟨p, hp, hfits p hold⟩
    | take _ hk' _ hfits =>
      obtain rfl := Option.some.inj (hk'.symm.trans hk)
      exact ⟨none, Function.update_self _ _ _, hfits⟩
    | fill hold hk' hpayload hfits =>
      obtain rfl := Option.some.inj (hk'.symm.trans hk)
      obtain ⟨p, hp, hfit⟩ := hfit (own_eq.mpr ⟨hold, rfl⟩)
      obtain rfl := Option.some.inj (hpayload.symm.trans hp)
      exact ⟨_, Function.update_self _ _ _, hfits hfit⟩
    | leave _ hk' => exact absurd (hk'.symm.trans hk) nofun

end Slots

section Files
variable {d d' c₀ : Disk} {l l' : Loader} {m : Move}

/-- `scan_or_clear_pt2(…, false)` says no. -/
def Settled (buf : List UInt8) : Prop := ∃ left, scanOrClearPt2 false buf = .ok (false, left)

variable (Source : List UInt8 → Prop)

/-- What the patcher makes of a package that was there from the start. -/
def Made (buf : List UInt8) : Prop := ∃ a needed, Source a ∧ scanOrClearPt2 true a = .ok (needed, buf)

def SettledAt (d : Disk) (path : Path) : Prop := ∃ buf, d.file path = some buf ∧ Settled buf

/-- What a call knows of the packages it holds and of the path it returns. -/
def Pc.Knows (d : Disk) : Pc → Prop
  | .readSource => True
  | .findCached buf | .sizeCached buf | .readCached buf => Source buf
  | .makeParent buf | .reserve buf _ | .openPayload buf _ | .write buf _ _ | .rename buf _ => Made Source buf
  | .removePayload _ outcome | .removeDirectory _ outcome | .stopped (some outcome) _ =>
    ∀ path, outcome = .ok path → SettledAt d path
  | .stopped none _ => True

/-- A file is as it was, or whole. -/
def Whole (c₀ d : Disk) : Prop := ∀ path buf, d.file path = some buf → c₀.file path = some buf ∨ Made Source buf

variable {Source}

theorem knows_throw (what : String) : (Pc.throw what).Knows Source d := nofun

theorem knows_stopped_error (e : Fault) (left : Option ℕ) :
    (Pc.stopped (some (.error e)) left).Knows Source d := nofun

theorem knows_afterCache {buf : List UInt8} (h : Source buf) : (afterCache buf).Knows Source d := by
  unfold afterCache
  split
  · exact knows_stopped_error _ _
  · exact ⟨buf, _, h, ‹_›⟩

theorem knows_afterExists {buf : List UInt8} (h : Source buf) (b : Option (List UInt8)) :
    (afterExists buf b).Knows Source d := by
  cases b with
  | none => exact knows_afterCache h
  | some cached => exact h

theorem knows_afterSize {dst : Path} {buf : List UInt8} (h : Source buf) (b : Option (List UInt8)) :
    (afterSize dst buf b).Knows Source d := by
  cases b with
  | none => exact knows_throw _
  | some cached =>
    rw [afterSize]
    split
    · exact h
    · exact knows_afterCache h

theorem knows_afterCached {dst : Path} {buf : List UInt8} (h : Source buf) :
    (afterCached dst buf (d.file dst)).Knows Source d := by
  cases hfile : d.file dst with
  | none => exact knows_throw _
  | some cached =>
    rw [afterCached]
    split
    · exact knows_stopped_error _ _
    · rintro _ ⟨⟩
      exact ⟨cached, hfile, _, ‹_›⟩
    · exact knows_afterCache h

/-- A package that still has an executable stack is none of the patched ones. -/
theorem knows_afterSource (hmade : ∀ buf, Made Source buf → Settled buf) {src : Path}
    (hsrc : ∀ buf, c₀.file src = some buf → Source buf) (hwhole : Whole Source c₀ d) :
    (afterSource src (d.file src)).Knows Source d := by
  cases hfile : d.file src with
  | none => exact knows_throw _
  | some buf =>
    rw [afterSource]
    split
    · exact knows_stopped_error _ _
    · rintro _ ⟨⟩
      exact ⟨buf, hfile, _, ‹_›⟩
    · rename_i hscan
      rcases hwhole src buf hfile with h | h
      · exact hsrc buf h
      · obtain ⟨left, hsettled⟩ := hmade buf h
        cases hscan.symm.trans hsettled

/-- A move leaves a file as it is, or puts a whole one in its place. -/
def Grows (Source : List UInt8 → Prop) (d d' : Disk) : Prop :=
  ∀ path, d'.file path = d.file path ∨ ∃ buf, d'.file path = some buf ∧ Made Source buf

theorem Whole.grows (hwhole : Whole Source c₀ d) (h : Grows Source d d') : Whole Source c₀ d' := by
  intro path buf hfile
  rcases h path with hsame | ⟨buf', hfile', hmade⟩
  · exact hwhole path buf (hsame ▸ hfile)
  · obtain rfl := Option.some.inj (hfile'.symm.trans hfile)
    exact .inr hmade

theorem settledAt_grows (hmade : ∀ buf, Made Source buf → Settled buf) (h : Grows Source d d') {path : Path}
    (hpath : SettledAt d path) : SettledAt d' path := by
  obtain ⟨buf, hfile, hsettled⟩ := hpath
  rcases h path with hsame | ⟨buf', hfile', hmade'⟩
  · exact ⟨buf, hsame.trans hfile, hsettled⟩
  · exact ⟨buf', hfile', hmade buf' hmade'⟩

theorem knows_grows (hmade : ∀ buf, Made Source buf → Settled buf) (h : Grows Source d d') {pc : Pc}
    (hpc : pc.Knows Source d) : pc.Knows Source d' := by
  cases pc with
  | removePayload k outcome => exact fun path hpath => settledAt_grows hmade h (hpc path hpath)
  | removeDirectory k outcome => exact fun path hpath => settledAt_grows hmade h (hpc path hpath)
  | stopped outcome left =>
    cases outcome with
    | none => trivial
    | some outcome => exact fun path hpath => settledAt_grows hmade h (hpc path hpath)
  | _ => exact hpc

theorem grows_rfl : Grows Source d d := fun _ => .inl rfl

theorem grows_setSlot (r : Path × ℕ) (content : Option (Option (List UInt8))) :
    Grows Source d (d.setSlot r content) := fun _ => .inl rfl

theorem go_files (hmade : ∀ buf, Made Source buf → Settled buf)
    (hsrc : ∀ buf, c₀.file l.src = some buf → Source buf) (hwhole : Whole Source c₀ d)
    (hfits : ∀ r, l.own = some r → ∃ p, d.slot r = some p ∧ l.pc.Fits p) (hknows : l.pc.Knows Source d) {pc : Pc}
    (h : go d l.src l.dst l.pc = some (d', pc)) : Grows Source d d' ∧ pc.Knows Source d' := by
  obtain ⟨src, dst, here⟩ := l
  cases here with
  | readSource =>
    obtain ⟨rfl, rfl⟩ := Prod.mk.inj (Option.some.inj h)
    exact ⟨grows_rfl, knows_afterSource hmade hsrc hwhole⟩
  | findCached buf =>
    obtain ⟨rfl, rfl⟩ := Prod.mk.inj (Option.some.inj h)
    exact ⟨grows_rfl, knows_afterExists hknows _⟩
  | sizeCached buf =>
    obtain ⟨rfl, rfl⟩ := Prod.mk.inj (Option.some.inj h)
    exact ⟨grows_rfl, knows_afterSize hknows _⟩
  | readCached buf =>
    obtain ⟨rfl, rfl⟩ := Prod.mk.inj (Option.some.inj h)
    exact ⟨grows_rfl, knows_afterCached hknows⟩
  | makeParent buf =>
    obtain ⟨rfl, rfl⟩ := Prod.mk.inj (Option.some.inj h)
    exact ⟨grows_rfl, hknows⟩
  | reserve buf k =>
    simp only [go] at h
    split at h
    · obtain ⟨rfl, rfl⟩ := Prod.mk.inj (Option.some.inj h)
      exact ⟨grows_setSlot _ _, hknows⟩
    · obtain ⟨rfl, rfl⟩ := Prod.mk.inj (Option.some.inj h)
      exact ⟨grows_rfl, hknows⟩
  | openPayload buf k =>
    simp only [go] at h
    split at h
    · cases h
    · obtain ⟨rfl, rfl⟩ := Prod.mk.inj (Option.some.inj h)
      exact ⟨grows_setSlot _ _, hknows⟩
  | write buf k rest =>
    cases rest with
    | nil =>
      obtain ⟨rfl, rfl⟩ := Prod.mk.inj (Option.some.inj h)
      exact ⟨grows_rfl, hknows⟩
    | cons byte rest =>
      simp only [go] at h
      split at h
      · obtain ⟨rfl, rfl⟩ := Prod.mk.inj (Option.some.inj h)
        exact ⟨grows_setSlot _ _, hknows⟩
      · cases h
  | rename buf k =>
    -- the payload is the whole buffer: nobody else wrote to the slot
    obtain ⟨p, hslot, rfl⟩ := hfits (dst, k) rfl
    simp only [go, hslot, Option.some.injEq, Prod.mk.injEq] at h
    obtain ⟨rfl, rfl⟩ := h
    refine ⟨fun path => ?_, ?_⟩
    · by_cases hpath : path = dst
      · subst hpath
        exact .inr ⟨buf, Function.update_self _ _ _, hknows⟩
      · exact .inl (Function.update_of_ne hpath _ _)
    · rintro _ ⟨⟩
      exact ⟨buf, Function.update_self _ _ _, hmade buf hknows⟩
  | removePayload k outcome =>
    simp only [go] at h
    split at h
    · cases h
    · obtain ⟨rfl, rfl⟩ := Prod.mk.inj (Option.some.inj h)
      exact ⟨grows_setSlot _ _, hknows⟩
  | removeDirectory k outcome =>
    simp only [go] at h
    split at h
    · obtain ⟨rfl, rfl⟩ := Prod.mk.inj (Option.some.inj h)
      exact ⟨grows_setSlot _ _, hknows⟩
    · obtain ⟨rfl, rfl⟩ := Prod.mk.inj (Option.some.inj h)
      exact ⟨grows_rfl, hknows⟩
  | stopped outcome left => cases h

theorem failed_knows {src dst : Path} {message : String} {here pc : Pc} (hknows : here.Knows Source d)
    (h : failed src dst message here = some pc) : pc.Knows Source d := by
  cases here with
  | write buf k rest => cases rest <;> (cases h; exact nofun)
  | removePayload k outcome => cases h; exact hknows
  | removeDirectory k outcome => cases h; exact hknows
  | stopped outcome left => cases h
  | _ => cases h; exact nofun

theorem died_knows {here pc : Pc} (h : died here = some pc) : pc.Knows Source d := by
  cases here with
  | stopped outcome left => cases h
  | _ => cases h; trivial

theorem next_files (hmade : ∀ buf, Made Source buf → Settled buf)
    (hsrc : ∀ buf, c₀.file l.src = some buf → Source buf) (hwhole : Whole Source c₀ d)
    (hfits : ∀ r, l.own = some r → ∃ p, d.slot r = some p ∧ l.pc.Fits p) (hknows : l.pc.Knows Source d)
    (h : next d l m = some (d', l')) : Grows Source d d' ∧ l'.pc.Knows Source d' ∧ l'.src = l.src := by
  cases m with
  | go =>
    obtain ⟨r, hgo, hr⟩ := Option.map_eq_some_iff.mp h
    obtain ⟨rfl, rfl⟩ := Prod.mk.inj hr
    obtain ⟨hgrows, hpc⟩ := go_files hmade hsrc hwhole hfits hknows hgo
    exact ⟨hgrows, hpc, rfl⟩
  | fail message =>
    obtain ⟨pc, hfail, hr⟩ := Option.map_eq_some_iff.mp h
    obtain ⟨rfl, rfl⟩ := Prod.mk.inj hr
    exact ⟨grows_rfl, failed_knows hknows hfail, rfl⟩
  | die =>
    obtain ⟨pc, hdied, hr⟩ := Option.map_eq_some_iff.mp h
    obtain ⟨rfl, rfl⟩ := Prod.mk.inj hr
    exact ⟨grows_rfl, died_knows hdied, rfl⟩

variable {ι : Type} [DecidableEq ι] {s t : State ι Disk Loader} {i : ι}

/-- The files and what every call knows of them, with the slots. -/
structure Kept (Source : List UInt8 → Prop) (c₀ : Disk) (s : State ι Disk Loader) : Prop where
  owned : Owned Disk.slot Loader.own (fun l => l.pc.Fits) c₀ s
  whole : Whole Source c₀ s.shared
  source : ∀ i buf, c₀.file (s.thread i).src = some buf → Source buf
  knows : ∀ i, (s.thread i).pc.Knows Source s.shared

theorem kept_step (hmade : ∀ buf, Made Source buf → Settled buf) (h : step next s i m = some t)
    (hs : Kept Source c₀ s) : Kept Source c₀ t := by
  have howned := owned_step guarded h hs.owned
  obtain ⟨c, l, hnext, rfl⟩ := step_inv h
  obtain ⟨hgrows, hknows, hsrc⟩ :=
    next_files hmade (hs.source i) hs.whole (hs.owned.fits i) (hs.knows i) hnext
  refine ⟨howned, hs.whole.grows hgrows, fun j => ?_, fun j => ?_⟩
  · by_cases hj : j = i
    · subst hj
      simpa [hsrc] using hs.source j
    · simpa [Function.update_of_ne hj] using hs.source j
  · by_cases hj : j = i
    · subst hj
      simpa using hknows
    · simpa [Function.update_of_ne hj] using knows_grows hmade hgrows (hs.knows j)

end Files

section Alone
variable {ι : Type} [DecidableEq ι] {d : Disk} {src dst : Path}

def Goes (src dst : Path) (x y : Disk × Pc) : Prop := go x.1 src dst x.2 = some y

abbrev Reaches (src dst : Path) := Relation.ReflTransGen (Goes src dst)

theorem run_of_reaches {s : State ι Disk Loader} {i : ι} {x y : Disk × Pc} (h : Reaches src dst x y)
    (hs : s.shared = x.1) (hi : s.thread i = ⟨src, dst, x.2⟩) :
    ∃ n t, run next s (List.replicate n (i, .go)) = some t ∧ t.shared = y.1 ∧ t.thread i = ⟨src, dst, y.2⟩ := by
  induction h using Relation.ReflTransGen.head_induction_on generalizing s with
  | refl => exact ⟨0, s, rfl, hs, hi⟩
  | @head x z hgo _ ih =>
    obtain ⟨n, t, hrun, ht, hti⟩ := ih (s := ⟨z.1, Function.update s.thread i ⟨src, dst, z.2⟩⟩) rfl
      (Function.update_self _ _ _)
    refine ⟨n + 1, t, ?_, ht, hti⟩
    have hgo' : go x.1 src dst x.2 = some z := hgo
    have hstep : step next s i .go = some ⟨z.1, Function.update s.thread i ⟨src, dst, z.2⟩⟩ := by
      rw [step, hs, hi, next, hgo']
      rfl
    rw [List.replicate_succ, run, hstep]
    exact hrun

theorem reaches_slot (src : Path) (buf : List UInt8) {n k : ℕ} (hfree : d.slot (dst, k + n) = none) :
    ∃ j, Reaches src dst (d, .reserve buf k) (d.setSlot (dst, j) (some none), .openPayload buf j) := by
  induction n generalizing k with
  | zero =>
    refine ⟨k, .single ?_⟩
    rw [Nat.add_zero] at hfree
    simp only [Goes, go, hfree]
  | succ n ih =>
    cases hslot : d.slot (dst, k) with
    | none => exact ⟨k, .single (by simp only [Goes, go, hslot])⟩
    | some payload =>
      rw [Nat.add_comm n, ← Nat.add_assoc] at hfree
      obtain ⟨j, hj⟩ := ih hfree
      exact ⟨j, .head (by simp only [Goes, go, hslot]) hj⟩

theorem setSlot_self (d : Disk) (r : Path × ℕ) (content : Option (Option (List UInt8))) :
    (d.setSlot r content).slot r = content := Function.update_self _ _ _

theorem reaches_written (src : Path) (buf rest : List UInt8) {k : ℕ} {bytes : List UInt8}
    (hslot : d.slot (dst, k) = some (some bytes)) : ∃ d' bytes', d'.slot (dst, k) = some (some bytes') ∧
      Reaches src dst (d, .write buf k rest) (d', .rename buf k) := by
  induction rest generalizing d bytes with
  | nil => exact ⟨d, bytes, hslot, .single rfl⟩
  | cons byte rest ih =>
    obtain ⟨d', bytes', hslot', hrest⟩ := ih (setSlot_self d (dst, k) (some (some (bytes ++ [byte]))))
    exact ⟨d', bytes', hslot', .head (by simp only [Goes, go, hslot]) hrest⟩

/-- `write_all` publishes: from the search for a slot to the removal of the slot. -/
theorem reaches_published (src : Path) (buf : List UInt8) {n : ℕ} (hfree : d.slot (dst, n) = none) :
    ∃ d', Reaches src dst (d, .makeParent buf) (d', .stopped (some (.ok dst)) none) := by
  rw [← Nat.zero_add n] at hfree
  obtain ⟨j, hslot⟩ := reaches_slot src buf hfree
  obtain ⟨d', bytes, hbytes, hwritten⟩ :=
    reaches_written src buf buf (setSlot_self (d.setSlot (dst, j) (some none)) (dst, j) (some (some [])))
  have hnone := setSlot_self (d'.publish dst j bytes) (dst, j) (some none)
  have hpublished : (d'.publish dst j bytes).slot (dst, j) = some none := Function.update_self _ _ _
  refine ⟨((d'.publish dst j bytes).setSlot (dst, j) (some none)).setSlot (dst, j) none, ?_⟩
  have hparent : Goes src dst (d, .makeParent buf) (d, .reserve buf 0) := rfl
  refine .head hparent (hslot.trans (.head ?_ (hwritten.trans ?_)))
  · simp only [Goes, go, setSlot_self]
  · have hrename : Goes src dst (d', .rename buf j) (d'.publish dst j bytes, .removePayload j (.ok dst)) := by
      simp only [Goes, go, hbytes]
    have hpayload : Goes src dst (d'.publish dst j bytes, .removePayload j (.ok dst))
        ((d'.publish dst j bytes).setSlot (dst, j) (some none), .removeDirectory j (.ok dst)) := by
      simp only [Goes, go, hpublished]
    refine .head hrename (.head hpayload (.single ?_))
    simp only [Goes, go, hnone]

theorem reaches_outcome {p : Package} (hp : p.WellFormed) (hun : ∀ m ∈ p.members, m.Unambiguous)
    (hsrc : d.file src = some p.bytes)
    (hcached : ∀ cached, d.file dst = some cached → cached.length = p.bytes.length →
      ∃ r, scanOrClearPt2 false cached = .ok r) {k : ℕ} (hfree : d.slot (dst, k) = none) :
    ∃ d', Reaches src dst (d, .readSource) (d', .stopped (some (.ok (if p.needed then dst else src))) none) := by
  have hscan := hp.runs_scan false nofun
  have hclear : afterCache p.bytes = .makeParent (p.scanned true).bytes := by
    rw [afterCache, (hp.runs_scan true fun _ => hun : scanOrClearPt2 true p.bytes = _)]
  obtain ⟨d', hpublished⟩ := reaches_published src (p.scanned true).bytes hfree
  rw [← hclear] at hpublished
  cases hneeded : p.needed with
  | false =>
    refine ⟨d, .single ?_⟩
    rw [Runs, hneeded] at hscan
    simp only [Goes, go, hsrc, afterSource, hscan]
    rfl
  | true =>
    rw [Runs, hneeded] at hscan
    have hfirst : Goes src dst (d, .readSource) (d, .findCached p.bytes) := by
      simp only [Goes, go, hsrc, afterSource, hscan]
    refine (?_ : ∃ d', Reaches src dst (d, .findCached p.bytes) (d', .stopped (some (.ok dst)) none)).imp
      fun d' h => .head hfirst h
    cases hfile : d.file dst with
    | none =>
      refine ⟨d', .head ?_ hpublished⟩
      simp only [Goes, go, hfile, afterExists]
    | some cached =>
      have hfound : Goes src dst (d, .findCached p.bytes) (d, .sizeCached p.bytes) := by
        simp only [Goes, go, hfile, afterExists]
      by_cases hsize : cached.length = p.bytes.length
      · have hread : Goes src dst (d, .sizeCached p.bytes) (d, .readCached p.bytes) := by
          simp only [Goes, go, hfile, afterSize, if_pos hsize]
        obtain ⟨⟨again, left⟩, hr⟩ := hcached cached hfile hsize
        cases again with
        | false =>
          refine ⟨d, .head hfound (.head hread (.single ?_))⟩
          simp only [Goes, go, hfile, afterCached, hr]
        | true =>
          refine ⟨d', .head hfound (.head hread (.head ?_ hpublished))⟩
          simp only [Goes, go, hfile, afterCached, hr]
      · refine ⟨d', .head hfound (.head ?_ hpublished)⟩
        simp only [Goes, go, hfile, afterSize, if_neg hsize]

/-- Two loaders of one package, beside a slot that a loader before them has left. -/
def sampleLoaders : State (Fin 2) Disk Loader where
  shared :=
    ⟨fun path => if path = "uma.pt2" then some samplePackage.bytes else none,
      fun r => if r = ("cache/uma.pt2", 0) then some none else none⟩
  thread _ := ⟨"uma.pt2", "cache/uma.pt2", .readSource⟩

theorem file_sampleLoaders (path : Path) :
    sampleLoaders.shared.file path = if path = "uma.pt2" then some samplePackage.bytes else none := rfl

theorem slot_sampleLoaders (r : Path × ℕ) :
    sampleLoaders.shared.slot r = if r = ("cache/uma.pt2", 0) then some none else none := rfl

theorem cached_sampleLoaders : sampleLoaders.shared.file "cache/uma.pt2" = none := by
  rw [file_sampleLoaders, if_neg (by decide)]

theorem run_sampleLoaders : ∃ n t, run next sampleLoaders (List.replicate n (0, .go)) = some t := by
  have hfile : sampleLoaders.shared.file "uma.pt2" = some samplePackage.bytes := by
    rw [file_sampleLoaders, if_pos rfl]
  have hfree : sampleLoaders.shared.slot ("cache/uma.pt2", 1) = none := by
    rw [slot_sampleLoaders, if_neg (by decide)]
  obtain ⟨d', hreaches⟩ := reaches_outcome wellFormed_samplePackage unambiguous_sampleMember hfile
    (fun _ h => absurd (h.symm.trans cached_sampleLoaders) nofun) hfree
  obtain ⟨n, t, hrun, -⟩ := run_of_reaches hreaches rfl rfl
  exact ⟨n, t, hrun⟩

end Alone

section Calls
variable {ι : Type} [DecidableEq ι] {s t : State ι Disk Loader} {ms : List (ι × Move)}

/-- Loaders that share slots never own the same one, and whatever fails and whoever dies, a slot that nobody
owns is as it was at the start: one that a loader has left is gone, and an older one is untouched. -/
theorem slots_private (hstart : ∀ i, (s.thread i).pc = .readSource) (h : run next s ms = some t) :
    (∀ i j r, (t.thread i).own = some r → (t.thread j).own = some r → i = j) ∧
      (∀ i r, (t.thread i).own = some r → s.shared.slot r = none) ∧
      ∀ r, (∀ i, (t.thread i).own ≠ some r) → t.shared.slot r = s.shared.slot r := by
  have hnone : ∀ i, (s.thread i).own = none := fun i => own_start (hstart i)
  have howned := owned_run guarded hnone h
  exact ⟨howned.once, howned.lent, howned.rest⟩

theorem slots_private_sample : ∃ n t, run next sampleLoaders (List.replicate n (0, .go)) = some t ∧
    ((∀ i j r, (t.thread i).own = some r → (t.thread j).own = some r → i = j) ∧
      (∀ i r, (t.thread i).own = some r → sampleLoaders.shared.slot r = none) ∧
      ∀ r, (∀ i, (t.thread i).own ≠ some r) → t.shared.slot r = sampleLoaders.shared.slot r) := by
  obtain ⟨n, t, hrun⟩ := run_sampleLoaders
  exact ⟨n, t, hrun, slots_private (fun _ => rfl) hrun⟩

/-- Whatever the order of the moves, a file at a shared path is the one that was there at the start or a
patched package as a whole, and a call that has returned a path has it lead to a package that is settled. -/
theorem prepare_settles (hstart : ∀ i, (s.thread i).pc = .readSource)
    (hsrc : ∀ i buf, s.shared.file (s.thread i).src = some buf →
      ∃ p : Package, p.WellFormed ∧ (∀ m ∈ p.members, m.Unambiguous) ∧ p.bytes = buf)
    (h : run next s ms = some t) :
    (∀ path buf, t.shared.file path = some buf → s.shared.file path = some buf ∨
      ∃ i, ∃ p : Package, p.WellFormed ∧ s.shared.file (s.thread i).src = some p.bytes ∧
        buf = (p.scanned true).bytes) ∧
      ∀ i path left, (t.thread i).pc = .stopped (some (.ok path)) left → SettledAt t.shared path := by
  let Source (buf : List UInt8) : Prop := ∃ i, s.shared.file (s.thread i).src = some buf
  have hclear : ∀ buf, Made Source buf → ∃ i, ∃ p : Package, p.WellFormed ∧
      s.shared.file (s.thread i).src = some p.bytes ∧ buf = (p.scanned true).bytes ∧ Settled buf := by
    rintro buf ⟨_, needed, ⟨i, hfile⟩, hscan⟩
    obtain ⟨p, hp, hun, rfl⟩ := hsrc i _ hfile
    have hpatched := hp.runs_scan true fun _ => hun
    obtain ⟨-, rfl⟩ := Prod.mk.inj (Except.ok.inj (hscan.symm.trans hpatched))
    exact ⟨i, p, hp, hfile, rfl, _, hp.runs_settled⟩
  have hmade : ∀ buf, Made Source buf → Settled buf := by
    intro buf hbuf
    obtain ⟨-, -, -, -, -, hsettled⟩ := hclear buf hbuf
    exact hsettled
  have hnone : ∀ i, (s.thread i).own = none := fun i => own_start (hstart i)
  have hinitial : Kept Source s.shared s := by
    refine ⟨owned_initial hnone, fun path buf => Or.inl, fun i buf hfile => ⟨i, hfile⟩, fun i => ?_⟩
    rw [hstart i]
    trivial
  obtain ⟨-, hwhole, -, hknows⟩ := run_invariant (Kept Source s.shared) (fun _ _ _ _ => kept_step hmade) hinitial h
  refine ⟨fun path buf hfile => (hwhole path buf hfile).imp_right fun hbuf => ?_, fun i path left hpc => ?_⟩
  · obtain ⟨i, p, hp, hfile, hbytes, -⟩ := hclear buf hbuf
    exact ⟨i, p, hp, hfile, hbytes⟩
  · have hi := hknows i
    rw [hpc] at hi
    exact hi path rfl

theorem prepare_settles_sample : ∃ n t, run next sampleLoaders (List.replicate n (0, .go)) = some t ∧
    ∀ i path left, (t.thread i).pc = .stopped (some (.ok path)) left → SettledAt t.shared path := by
  obtain ⟨n, t, hrun⟩ := run_sampleLoaders
  refine ⟨n, t, hrun, (prepare_settles (fun _ => rfl) (fun _ buf hfile => ?_) hrun).2⟩
  have hbytes : some samplePackage.bytes = some buf := hfile
  exact ⟨samplePackage, wellFormed_samplePackage, unambiguous_sampleMember, Option.some.inj hbytes⟩

/-- A call that finds its package and a free slot, and beside them no cached package of the same size that
cannot be read as one, returns when it is left alone and nothing fails, wherever other calls have stopped: the
path of the package when it needs no patch, and the cached path when it does. -/
theorem prepare_returns {i : ι} {src dst : Path} {p : Package} (hp : p.WellFormed)
    (hun : ∀ m ∈ p.members, m.Unambiguous) (hi : s.thread i = ⟨src, dst, .readSource⟩)
    (hsrc : s.shared.file src = some p.bytes)
    (hcached : ∀ cached, s.shared.file dst = some cached → cached.length = p.bytes.length →
      ∃ r, scanOrClearPt2 false cached = .ok r) {k : ℕ} (hfree : s.shared.slot (dst, k) = none) :
    ∃ n t, run next s (List.replicate n (i, .go)) = some t ∧
      (t.thread i).pc = .stopped (some (.ok (if p.needed then dst else src))) none := by
  obtain ⟨d', hreaches⟩ := reaches_outcome hp hun hsrc hcached hfree
  obtain ⟨n, t, hrun, -, hti⟩ := run_of_reaches hreaches rfl hi
  exact ⟨n, t, hrun, by rw [hti]⟩

theorem prepare_returns_sample : ∃ n t, run next sampleLoaders (List.replicate n (0, .go)) = some t ∧
    (t.thread 0).pc = .stopped (some (.ok (if samplePackage.needed then "cache/uma.pt2" else "uma.pt2"))) none := by
  refine prepare_returns (k := 1) wellFormed_samplePackage unambiguous_sampleMember rfl ?_
    (fun _ h => absurd (h.symm.trans cached_sampleLoaders) nofun) ?_
  · rw [file_sampleLoaders, if_pos rfl]
  · rw [slot_sampleLoaders, if_neg (by decide)]

end Calls

end Rgpot.AotiExecstack
