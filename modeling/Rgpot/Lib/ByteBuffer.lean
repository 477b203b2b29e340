import Rgpot.Lib.Words

/-! Programs that read and patch little-endian words of a byte buffer in place. An access outside of the
buffer ends a program without a value. -/
namespace ByteBuffer
open Words

inductive Fault where
  | thrown (what : String)
  | outOfBounds
  deriving DecidableEq, Repr

abbrev Access := StateT (List UInt8) (Except Fault)

/-- The bytes from `off` on, replaced. -/
def patch (buf : List UInt8) (off : ℕ) (bs : List UInt8) : List UInt8 :=
  buf.take off ++ bs ++ buf.drop (off + bs.length)

/-- The number in the `w` bytes at `off`. -/
def word (w : ℕ) (buf : List UInt8) (off : ℕ) : ℕ := ofLeBytes ((buf.drop off).take w)

def extent : Access ℕ := fun buf => .ok (buf.length, buf)

def load (w off : ℕ) : Access ℕ := fun buf =>
  if off + w ≤ buf.length then .ok (word w buf off, buf) else .error .outOfBounds

def loadBytes (off len : ℕ) : Access (List UInt8) := fun buf =>
  if off + len ≤ buf.length then .ok ((buf.drop off).take len, buf) else .error .outOfBounds

def store (w off v : ℕ) : Access Unit := fun buf =>
  if off + w ≤ buf.length then .ok ((), patch buf off (leBytes w v)) else .error .outOfBounds

/-- `if (bad) throw`. -/
def refuse (bad : Prop) [Decidable bad] (what : String) : Access Unit := fun buf =>
  if bad then .error (.thrown what) else .ok ((), buf)

def fail {α : Type} (what : String) : Access α := fun _ => .error (.thrown what)

theorem word_lt (w : ℕ) (buf : List UInt8) (off : ℕ) : word w buf off < 256 ^ w := by
  have hlt := ofLeBytes_lt ((buf.drop off).take w)
  have hlength : ((buf.drop off).take w).length ≤ w := List.length_take_le _ _
  exact hlt.trans_le (Nat.pow_le_pow_right (by decide) hlength)

theorem length_patch {buf : List UInt8} {off : ℕ} {bs : List UInt8} (h : off + bs.length ≤ buf.length) :
    (patch buf off bs).length = buf.length := by
  simp only [patch, List.length_append, List.length_take, List.length_drop]
  omega

section Safe
variable {α β : Type} {n : ℕ}

/-- On every buffer of `n` bytes all accesses stay inside of it. -/
def Safe (n : ℕ) (p : Access α) (post : α → Prop) : Prop :=
  ∀ buf : List UInt8, buf.length = n →
    p buf ≠ .error .outOfBounds ∧ ∀ a buf', p buf = .ok (a, buf') → post a ∧ buf'.length = n

variable {p : Access α} {f : α → Access β} {post : α → Prop} {last : β → Prop}

theorem Safe.bind (hp : Safe n p post) (hf : ∀ a, post a → Safe n (f a) last) :
    Safe n (p >>= f) last := by
  intro buf hbuf
  obtain ⟨hfault, hok⟩ := hp buf hbuf
  have hrun : (p >>= f) buf = (p buf).bind fun r => f r.1 r.2 := rfl
  rw [hrun]
  cases hres : p buf with
  | error e =>
    refine ⟨fun h => hfault ?_, fun _ _ => nofun⟩
    rw [hres]
    exact congrArg Except.error (Except.error.inj h)
  | ok r =>
    obtain ⟨hpost, hlength⟩ := hok r.1 r.2 hres
    exact hf r.1 hpost r.2 hlength

/-- A run that ends with a value. -/
theorem safe_of_ok {buf buf' : List UInt8} {a : α} (h : p buf = .ok (a, buf')) (hpost : post a)
    (hlength : buf'.length = n) :
    p buf ≠ .error .outOfBounds ∧ ∀ a buf', p buf = .ok (a, buf') → post a ∧ buf'.length = n := by
  rw [h]
  refine ⟨nofun, ?_⟩
  rintro _ _ ⟨⟩
  exact ⟨hpost, hlength⟩

theorem safe_of_thrown {buf : List UInt8} {what : String} (h : p buf = .error (.thrown what)) :
    p buf ≠ .error .outOfBounds ∧ ∀ a buf', p buf = .ok (a, buf') → post a ∧ buf'.length = n := by
  rw [h]
  exact ⟨nofun, fun _ _ => nofun⟩

theorem Safe.pure {a : α} (h : post a) : Safe n (Pure.pure a) post :=
  fun _ hbuf => safe_of_ok rfl h hbuf

theorem Safe.weaken (hp : Safe n p post) {post' : α → Prop} (h : ∀ a, post a → post' a) :
    Safe n p post' := by
  intro buf hbuf
  obtain ⟨hfault, hok⟩ := hp buf hbuf
  refine ⟨hfault, fun a buf' heq => ?_⟩
  obtain ⟨hpost, hlength⟩ := hok a buf' heq
  exact ⟨h a hpost, hlength⟩

theorem Safe.branch {c : Prop} [Decidable c] {q : Access α} (hp : c → Safe n p post)
    (hq : ¬ c → Safe n q post) : Safe n (if c then p else q) post := by
  by_cases h : c
  · rw [if_pos h]
    exact hp h
  · rw [if_neg h]
    exact hq h

theorem safe_extent : Safe n extent (· = n) := fun _ hbuf => safe_of_ok rfl hbuf hbuf

theorem safe_load {w off : ℕ} (h : off + w ≤ n) : Safe n (load w off) (· < 256 ^ w) :=
  fun buf hbuf => safe_of_ok (if_pos (hbuf ▸ h)) (word_lt w buf off) hbuf

theorem safe_loadBytes {off len : ℕ} (h : off + len ≤ n) :
    Safe n (loadBytes off len) (·.length = len) := by
  intro buf hbuf
  refine safe_of_ok (if_pos (hbuf ▸ h)) ?_ hbuf
  rw [List.length_take, List.length_drop]
  omega

theorem safe_store {w off v : ℕ} (h : off + w ≤ n) : Safe n (store w off v) fun _ => True := by
  intro buf hbuf
  refine safe_of_ok (if_pos (hbuf ▸ h)) trivial ?_
  rw [length_patch (by rw [length_leBytes]; omega), hbuf]

theorem safe_refuse {bad : Prop} [Decidable bad] {what : String} :
    Safe n (refuse bad what) fun _ => ¬ bad := by
  intro buf hbuf
  by_cases h : bad
  · exact safe_of_thrown (if_pos h)
  · exact safe_of_ok (if_neg h) h hbuf

theorem safe_fail {what : String} : Safe n (fail what : Access α) post :=
  fun _ _ => safe_of_thrown rfl

end Safe

section Runs
variable {α β : Type} {p : Access α} {f : α → Access β} {buf buf' buf'' : List UInt8} {a : α} {b : β}

/-- The program returns `a` and leaves `buf'`. -/
def Runs (p : Access α) (buf : List UInt8) (a : α) (buf' : List UInt8) : Prop := p buf = .ok (a, buf')

theorem Runs.bind (hp : Runs p buf a buf') (hf : Runs (f a) buf' b buf'') :
    Runs (p >>= f) buf b buf'' := by
  have hrun : (p >>= f) buf = (p buf).bind fun r => f r.1 r.2 := rfl
  rw [Runs, hrun, hp]
  exact hf

theorem Runs.pure : Runs (Pure.pure a) buf a buf := rfl

theorem runs_extent : Runs extent buf buf.length buf := rfl

theorem runs_refuse {bad : Prop} [Decidable bad] {what : String} (h : ¬ bad) :
    Runs (refuse bad what) buf () buf := if_neg h

/-- The bytes `bs` stand at `off`. -/
def Stands (buf : List UInt8) (off : ℕ) (bs : List UInt8) : Prop := bs <+: buf.drop off

variable {off w v : ℕ} {bs cs pre post : List UInt8}

theorem stands_append : Stands buf off (bs ++ cs) ↔
    Stands buf off bs ∧ Stands buf (off + bs.length) cs := by
  constructor
  · rintro ⟨rest, hrest⟩
    refine ⟨⟨cs ++ rest, by rw [← hrest, List.append_assoc]⟩, rest, ?_⟩
    rw [← List.drop_drop, ← hrest, List.append_assoc, List.drop_left]
  · rintro ⟨⟨rest, hrest⟩, ⟨rest', hrest'⟩⟩
    rw [← List.drop_drop, ← hrest, List.drop_left] at hrest'
    exact ⟨rest', by rw [← hrest, ← hrest', List.append_assoc]⟩

theorem stands_between (pre bs post : List UInt8) : Stands (pre ++ bs ++ post) pre.length bs := by
  rw [Stands, List.append_assoc, List.drop_left]
  exact List.prefix_append bs post

theorem Stands.take (h : Stands buf off bs) : (buf.drop off).take bs.length = bs := by
  obtain ⟨rest, hrest⟩ := h
  rw [← hrest, List.take_left]

theorem Stands.le (h : Stands buf off bs) (hbs : 0 < bs.length) : off + bs.length ≤ buf.length := by
  have hlength := h.length_le
  rw [List.length_drop] at hlength
  omega

theorem Stands.word (h : Stands buf off bs) : word bs.length buf off = ofLeBytes bs := by
  rw [ByteBuffer.word, h.take]

theorem Stands.runs_loadBytes (h : Stands buf off bs) (hle : off ≤ buf.length) :
    Runs (loadBytes off bs.length) buf bs buf := by
  have hlength := h.length_le
  rw [List.length_drop] at hlength
  rw [Runs, loadBytes, if_pos (by omega), h.take]

theorem Stands.runs_load (h : Stands buf off (leBytes w v)) (hw : 0 < w) (hv : v < 256 ^ w) :
    Runs (load w off) buf v buf := by
  have hle := h.le (by rwa [length_leBytes])
  have hword := h.word
  rw [length_leBytes] at hle hword
  rw [Runs, load, if_pos hle, hword, ofLeBytes_leBytes hv]

theorem patch_between {old : List UInt8} (h : old.length = bs.length) :
    patch (pre ++ old ++ post) pre.length bs = pre ++ bs ++ post := by
  have hskip : pre.length + bs.length = (pre ++ old).length := by
    rw [List.length_append, h]
  rw [patch, List.append_assoc pre old, List.take_left, ← List.append_assoc, hskip, List.drop_left]

theorem runs_store {old : List UInt8} (h : old.length = w) :
    Runs (store w pre.length v) (pre ++ old ++ post) () (pre ++ leBytes w v ++ post) := by
  have hle : pre.length + w ≤ (pre ++ old ++ post).length := by
    simp only [List.length_append]
    omega
  rw [Runs, store, if_pos hle, patch_between (by rw [h, length_leBytes])]

end Runs

section Windows
variable {d pre post bs : List UInt8} {w off k : ℕ}

theorem drop_between (h : k ≤ d.length) :
    (pre ++ d ++ post).drop (pre.length + k) = d.drop k ++ post := by
  rw [List.append_assoc, ← List.drop_drop, List.drop_left, List.drop_append_of_le_length h]

theorem word_between (h : k + w ≤ d.length) : word w (pre ++ d ++ post) (pre.length + k) = word w d k := by
  rw [word, word, drop_between (by omega),
    List.take_append_of_le_length (by rw [List.length_drop]; omega)]

theorem runs_load_between (h : k + w ≤ d.length) :
    Runs (load w (pre.length + k)) (pre ++ d ++ post) (word w d k) (pre ++ d ++ post) := by
  rw [Runs, load, if_pos, word_between h]
  simp only [List.length_append]
  omega

theorem runs_loadBytes_between (h : k + w ≤ d.length) :
    Runs (loadBytes (pre.length + k) w) (pre ++ d ++ post) ((d.drop k).take w) (pre ++ d ++ post) := by
  rw [Runs, loadBytes, if_pos, drop_between (by omega),
    List.take_append_of_le_length (by rw [List.length_drop]; omega)]
  simp only [List.length_append]
  omega

theorem runs_store_between {v : ℕ} (h : k + w ≤ d.length) :
    Runs (store w (pre.length + k) v) (pre ++ d ++ post) () (pre ++ patch d k (leBytes w v) ++ post) := by
  have hlength := length_leBytes w v
  have htake : (pre ++ d ++ post).take (pre.length + k) = pre ++ d.take k := by
    rw [List.append_assoc, List.take_length_add_append, List.take_append_of_le_length (by omega)]
  have hdrop : (pre ++ d ++ post).drop (pre.length + k + w) = d.drop (k + w) ++ post := by
    rw [Nat.add_assoc, drop_between h]
  rw [Runs, store, if_pos]
  · rw [patch, patch, hlength, htake, hdrop]
    simp only [List.append_assoc]
  · simp only [List.length_append]
    omega

/-- A patch leaves the words beside it. -/
theorem word_patch_of_disjoint (hin : off + bs.length ≤ d.length) (h : k + w ≤ off ∨ off + bs.length ≤ k) :
    word w (patch d off bs) k = word w d k := by
  have hpre : (d.take off).length = off := List.length_take_of_le (by omega)
  rw [word, word, patch]
  rcases h with h | h
  · have hsplit : d.take off = d.take k ++ (d.drop k).take (off - k) := by
      rw [← List.take_add, Nat.add_sub_cancel' (by omega)]
    have hk : (d.take k).length = k := List.length_take_of_le (by omega)
    rw [hsplit, List.append_assoc, List.append_assoc, List.drop_left' hk,
      List.take_append_of_le_length (by rw [List.length_take, List.length_drop]; omega), List.take_take,
      min_eq_left (by omega)]
  · have hskip : (d.take off ++ bs).length = off + bs.length := by rw [List.length_append, hpre]
    obtain ⟨j, rfl⟩ := Nat.exists_eq_add_of_le h
    rw [← List.drop_drop, List.drop_left' hskip, List.drop_drop]

theorem word_patch_self (hin : off + bs.length ≤ d.length) :
    word bs.length (patch d off bs) off = ofLeBytes bs := by
  have hpre : (d.take off).length = off := List.length_take_of_le (by omega)
  rw [word, patch, List.append_assoc, List.drop_left' hpre, List.take_left]

theorem patch_word (h : off + w ≤ d.length) : patch d off (leBytes w (word w d off)) = d := by
  have hlength : ((d.drop off).take w).length = w := by
    rw [List.length_take, List.length_drop]
    omega
  have hbytes : leBytes w (word w d off) = (d.drop off).take w := by
    refine ofLeBytes_inj ((length_leBytes _ _).trans hlength.symm) ?_
    exact ofLeBytes_leBytes (word_lt w d off)
  rw [patch, hbytes, hlength, ← List.drop_drop, List.append_assoc, List.take_append_drop,
    List.take_append_drop]

theorem take_patch (hin : off ≤ d.length) (h : k ≤ off) : (patch d off bs).take k = d.take k := by
  rw [patch, List.append_assoc,
    List.take_append_of_le_length (by rw [List.length_take_of_le hin]; exact h), List.take_take, min_eq_left h]

end Windows
end ByteBuffer
