import Rgpot.Lib.Numerals

/-! Little-endian byte strings: fixed-width words, arrays of words, and their round trips. -/
namespace Words

/-- The `w` low bytes of `n`, least significant first. -/
def leBytes : ℕ → ℕ → List UInt8
  | 0, _ => []
  | w + 1, n => UInt8.ofNat (n % 256) :: leBytes w (n / 256)

/-- The number a byte string denotes, least significant byte first. -/
def ofLeBytes : List UInt8 → ℕ
  | [] => 0
  | b :: bs => b.toNat + 256 * ofLeBytes bs

@[simp] theorem length_leBytes (w n : ℕ) : (leBytes w n).length = w := by
  induction w generalizing n with
  | zero => rfl
  | succ w ih => simp [leBytes, ih]

theorem ofLeBytes_leBytes {w n : ℕ} (h : n < 256 ^ w) : ofLeBytes (leBytes w n) = n := by
  induction w generalizing n with
  | zero => simp_all [leBytes, ofLeBytes]
  | succ w ih =>
    have hdiv : n / 256 < 256 ^ w := Nat.div_lt_of_lt_mul (by rwa [pow_succ, mul_comm] at h)
    have hlow : (UInt8.ofNat (n % 256)).toNat = n % 256 := by
      rw [UInt8.toNat_ofNat']
      exact Nat.mod_mod_of_dvd n (by decide)
    rw [leBytes, ofLeBytes, ih hdiv, hlow]
    omega

theorem ofLeBytes_inj {bs cs : List UInt8} (hl : bs.length = cs.length)
    (h : ofLeBytes bs = ofLeBytes cs) : bs = cs := by
  induction bs generalizing cs with
  | nil => exact (List.length_eq_zero_iff.mp hl.symm).symm
  | cons b bs ih =>
    cases cs with
    | nil => simp at hl
    | cons c cs =>
      have hb := b.toNat_lt
      have hc := c.toNat_lt
      simp only [ofLeBytes] at h
      have hhead : b = c := UInt8.toNat_inj.mp (by omega)
      have htail : bs = cs := ih (by simpa using hl) (by omega)
      rw [hhead, htail]

/-- A numbering of all byte strings: a closing one byte keeps trailing zeros apart. -/
def number (bs : List UInt8) : ℕ := ofLeBytes (bs ++ [1])

theorem ofLeBytes_append (bs cs : List UInt8) :
    ofLeBytes (bs ++ cs) = ofLeBytes bs + 256 ^ bs.length * ofLeBytes cs := by
  induction bs with
  | nil => simp [ofLeBytes]
  | cons b bs ih =>
    simp only [List.cons_append, ofLeBytes, ih, List.length_cons, pow_succ]
    ring

theorem ofLeBytes_lt (bs : List UInt8) : ofLeBytes bs < 256 ^ bs.length := by
  induction bs with
  | nil => simp [ofLeBytes]
  | cons b bs ih =>
    have hb := b.toNat_lt
    simp only [ofLeBytes, List.length_cons, pow_succ]
    omega

theorem number_injective : Function.Injective number := by
  intro bs cs h
  have hb : number bs = ofLeBytes bs + 256 ^ bs.length := by
    simp [number, ofLeBytes_append, ofLeBytes]
  have hc : number cs = ofLeBytes cs + 256 ^ cs.length := by
    simp [number, ofLeBytes_append, ofLeBytes]
  have hbs := ofLeBytes_lt bs
  have hcs := ofLeBytes_lt cs
  -- the closing byte makes the number's size tell the length
  have hlen : bs.length = cs.length := by
    rcases lt_trichotomy bs.length cs.length with hlt | heq | hlt
    · have := Nat.pow_le_pow_right (n := 256) (by decide) (Nat.succ_le_of_lt hlt)
      rw [Nat.pow_succ] at this
      omega
    · exact heq
    · have := Nat.pow_le_pow_right (n := 256) (by decide) (Nat.succ_le_of_lt hlt)
      rw [Nat.pow_succ] at this
      omega
  have hsame : ofLeBytes bs = ofLeBytes cs := by
    rw [hlen] at hb
    omega
  exact ofLeBytes_inj hlen hsame

/-- Fixed-width words with a lossless byte image. -/
class Word (α : Type) where
  width : ℕ
  bytes : α → List UInt8
  read : List UInt8 → α
  width_pos : 0 < width
  length_bytes : ∀ a, (bytes a).length = width
  read_bytes : ∀ a, read (bytes a) = a

instance : Word UInt64 where
  width := 8
  bytes a := leBytes 8 a.toNat
  read bs := UInt64.ofNat (ofLeBytes bs)
  width_pos := by decide
  length_bytes a := length_leBytes 8 _
  read_bytes a := by
    rw [ofLeBytes_leBytes (by simpa using a.toNat_lt), UInt64.ofNat_toNat]

instance : Word UInt32 where
  width := 4
  bytes a := leBytes 4 a.toNat
  read bs := UInt32.ofNat (ofLeBytes bs)
  width_pos := by decide
  length_bytes a := length_leBytes 4 _
  read_bytes a := by
    rw [ofLeBytes_leBytes (by simpa using a.toNat_lt), UInt32.ofNat_toNat]

section Arrays
variable {α : Type} [Word α]

/-- The bytes of a contiguous array. -/
def arrayBytes (xs : List α) : List UInt8 := xs.flatMap Word.bytes

/-- The first `n` words stored at the start of a byte string. -/
def readArray (α : Type) [Word α] : ℕ → List UInt8 → List α
  | 0, _ => []
  | n + 1, bs => Word.read (bs.take (Word.width α)) :: readArray α n (bs.drop (Word.width α))

theorem bytes_injective : Function.Injective (Word.bytes : α → List UInt8) :=
  Function.LeftInverse.injective Word.read_bytes

@[simp] theorem length_arrayBytes (xs : List α) :
    (arrayBytes xs).length = Word.width α * xs.length := by
  induction xs with
  | nil => simp [arrayBytes]
  | cons x xs ih =>
    simp only [arrayBytes, List.flatMap_cons, List.length_append, Word.length_bytes,
      List.length_cons, Nat.mul_succ] at ih ⊢
    omega

/-- Reading back an array ignores whatever follows it. -/
theorem readArray_arrayBytes (xs : List α) (rest : List UInt8) :
    readArray α xs.length (arrayBytes xs ++ rest) = xs := by
  induction xs with
  | nil => rfl
  | cons x xs ih =>
    have hsplit : arrayBytes (x :: xs) ++ rest = Word.bytes x ++ (arrayBytes xs ++ rest) := by
      simp [arrayBytes]
    rw [List.length_cons, readArray, hsplit, List.take_left' (Word.length_bytes x),
      List.drop_left' (Word.length_bytes x), Word.read_bytes, ih]

@[simp] theorem length_readArray (n : ℕ) (bs : List UInt8) :
    (readArray α n bs).length = n := by
  induction n generalizing bs with
  | zero => rfl
  | succ n ih => simp [readArray, ih]

theorem arrayBytes_injective : Function.Injective (arrayBytes : List α → List UInt8) := by
  intro xs ys h
  have hlen : xs.length = ys.length := by
    have := congrArg List.length h
    simp only [length_arrayBytes] at this
    exact Nat.eq_of_mul_eq_mul_left (Word.width_pos) this
  have hx := readArray_arrayBytes xs []
  have hy := readArray_arrayBytes ys []
  rw [← hx, ← hy, h, hlen]

end Arrays

end Words
