import Rgpot.ForceStructs

/-! `Fnv1a`: the bytes hashed field by field, and how they determine the fields. -/
namespace Rgpot.Cache
open Words

/-- A `std::string`: its bytes, fewer than a `size_t` counts. -/
structure Str where
  bytes : List UInt8
  size_lt : bytes.length < 2 ^ 64
  deriving DecidableEq

namespace Fnv1a

def kOffset : UInt64 := 0xcbf29ce484222325

def kPrime : UInt64 := 0x100000001b3

/-- The hash after all of `data`, whatever the calls it was fed by. -/
def h (data : List UInt8) : UInt64 :=
  data.foldl (fun h p => (h ^^^ p.toUInt64) * kPrime) kOffset

def u64 (v : UInt64) : List UInt8 := Word.bytes v

def f64 (v : Double) : List UInt8 := Word.bytes v

/-- An `int`, widened. -/
def i64 (v : Int32) : List UInt8 := Word.bytes v.toInt64.toUInt64

def str (s : Str) : List UInt8 := u64 (UInt64.ofNat s.bytes.length) ++ s.bytes

variable {r s : List UInt8}

@[simp] theorem u64_append_inj {a b : UInt64} : u64 a ++ r = u64 b ++ s ↔ a = b ∧ r = s := by
  constructor
  · intro heq
    obtain ⟨hab, hrs⟩ := List.append_inj heq ((Word.length_bytes a).trans (Word.length_bytes b).symm)
    exact ⟨bytes_injective hab, hrs⟩
  · rintro ⟨rfl, rfl⟩
    rfl

@[simp] theorem f64_append_inj {a b : Double} : f64 a ++ r = f64 b ++ s ↔ a = b ∧ r = s :=
  u64_append_inj

theorem toUInt64_toInt64_inj {a b : Int32} (h : a.toInt64.toUInt64 = b.toInt64.toUInt64) :
    a = b := by
  have hwide : a.toInt64 = b.toInt64 := by
    rcases ha : a.toInt64
    rcases hb : b.toInt64
    simp_all
  simpa using congrArg Int64.toInt32 hwide

@[simp] theorem i64_append_inj {a b : Int32} : i64 a ++ r = i64 b ++ s ↔ a = b ∧ r = s := by
  unfold i64
  rw [← u64, ← u64, u64_append_inj]
  constructor
  · rintro ⟨hab, rfl⟩
    exact ⟨toUInt64_toInt64_inj hab, rfl⟩
  · rintro ⟨rfl, rfl⟩
    exact ⟨rfl, rfl⟩

/-- A string is hashed behind its length, so it ends where the next field starts. -/
@[simp] theorem str_append_inj {a b : Str} : str a ++ r = str b ++ s ↔ a = b ∧ r = s := by
  constructor
  · intro heq
    simp only [str, List.append_assoc, u64_append_inj] at heq
    have hlen : a.bytes.length = b.bytes.length := by
      have h := congrArg UInt64.toNat heq.1
      rwa [UInt64.toNat_ofNat_of_lt' a.size_lt, UInt64.toNat_ofNat_of_lt' b.size_lt] at h
    obtain ⟨hab, hrs⟩ := List.append_inj heq.2 hlen
    obtain ⟨a, _⟩ := a
    obtain ⟨b, _⟩ := b
    exact ⟨by simpa using hab, hrs⟩
  · rintro ⟨rfl, rfl⟩
    rfl

end Fnv1a

end Rgpot.Cache
