import Mathlib

/-!
# Binary codec and checksum

The encoder writes big-endian integers and length-prefixed strings. The decoder
is represented by the bytes it has not consumed; a read past the end returns
`none` and leaves the position where it was.
-/

namespace Dkvs

abbrev Bytes := List UInt8

namespace Encoder

def u8 (v : ℕ) : Bytes := [UInt8.ofNat v]

def u32 (v : ℕ) : Bytes := [24, 16, 8, 0].map fun shift ↦ UInt8.ofNat (v >>> shift)

def u64 (v : ℕ) : Bytes :=
  [56, 48, 40, 32, 24, 16, 8, 0].map fun shift ↦ UInt8.ofNat (v >>> shift)

/-- The length is cast to `uint32_t` before it is written. -/
def str (s : Bytes) : Bytes := u32 (s.length % 2 ^ 32) ++ s

end Encoder

/-- The unread part of the input. -/
@[ext] structure Decoder where
  rest : Bytes
  deriving DecidableEq, Repr

/-- The accumulation loop of the integer reads. -/
def bigEndian (bytes : Bytes) : ℕ := bytes.foldl (fun v b ↦ (v <<< 8) ||| b.toNat) 0

namespace Decoder

def u8 (d : Decoder) : Option ℕ × Decoder :=
  match d.rest with
  | [] => (none, d)
  | b :: tail => (some b.toNat, ⟨tail⟩)

/-- Read an `n`-byte big-endian integer. -/
def uint (n : ℕ) (d : Decoder) : Option ℕ × Decoder :=
  if d.rest.length < n then (none, d)
  else (some (bigEndian (d.rest.take n)), ⟨d.rest.drop n⟩)

def u32 (d : Decoder) : Option ℕ × Decoder := d.uint 4

def u64 (d : Decoder) : Option ℕ × Decoder := d.uint 8

def str (d : Decoder) : Option Bytes × Decoder :=
  match d.u32 with
  | (none, d') => (none, d')
  | (some len, d') =>
      if d'.rest.length < len then (none, d')
      else (some (d'.rest.take len), ⟨d'.rest.drop len⟩)

def done (d : Decoder) : Bool := d.rest.isEmpty

end Decoder

/-- Eight shift steps of the polynomial `0xEDB88320` from one table index. -/
def crcTableEntry (i : ℕ) : BitVec 32 :=
  (List.range 8).foldl
    (fun c _ ↦ if c &&& 1 ≠ 0 then 0xEDB88320#32 ^^^ (c >>> 1) else c >>> 1) (BitVec.ofNat 32 i)

def makeCrcTable : List (BitVec 32) := (List.range 256).map crcTableEntry

def crc32 (data : Bytes) : ℕ :=
  let crc := data.foldl
    (fun crc ch ↦
      makeCrcTable.getD ((crc ^^^ BitVec.ofNat 32 ch.toNat) &&& 0xFF#32).toNat 0 ^^^ (crc >>> 8))
    0xFFFFFFFF#32
  (crc ^^^ 0xFFFFFFFF#32).toNat

/-! ## The two directions meet -/

theorem bigEndian_append (xs : Bytes) (b : UInt8) :
    bigEndian (xs ++ [b]) = bigEndian xs * 256 + b.toNat := by
  have hlt : b.toNat < 2 ^ 8 := b.toNat_lt
  simp only [bigEndian, List.foldl_append, List.foldl_cons, List.foldl_nil]
  rw [← Nat.shiftLeft_add_eq_or_of_lt hlt, Nat.shiftLeft_eq]

theorem bigEndian_lt (xs : Bytes) : bigEndian xs < 256 ^ xs.length := by
  induction xs using List.reverseRecOn with
  | nil => simp [bigEndian]
  | append_singleton xs b ih =>
      have hlt : b.toNat < 256 := b.toNat_lt
      rw [bigEndian_append, List.length_append, List.length_singleton, pow_succ]
      omega

/-- The `n` low bytes of `v`, most significant first. -/
def toBigEndian : ℕ → ℕ → Bytes
  | 0, _ => []
  | n + 1, v => toBigEndian n (v >>> 8) ++ [UInt8.ofNat v]

@[simp] theorem length_toBigEndian (n v : ℕ) : (toBigEndian n v).length = n := by
  induction n generalizing v with
  | zero => rfl
  | succ n ih => simp [toBigEndian, ih]

theorem bigEndian_toBigEndian {n v : ℕ} (hv : v < 256 ^ n) :
    bigEndian (toBigEndian n v) = v := by
  induction n generalizing v with
  | zero =>
      have hzero : v = 0 := by simpa using hv
      simp [toBigEndian, bigEndian, hzero]
  | succ n ih =>
      have hhigh : v >>> 8 < 256 ^ n := by
        rw [Nat.shiftRight_eq_div_pow]
        exact Nat.div_lt_of_lt_mul (by rwa [pow_succ, mul_comm] at hv)
      have hlow : (UInt8.ofNat v).toNat = v % 256 := by simp
      rw [toBigEndian, bigEndian_append, ih hhigh, hlow, Nat.shiftRight_eq_div_pow]
      omega

theorem toBigEndian_bigEndian (xs : Bytes) : toBigEndian xs.length (bigEndian xs) = xs := by
  induction xs using List.reverseRecOn with
  | nil => rfl
  | append_singleton xs b ih =>
      have hlt : b.toNat < 256 := b.toNat_lt
      have hhigh : (bigEndian xs * 256 + b.toNat) >>> 8 = bigEndian xs := by
        rw [Nat.shiftRight_eq_div_pow]
        omega
      have hlow : UInt8.ofNat (bigEndian xs * 256 + b.toNat) = b := by
        apply UInt8.toNat_inj.mp
        simp only [UInt8.toNat_ofNat']
        omega
      rw [List.length_append, List.length_singleton, bigEndian_append, toBigEndian, hhigh, hlow, ih]

namespace Encoder

theorem u32_eq (v : ℕ) : u32 v = toBigEndian 4 v := by
  simp [u32, toBigEndian, ← Nat.shiftRight_add]

theorem u64_eq (v : ℕ) : u64 v = toBigEndian 8 v := by
  simp [u64, toBigEndian, ← Nat.shiftRight_add]

@[simp] theorem length_u32 (v : ℕ) : (u32 v).length = 4 := rfl

@[simp] theorem length_u64 (v : ℕ) : (u64 v).length = 8 := rfl

@[simp] theorem length_str (s : Bytes) : (str s).length = 4 + s.length := by
  simp [str]

end Encoder

namespace Decoder

/-- A read succeeds exactly on what the encoder writes. -/
theorem uint_eq_some {n v : ℕ} {d d' : Decoder} :
    d.uint n = (some v, d') ↔ d.rest = toBigEndian n v ++ d'.rest ∧ v < 256 ^ n := by
  unfold uint
  constructor
  · intro hread
    split_ifs at hread with hshort
    · simp at hread
    · obtain ⟨rfl, rfl⟩ : bigEndian (d.rest.take n) = v ∧ (⟨d.rest.drop n⟩ : Decoder) = d' := by
        simpa using hread
      have hlen : (d.rest.take n).length = n := by simpa using hshort
      have hback := toBigEndian_bigEndian (d.rest.take n)
      have hlt := bigEndian_lt (d.rest.take n)
      rw [hlen] at hback hlt
      exact ⟨by rw [hback, List.take_append_drop], hlt⟩
  · rintro ⟨hrest, hv⟩
    have htake : d.rest.take n = toBigEndian n v := by simp [hrest]
    have hdrop : d.rest.drop n = d'.rest := by simp [hrest]
    have hlen : ¬ d.rest.length < n := by simp [hrest]
    rw [if_neg hlen, htake, hdrop, bigEndian_toBigEndian hv]

theorem u8_eq_some {v : ℕ} {d d' : Decoder} :
    d.u8 = (some v, d') ↔ d.rest = Encoder.u8 v ++ d'.rest ∧ v < 2 ^ 8 := by
  unfold u8
  constructor
  · intro hread
    split at hread
    · simp at hread
    · rename_i b tail hrest
      obtain ⟨rfl, rfl⟩ : b.toNat = v ∧ (⟨tail⟩ : Decoder) = d' := by simpa using hread
      exact ⟨by simp [hrest, Encoder.u8], b.toNat_lt⟩
  · rintro ⟨hrest, hv⟩
    have hback : (UInt8.ofNat v).toNat = v := by simpa using hv
    simp [hrest, Encoder.u8, hback]

theorem u32_eq_some {v : ℕ} {d d' : Decoder} :
    d.u32 = (some v, d') ↔ d.rest = Encoder.u32 v ++ d'.rest ∧ v < 2 ^ 32 := by
  rw [u32, uint_eq_some, Encoder.u32_eq]
  norm_num

theorem u64_eq_some {v : ℕ} {d d' : Decoder} :
    d.u64 = (some v, d') ↔ d.rest = Encoder.u64 v ++ d'.rest ∧ v < 2 ^ 64 := by
  rw [u64, uint_eq_some, Encoder.u64_eq]
  norm_num

theorem str_eq_some {s : Bytes} {d d' : Decoder} :
    d.str = (some s, d') ↔ d.rest = Encoder.str s ++ d'.rest ∧ s.length < 2 ^ 32 := by
  unfold str
  constructor
  · intro hread
    split at hread
    · simp at hread
    · rename_i len d₁ hlen
      split_ifs at hread with hshort
      · simp at hread
      · obtain ⟨rfl, rfl⟩ : d₁.rest.take len = s ∧ (⟨d₁.rest.drop len⟩ : Decoder) = d' := by
          simpa using hread
        obtain ⟨hrest, hlt⟩ := u32_eq_some.mp hlen
        have hlength : (d₁.rest.take len).length = len := by simpa using hshort
        rw [Encoder.str, hlength, Nat.mod_eq_of_lt hlt, hrest, List.append_assoc,
          List.take_append_drop]
        exact ⟨rfl, hlt⟩
  · rintro ⟨hrest, hlt⟩
    have hlen : d.u32 = (some s.length, ⟨s ++ d'.rest⟩) := by
      rw [u32_eq_some]
      refine ⟨?_, hlt⟩
      rw [hrest, Encoder.str, Nat.mod_eq_of_lt hlt, List.append_assoc]
    simp [hlen]

theorem done_iff {d : Decoder} : d.done = true ↔ d.rest = [] := by
  simp [done]

/-! What the encoder has put in front of `rest` is read back. -/

variable {v : ℕ} {s : Bytes}

theorem u8_append (hv : v < 2 ^ 8) (rest : Bytes) :
    (⟨Encoder.u8 v ++ rest⟩ : Decoder).u8 = (some v, ⟨rest⟩) :=
  u8_eq_some.mpr ⟨rfl, hv⟩

theorem u32_append (hv : v < 2 ^ 32) (rest : Bytes) :
    (⟨Encoder.u32 v ++ rest⟩ : Decoder).u32 = (some v, ⟨rest⟩) :=
  u32_eq_some.mpr ⟨rfl, hv⟩

theorem u64_append (hv : v < 2 ^ 64) (rest : Bytes) :
    (⟨Encoder.u64 v ++ rest⟩ : Decoder).u64 = (some v, ⟨rest⟩) :=
  u64_eq_some.mpr ⟨rfl, hv⟩

theorem str_append (hs : s.length < 2 ^ 32) (rest : Bytes) :
    (⟨Encoder.str s ++ rest⟩ : Decoder).str = (some s, ⟨rest⟩) :=
  str_eq_some.mpr ⟨rfl, hs⟩

end Decoder

theorem crc32_lt (data : Bytes) : crc32 data < 2 ^ 32 := BitVec.isLt _

end Dkvs
