import Dkvs.ShiftRegister
import Dkvs.Codec

/-!
# The checksum

`crc32` looks up eight shifts at a time in a table. It computes what the register computes
one bit at a time, and a change that is confined to four bytes in a row changes it.
-/

namespace Dkvs

open ShiftRegister

def crcPolynomial : BitVec 32 := 0xEDB88320#32

def octet (b : UInt8) : BitVec 32 := BitVec.ofNat 32 b.toNat

/-- The reference: a byte is added to the low bits of the register, which is then shifted
eight times. -/
def bitwiseCrc32 (data : Bytes) : ℕ :=
  (~~~ data.foldl (fun crc b ↦ steps crcPolynomial 8 (crc ^^^ octet b)) 0xFFFFFFFF#32).toNat

/-! ## Bytes in the register -/

theorem octet_below (b : UInt8) : Below 8 (octet b) := by
  intro i hi
  have hlt : b.toNat < 2 ^ i := b.toNat_lt.trans_le (Nat.pow_le_pow_right (by omega) hi)
  rw [octet, BitVec.getLsbD_ofNat, Nat.testBit_lt_two_pow hlt, Bool.and_false]

theorem octet_injective : Function.Injective octet := by
  intro b c h
  have hb := b.toNat_lt
  have hc := c.toNat_lt
  have hnat : b.toNat % 2 ^ 32 = c.toNat % 2 ^ 32 := by
    simpa only [octet, BitVec.toNat_ofNat] using congrArg BitVec.toNat h
  rw [Nat.mod_eq_of_lt (by omega), Nat.mod_eq_of_lt (by omega)] at hnat
  exact UInt8.toNat_inj.mp hnat

theorem getLsbD_low_byte (s : BitVec 32) (i : ℕ) :
    (s &&& 0xFF#32).getLsbD i = (decide (i < 8) && s.getLsbD i) := by
  have hmask : (0xFF#32).getLsbD i = decide (i < 8) := by
    rw [BitVec.getLsbD, show (0xFF#32).toNat = 2 ^ 8 - 1 from rfl, Nat.testBit_two_pow_sub_one]
  rw [BitVec.getLsbD_and, hmask, Bool.and_comm]

theorem low_byte_lt (s : BitVec 32) : (s &&& 0xFF#32).toNat < 256 := by
  rw [BitVec.toNat_and]
  exact Nat.and_lt_two_pow _ (by decide : (0xFF#32).toNat < 2 ^ 8)

theorem and_one_ne_zero_iff (s : BitVec 32) : s &&& 1 ≠ 0 ↔ s.getLsbD 0 = true := by
  constructor
  · intro hne
    by_contra hbit
    refine hne (BitVec.eq_of_getLsbD_eq fun i _ ↦ ?_)
    cases i with
    | zero => simpa using hbit
    | succ i => simp
  · intro hbit hzero
    have hclear : (s &&& 1).getLsbD 0 = false := by rw [hzero]; rfl
    rw [BitVec.getLsbD_and, hbit] at hclear
    exact absurd hclear (by decide)

/-! ## The table -/

theorem crcTableEntry_eq (i : ℕ) :
    crcTableEntry i = steps crcPolynomial 8 (BitVec.ofNat 32 i) := by
  have hstep : (fun (c : BitVec 32) (_ : ℕ) ↦
      if c &&& 1 ≠ 0 then 0xEDB88320#32 ^^^ (c >>> 1) else c >>> 1) =
      fun c _ ↦ step crcPolynomial c := by
    funext c _
    simp only [and_one_ne_zero_iff, step, crcPolynomial]
  rw [crcTableEntry, hstep]
  rfl

theorem makeCrcTable_getD {i : ℕ} (hi : i < 256) :
    makeCrcTable.getD i 0 = steps crcPolynomial 8 (BitVec.ofNat 32 i) := by
  rw [← crcTableEntry_eq, makeCrcTable, List.getD_eq_getElem?_getD, List.getElem?_map,
    List.getElem?_range hi]
  rfl

/-- A lookup makes eight shifts at once. -/
theorem lookup_eq (crc : BitVec 32) (b : UInt8) :
    makeCrcTable.getD ((crc ^^^ octet b) &&& 0xFF#32).toNat 0 ^^^ (crc >>> 8) =
      steps crcPolynomial 8 (crc ^^^ octet b) := by
  have hshift : (crc ^^^ octet b) >>> 8 = crc >>> 8 := by
    refine BitVec.eq_of_getLsbD_eq fun i _ ↦ ?_
    rw [BitVec.getLsbD_ushiftRight, BitVec.getLsbD_ushiftRight, BitVec.getLsbD_xor,
      octet_below b (8 + i) (Nat.le_add_right 8 i), Bool.xor_false]
  rw [steps_split (getLsbD_low_byte _), hshift, makeCrcTable_getD (low_byte_lt _),
    BitVec.ofNat_toNat, BitVec.setWidth_eq]

theorem crc32_eq (data : Bytes) :
    crc32 data = (absorbAll crcPolynomial 8 0xFFFFFFFF#32 (data.map octet) ^^^
      0xFFFFFFFF#32).toNat := by
  have hupdate : (fun (crc : BitVec 32) (ch : UInt8) ↦
      makeCrcTable.getD ((crc ^^^ BitVec.ofNat 32 ch.toNat) &&& 0xFF#32).toNat 0 ^^^ (crc >>> 8)) =
      fun crc ch ↦ absorb crcPolynomial 8 crc (octet ch) := by
    funext crc ch
    exact lookup_eq crc ch
  rw [crc32, hupdate, absorbAll, List.foldl_map]

/-- The checksum by table is the checksum bit by bit. -/
theorem crc32_eq_bitwise (data : Bytes) : crc32 data = bitwiseCrc32 data := by
  have hcomplement : ∀ s : BitVec 32, s ^^^ 0xFFFFFFFF#32 = ~~~ s := fun s ↦ BitVec.xor_allOnes
  rw [crc32_eq, hcomplement, absorbAll, List.foldl_map]
  rfl

/-- The check value of `123456789`. -/
example : crc32 [49, 50, 51, 52, 53, 54, 55, 56, 57] = 0xCBF43926 := by decide +kernel

/-! ## Bursts -/

/-- Strings of one length that are different, but only within `k` bytes in a row. -/
structure DifferWithin (k : ℕ) (xs ys : Bytes) : Prop where
  length_eq : xs.length = ys.length
  ne : xs ≠ ys
  agree : ∃ start, ∀ i, i < start ∨ start + k ≤ i → xs[i]? = ys[i]?

theorem DifferWithin.split {k : ℕ} {xs ys : Bytes} (h : DifferWithin k xs ys) :
    ∃ front as bs back, xs = front ++ (as ++ back) ∧ ys = front ++ (bs ++ back) ∧
      as.length = bs.length ∧ as.length ≤ k ∧ as ≠ bs := by
  obtain ⟨start, hagree⟩ := h.agree
  have hlen := h.length_eq
  have hfront : xs.take start = ys.take start := by
    refine List.ext_getElem? fun i ↦ ?_
    rw [List.getElem?_take, List.getElem?_take]
    split_ifs with hi
    · exact hagree i (Or.inl hi)
    · rfl
  have hback : (xs.drop start).drop k = (ys.drop start).drop k := by
    refine List.ext_getElem? fun i ↦ ?_
    rw [List.drop_drop, List.drop_drop, List.getElem?_drop, List.getElem?_drop]
    exact hagree _ (Or.inr (Nat.le_add_right _ i))
  have hsplit : ∀ zs : Bytes,
      zs = zs.take start ++ ((zs.drop start).take k ++ (zs.drop start).drop k) := by
    intro zs
    rw [List.take_append_drop, List.take_append_drop]
  refine ⟨_, (xs.drop start).take k, (ys.drop start).take k, _, hsplit xs, ?_, ?_, ?_, ?_⟩
  · rw [hfront, hback]
    exact hsplit ys
  · rw [List.length_take, List.length_take, List.length_drop, List.length_drop, hlen]
  · exact List.length_take_le k _
  · intro hmiddle
    refine h.ne ?_
    rw [hsplit xs, hsplit ys, hfront, hmiddle, hback]

/-- A burst of up to 32 bits cannot keep the checksum. -/
theorem crc32_ne_of_differWithin {xs ys : Bytes} (h : DifferWithin 4 xs ys) :
    crc32 xs ≠ crc32 ys := by
  obtain ⟨front, as, bs, back, rfl, rfl, hlen, hfour, hne⟩ := h.split
  intro hcrc
  have hbytes : ∀ zs : Bytes, ∀ x ∈ zs.map octet, Below 8 x := by
    intro zs x hx
    obtain ⟨b, -, rfl⟩ := List.mem_map.mp hx
    exact octet_below b
  rw [crc32_eq, crc32_eq, BitVec.toNat_inj, BitVec.xor_left_inj] at hcrc
  simp only [List.map_append] at hcrc
  have hburst := absorbAll_burst (by decide) (by simpa using hlen) (hbytes as) (hbytes bs)
    (by rw [List.length_map]; omega) (front.map octet) (back.map octet) hcrc
  exact hne (List.map_injective_iff.mpr octet_injective hburst)

end Dkvs
