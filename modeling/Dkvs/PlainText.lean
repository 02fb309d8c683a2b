import Mathlib

/-!
# Fields and numbers in plain text

A separator is looked for from the left or from the right, and its position cuts the text
into fields. The digits of a number are read one after the other; a reader with a limit
gives up as soon as the digits read so far exceed it, which says nothing about the digits
to come and is still right, since the value never gets smaller.
-/

namespace PlainText

variable {α : Type*} {a : α} {xs : List α}

/-! ## Separators -/

/-- A list that has a separator is cut at the last one. -/
theorem eq_append_cons_last (h : a ∈ xs) : ∃ front back, xs = front ++ a :: back ∧ a ∉ back := by
  obtain ⟨back, front, hxs, hback⟩ := List.eq_append_cons_of_mem (List.mem_reverse.mpr h)
  refine ⟨front.reverse, back.reverse, ?_, by simpa using hback⟩
  rw [← List.reverse_reverse xs, hxs]
  simp

variable [DecidableEq α]

/-- The first position of `a` that is not before `start`. -/
def find? (a : α) (xs : List α) (start : ℕ) : Option ℕ :=
  ((xs.drop start).findIdx? (· = a)).map (start + ·)

/-- The last position of `a`. -/
def rfind? (a : α) (xs : List α) : Option ℕ :=
  (xs.reverse.findIdx? (· = a)).map fun i ↦ xs.length - 1 - i

theorem findIdx?_of_notMem (h : a ∉ xs) : xs.findIdx? (· = a) = none := by
  refine List.findIdx?_eq_none_iff.mpr fun x hx ↦ ?_
  simp only [decide_eq_false_iff_not]
  rintro rfl
  exact h hx

theorem findIdx?_append_cons (h : a ∉ xs) (ys : List α) :
    (xs ++ a :: ys).findIdx? (· = a) = some xs.length := by
  rw [List.findIdx?_append, findIdx?_of_notMem h]
  simp [List.findIdx?_cons]

theorem rfind?_of_notMem (h : a ∉ xs) : rfind? a xs = none := by
  rw [rfind?, findIdx?_of_notMem (by simpa using h)]
  rfl

theorem rfind?_append_cons (h : a ∉ xs) (front : List α) :
    rfind? a (front ++ a :: xs) = some front.length := by
  have hreverse : (front ++ a :: xs).reverse = xs.reverse ++ a :: front.reverse := by simp
  rw [rfind?, hreverse, findIdx?_append_cons (by simpa using h), Option.map_some]
  simp only [List.length_append, List.length_cons, List.length_reverse, Option.some.injEq]
  omega

theorem splitOn_append_cons (h : a ∉ xs) (ys : List α) :
    (xs ++ a :: ys).splitOn a = xs :: ys.splitOn a := by
  have hfree : ∀ x ∈ xs, (x == a) = false := by
    intro x hx
    simp only [beq_eq_false_iff_ne]
    rintro rfl
    exact h hx
  exact List.splitOnP_append_cons_of_forall_mem hfree a (by simp) ys

/-- Without another separator, the rest is the last field. -/
theorem splitOn_of_find?_eq_none {start : ℕ} (h : find? a xs start = none) :
    (xs.drop start).splitOn a = [xs.drop start] := by
  refine List.splitOn_eq_singleton fun hmem ↦ ?_
  obtain ⟨front, back, hdrop, hfront⟩ := List.eq_append_cons_of_mem hmem
  rw [find?, hdrop, findIdx?_append_cons hfront] at h
  simp at h

/-- The next separator ends the next field. -/
theorem splitOn_of_find?_eq_some {start i : ℕ} (h : find? a xs start = some i) :
    start ≤ i ∧ i < xs.length ∧
      (xs.drop start).splitOn a =
        (xs.drop start).take (i - start) :: (xs.drop (i + 1)).splitOn a := by
  have hmem : a ∈ xs.drop start := by
    by_contra hnot
    rw [find?, findIdx?_of_notMem hnot] at h
    simp at h
  obtain ⟨front, back, hdrop, hfront⟩ := List.eq_append_cons_of_mem hmem
  rw [find?, hdrop, findIdx?_append_cons hfront, Option.map_some, Option.some.injEq] at h
  have hlength := congrArg List.length hdrop
  rw [List.length_drop, List.length_append, List.length_cons] at hlength
  have hrest : xs.drop (i + 1) = back := by
    rw [← h, Nat.add_assoc, ← List.drop_drop, hdrop, ← List.drop_drop, List.drop_left]
    rfl
  refine ⟨by omega, by omega, ?_⟩
  rw [hrest, hdrop, splitOn_append_cons hfront, ← h, Nat.add_sub_cancel_left, List.take_left]

/-! ## Bytes of a string -/

/-- The loop of `toList` after the bytes of `front`. -/
theorem toList_loop (front back collected : List UInt8) :
    ByteArray.toList.loop ⟨⟨front ++ back⟩⟩ front.length collected =
      collected.reverse ++ back := by
  induction back generalizing front collected with
  | nil =>
      rw [ByteArray.toList.loop, if_neg (by simp [ByteArray.size])]
      exact (List.append_nil _).symm
  | cons b back ih =>
      have hnext : (ByteArray.mk ⟨front ++ b :: back⟩).get! front.length = b := by
        simp [ByteArray.get!]
      have hrest := ih (front ++ [b]) (b :: collected)
      rw [List.append_assoc, List.singleton_append, List.length_append] at hrest
      rw [ByteArray.toList.loop, if_pos (by simp [ByteArray.size]), hnext]
      simpa using hrest

theorem toList_mk (bytes : List UInt8) : (ByteArray.mk ⟨bytes⟩).toList = bytes :=
  toList_loop [] bytes []

/-- The bytes of joined strings are the joined bytes. -/
theorem toUTF8_append (s t : String) :
    (s ++ t).toUTF8.toList = s.toUTF8.toList ++ t.toUTF8.toList := by
  have hdata : (s ++ t).toUTF8 = ⟨⟨s.toUTF8.data.toList ++ t.toUTF8.data.toList⟩⟩ := by
    refine ByteArray.ext (Array.toList_inj.mp ?_)
    rw [String.toUTF8, String.toByteArray_append, ByteArray.toList_data_append]
    rfl
  rw [hdata, toList_mk]
  exact congrArg₂ (· ++ ·) (toList_mk _).symm (toList_mk _).symm

/-! ## Digits -/

/-- Digits in base `b` behind a number that is already read. -/
def horner (b v : ℕ) (ds : List ℕ) : ℕ := ds.foldl (fun v d ↦ v * b + d) v

/-- Reading ends with `none` when a value is over the limit. -/
def hornerUpTo (b limit : ℕ) : ℕ → List ℕ → Option ℕ
  | v, [] => some v
  | v, d :: ds => if limit < v * b + d then none else hornerUpTo b limit (v * b + d) ds

theorem horner_zero (b : ℕ) (ds : List ℕ) : horner b 0 ds = Nat.ofDigits b ds.reverse := by
  rw [Nat.ofDigits_eq_foldr, List.foldr_reverse, horner]
  simp only [Nat.cast_id, add_comm, mul_comm]

theorem le_horner {b : ℕ} (hb : 0 < b) (v : ℕ) (ds : List ℕ) : v ≤ horner b v ds := by
  induction ds generalizing v with
  | nil => exact le_rfl
  | cons d ds ih =>
      calc v ≤ v * b := Nat.le_mul_of_pos_right v hb
        _ ≤ v * b + d := Nat.le_add_right _ d
        _ ≤ horner b v (d :: ds) := ih (v * b + d)

/-- The early end is right: what is over the limit stays over it. -/
theorem hornerUpTo_eq {b limit : ℕ} (hb : 0 < b) {v : ℕ} (hv : v ≤ limit) (ds : List ℕ) :
    hornerUpTo b limit v ds =
      if horner b v ds ≤ limit then some (horner b v ds) else none := by
  induction ds generalizing v with
  | nil => exact (if_pos hv).symm
  | cons d ds ih =>
      rw [hornerUpTo]
      split_ifs with hover hle hle
      · have hmore := le_horner hb (v * b + d) ds
        exact absurd (hmore.trans hle) (Nat.not_le.mpr hover)
      · rfl
      · rw [ih (Nat.not_lt.mp hover)]
        exact if_pos hle
      · rw [ih (Nat.not_lt.mp hover)]
        exact if_neg hle

end PlainText
