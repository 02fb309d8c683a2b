import Mathlib

/-!
# Logs made of self-delimiting records

A prefix code writes each item as a record such that no record is an initial part
of another one. A file of records can then be read back from its beginning, and
whatever is at its end, there is exactly one longest sequence of items whose
records are an initial part of the file.
-/

namespace RecordLog

structure PrefixCode (α β : Type*) where
  Valid : α → Prop
  record : α → List β
  ne_nil : ∀ {a}, Valid a → record a ≠ []
  prefix_free : ∀ {a b}, Valid a → Valid b → record a <+: record b → a = b

namespace PrefixCode

variable {α β : Type*} (code : PrefixCode α β) {a b : α} {xs ys : List α} {w rest : List β}

/-- The file that holds the given items. -/
def concat (xs : List α) : List β := xs.flatMap code.record

@[simp] theorem concat_nil : code.concat [] = [] := rfl

@[simp] theorem concat_cons (a : α) (xs : List α) :
    code.concat (a :: xs) = code.record a ++ code.concat xs := rfl

@[simp] theorem concat_append (xs ys : List α) :
    code.concat (xs ++ ys) = code.concat xs ++ code.concat ys := by
  simp [concat]

theorem concat_isPrefix (h : xs <+: ys) : code.concat xs <+: code.concat ys := by
  obtain ⟨tail, rfl⟩ := h
  rw [concat_append]
  exact List.prefix_append _ _

theorem length_record_le (ha : a ∈ xs) : (code.record a).length ≤ (code.concat xs).length := by
  rw [concat, List.flatMap_def]
  exact (List.sublist_flatten_of_mem (List.mem_map_of_mem ha)).length_le

theorem length_le_concat (hxs : ∀ x ∈ xs, code.Valid x) :
    xs.length ≤ (code.concat xs).length := by
  induction xs with
  | nil => exact Nat.zero_le _
  | cons x xs ih =>
      have hpos := List.length_pos_of_ne_nil (code.ne_nil (hxs x (by simp)))
      have hrest := ih fun y hy ↦ hxs y (by simp [hy])
      rw [concat_cons, List.length_append, List.length_cons]
      omega

/-- Where each record starts. -/
def starts (xs : List α) : List ℕ :=
  (List.range xs.length).map fun k ↦ (code.concat (xs.take k)).length

@[simp] theorem starts_nil : code.starts [] = [] := rfl

@[simp] theorem length_starts (xs : List α) : (code.starts xs).length = xs.length := by
  simp [starts]

theorem getElem?_starts {k : ℕ} (hk : k < xs.length) :
    (code.starts xs)[k]? = some (code.concat (xs.take k)).length := by
  simp [starts, hk]

theorem starts_concat (xs : List α) (a : α) :
    code.starts (xs ++ [a]) = code.starts xs ++ [(code.concat xs).length] := by
  rw [starts, List.length_append, List.length_singleton, List.range_succ, List.map_append]
  congr 1
  · refine List.map_congr_left fun k hk ↦ ?_
    rw [List.take_append_of_le_length (List.mem_range.mp hk).le]
  · simp

theorem take_starts (xs : List α) (k : ℕ) : (code.starts xs).take k = code.starts (xs.take k) := by
  rw [starts, starts, ← List.map_take, List.take_range, List.length_take]
  refine List.map_congr_left fun m hm ↦ ?_
  have hlt : m < k := lt_of_lt_of_le (List.mem_range.mp hm) (min_le_left _ _)
  rw [List.take_take, min_eq_left hlt.le]

variable {code}

/-- Records that both start at the beginning of a file are equal. -/
theorem eq_of_isPrefix (ha : code.Valid a) (hb : code.Valid b) (hwa : code.record a <+: w)
    (hwb : code.record b <+: w) : a = b := by
  rcases List.prefix_or_prefix_of_prefix hwa hwb with hle | hle
  · exact code.prefix_free ha hb hle
  · exact (code.prefix_free hb ha hle).symm

/-- A record that was written only in part is not a file of records. -/
theorem not_isPrefix_take (ha : code.Valid a) (hb : code.Valid b) {k : ℕ}
    (hk : k < (code.record a).length) : ¬ code.record b <+: (code.record a).take k := by
  intro hpre
  obtain rfl := code.prefix_free hb ha (hpre.trans (List.take_prefix _ _))
  have hle := hpre.length_le
  rw [List.length_take] at hle
  omega

variable (code) in
/-- The longest sequence of items whose records are an initial part of `w`. -/
structure Longest (w : List β) (xs : List α) : Prop where
  valid : ∀ x ∈ xs, code.Valid x
  isPrefix : code.concat xs <+: w
  maximal : ∀ {ys}, (∀ y ∈ ys, code.Valid y) → code.concat ys <+: w → ys <+: xs

theorem Longest.unique (hxs : code.Longest w xs) (hys : code.Longest w ys) : xs = ys :=
  (hys.maximal hxs.valid hxs.isPrefix).eq_of_length_le
    (hxs.maximal hys.valid hys.isPrefix).length_le

/-- Reading stops where no record follows. -/
theorem Longest.of_stuck (hxs : ∀ x ∈ xs, code.Valid x)
    (hstuck : ∀ b, code.Valid b → ¬ code.record b <+: rest) :
    code.Longest (code.concat xs ++ rest) xs := by
  refine ⟨hxs, List.prefix_append _ _, ?_⟩
  induction xs with
  | nil =>
      intro ys hys hpre
      cases ys with
      | nil => exact List.prefix_rfl
      | cons y ys =>
          refine (hstuck y (hys y (by simp)) ?_).elim
          exact (List.prefix_append _ _).trans hpre
  | cons x xs ih =>
      intro ys hys hpre
      cases ys with
      | nil => exact List.nil_prefix
      | cons y ys =>
          rw [concat_cons, concat_cons, List.append_assoc] at hpre
          have hy := (List.prefix_append _ _).trans hpre
          obtain rfl : y = x :=
            eq_of_isPrefix (hys y (by simp)) (hxs x (by simp)) hy (List.prefix_append _ _)
          rw [List.prefix_append_right_inj] at hpre
          rw [List.prefix_cons_inj]
          exact ih (fun z hz ↦ hxs z (by simp [hz])) (fun z hz ↦ hys z (by simp [hz])) hpre

/-- Every file is a file of records followed by something that no record begins. -/
theorem exists_stuck (code : PrefixCode α β) (w : List β) :
    ∃ xs rest, (∀ x ∈ xs, code.Valid x) ∧ w = code.concat xs ++ rest ∧
      ∀ b, code.Valid b → ¬ code.record b <+: rest := by
  induction hn : w.length using Nat.strong_induction_on generalizing w with
  | h n ih =>
      by_cases hmore : ∃ a, code.Valid a ∧ code.record a <+: w
      · obtain ⟨a, ha, tail, rfl⟩ := hmore
        have hpos := List.length_pos_of_ne_nil (code.ne_nil ha)
        rw [List.length_append] at hn
        obtain ⟨xs, rest, hxs, rfl, hstuck⟩ := ih tail.length (by omega) tail rfl
        refine ⟨a :: xs, rest, ?_, by simp, hstuck⟩
        intro x hx
        rcases List.mem_cons.mp hx with rfl | hx
        · exact ha
        · exact hxs x hx
      · exact ⟨[], w, by simp, by simp, fun b hb hpre ↦ hmore ⟨b, hb, hpre⟩⟩

/-- A record that was written only in part is ignored. -/
theorem Longest.of_torn (hxs : ∀ x ∈ xs, code.Valid x) (ha : code.Valid a) {k : ℕ}
    (hk : k < (code.record a).length) :
    code.Longest (code.concat xs ++ (code.record a).take k) xs :=
  .of_stuck hxs fun _ hb ↦ not_isPrefix_take ha hb hk

theorem Longest.concat (hxs : ∀ x ∈ xs, code.Valid x) : code.Longest (code.concat xs) xs := by
  have hstuck : ∀ b, code.Valid b → ¬ code.record b <+: [] := fun b hb hpre ↦
    code.ne_nil hb (List.prefix_nil.mp hpre)
  simpa using Longest.of_stuck hxs hstuck

/-- In a file that was cut off somewhere, the items read back are those whose
records are complete. -/
theorem Longest.of_take {k : ℕ} (hxs : ∀ x ∈ xs, code.Valid x)
    (hys : code.Longest ((code.concat xs).take k) ys) :
    ∃ m, ys = xs.take m ∧ (code.concat (xs.take m)).length ≤ k ∧
      (m < xs.length → k < (code.concat (xs.take (m + 1))).length) := by
  have hpre := (Longest.concat hxs).maximal hys.valid (hys.isPrefix.trans (List.take_prefix _ _))
  have heq := List.prefix_iff_eq_take.mp hpre
  refine ⟨ys.length, heq, ?_, fun hlt ↦ ?_⟩
  · rw [← heq]
    exact hys.isPrefix.length_le.trans (List.length_take_le _ _)
  · by_contra hle
    have hmore : code.concat (xs.take (ys.length + 1)) <+: (code.concat xs).take k := by
      rw [List.prefix_take_iff]
      exact ⟨code.concat_isPrefix (List.take_prefix _ _), Nat.le_of_not_lt hle⟩
    have hlonger := hys.maximal (fun x hx ↦ hxs x (List.take_subset _ _ hx)) hmore
    have hlen := hlonger.length_le
    rw [List.length_take] at hlen
    omega

end PrefixCode

end RecordLog
