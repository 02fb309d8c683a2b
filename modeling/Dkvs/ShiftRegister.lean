import Mathlib

/-!
# Linear feedback shift registers

A register of `w` bits is shifted to the right, and a fixed polynomial is added whenever a
one is shifted out. Symbols of `k` bits are absorbed by adding them to the register and
making `k` shifts. The shifts are linear, and invertible when the polynomial has its highest
bit. So two inputs that differ only in symbols which together fit into the register leave it
in different states.
-/

namespace ShiftRegister

variable {w : ℕ}

/-- Only the first `m` bits may be set. -/
def Below (m : ℕ) (s : BitVec w) : Prop := ∀ i, m ≤ i → s.getLsbD i = false

/-- None of the first `m` bits is set. -/
def Above (m : ℕ) (s : BitVec w) : Prop := ∀ i < m, s.getLsbD i = false

theorem Below.xor {m : ℕ} {s t : BitVec w} (hs : Below m s) (ht : Below m t) :
    Below m (s ^^^ t) := by
  intro i hi
  rw [BitVec.getLsbD_xor, hs i hi, ht i hi]
  rfl

theorem Below.mono {m n : ℕ} {s : BitVec w} (hs : Below m s) (hmn : m ≤ n) : Below n s :=
  fun i hi ↦ hs i (hmn.trans hi)

theorem eq_zero_of_below_above {m : ℕ} {s : BitVec w} (hbelow : Below m s) (habove : Above m s) :
    s = 0#w := by
  refine BitVec.eq_of_getLsbD_eq fun i hi ↦ ?_
  rw [BitVec.getLsbD_zero]
  rcases Nat.lt_or_ge i m with hlt | hge
  · exact habove i hlt
  · exact hbelow i hge

theorem eq_of_xor_eq_zero {s t : BitVec w} (h : s ^^^ t = 0#w) : s = t := by
  simpa using h

theorem xor_xor_xor_comm (a b c d : BitVec w) : a ^^^ b ^^^ (c ^^^ d) = a ^^^ c ^^^ (b ^^^ d) := by
  ac_rfl

/-! ## Shifts -/

/-- Shift by one, and add the polynomial if a one comes out. -/
def step (p s : BitVec w) : BitVec w := if s.getLsbD 0 then p ^^^ (s >>> 1) else s >>> 1

def steps (p : BitVec w) : ℕ → BitVec w → BitVec w
  | 0, s => s
  | k + 1, s => steps p k (step p s)

variable {p s t : BitVec w} {k m : ℕ}

theorem step_eq (p s : BitVec w) :
    step p s = (if s.getLsbD 0 then p else 0#w) ^^^ (s >>> 1) := by
  unfold step
  split_ifs with hodd
  · rfl
  · rw [BitVec.zero_xor]

theorem step_xor (p s t : BitVec w) : step p (s ^^^ t) = step p s ^^^ step p t := by
  have hfeedback : (if (s ^^^ t).getLsbD 0 then p else 0#w) =
      (if s.getLsbD 0 then p else 0#w) ^^^ (if t.getLsbD 0 then p else 0#w) := by
    rw [BitVec.getLsbD_xor]
    cases s.getLsbD 0 <;> cases t.getLsbD 0 <;> simp
  rw [step_eq, step_eq, step_eq, hfeedback, BitVec.ushiftRight_xor_distrib, xor_xor_xor_comm]

theorem steps_xor (p s t : BitVec w) (k : ℕ) :
    steps p k (s ^^^ t) = steps p k s ^^^ steps p k t := by
  induction k generalizing s t with
  | zero => rfl
  | succ k ih => rw [steps, steps, steps, step_xor, ih]

/-- Nothing is lost in a step that may add the highest bit. -/
theorem eq_zero_of_step (hp : p.msb = true) (h : step p s = 0#w) : s = 0#w := by
  unfold step at h
  split_ifs at h with hodd
  · have hmsb := congrArg BitVec.msb (eq_of_xor_eq_zero h)
    simp [hp, BitVec.msb_ushiftRight] at hmsb
  · refine BitVec.eq_of_getLsbD_eq fun i _ ↦ ?_
    rw [BitVec.getLsbD_zero]
    cases i with
    | zero => simpa using hodd
    | succ i =>
        have hbit := congrArg (fun t : BitVec w ↦ t.getLsbD i) h
        simpa [BitVec.getLsbD_ushiftRight, Nat.add_comm] using hbit

theorem eq_zero_of_steps (hp : p.msb = true) (h : steps p k s = 0#w) : s = 0#w := by
  induction k generalizing s with
  | zero => exact h
  | succ k ih => exact eq_zero_of_step hp (ih h)

theorem steps_injective (hp : p.msb = true) (h : steps p k s = steps p k t) : s = t := by
  refine eq_of_xor_eq_zero (eq_zero_of_steps hp (k := k) ?_)
  rw [steps_xor, h, BitVec.xor_self]

/-- As long as only zeros come out, the steps are a plain shift. -/
theorem steps_of_above (hs : Above k s) : steps p k s = s >>> k := by
  induction k generalizing s with
  | zero => simp [steps]
  | succ k ih =>
      have hzero : step p s = s >>> 1 := by
        rw [step, hs 0 (Nat.succ_pos k)]
        rfl
      rw [steps, hzero, ih, ← BitVec.shiftRight_add, Nat.add_comm]
      intro i hi
      rw [BitVec.getLsbD_ushiftRight]
      exact hs (1 + i) (by omega)

/-- The bits that come out first decide what is added, the others only move. -/
theorem steps_split {low : BitVec w} (hlow : ∀ i, low.getLsbD i = (decide (i < k) && s.getLsbD i)) :
    steps p k s = steps p k low ^^^ (s >>> k) := by
  have habove : Above k (s ^^^ low) := by
    intro i hi
    simp [BitVec.getLsbD_xor, hlow, hi]
  have hshift : (s ^^^ low) >>> k = s >>> k := by
    refine BitVec.eq_of_getLsbD_eq fun i _ ↦ ?_
    simp [BitVec.getLsbD_ushiftRight, BitVec.getLsbD_xor, hlow]
  have hsplit : s = low ^^^ (s ^^^ low) := by
    rw [BitVec.xor_comm s low, ← BitVec.xor_assoc, BitVec.xor_self, BitVec.zero_xor]
  conv_lhs => rw [hsplit]
  rw [steps_xor, steps_of_above habove, hshift]

/-- A state that is reached with zeros at the top comes from one that was shifted. -/
theorem below_of_steps (hp : p.msb = true) (hw : m + k ≤ w) (h : Below m (steps p k s)) :
    Below (m + k) s ∧ Above k s := by
  have habove : Above k (steps p k s <<< k) := by
    intro i hi
    simp [BitVec.getLsbD_shiftLeft, hi]
  have hback : (steps p k s <<< k) >>> k = steps p k s := by
    refine BitVec.eq_of_getLsbD_eq fun i hi ↦ ?_
    rw [BitVec.getLsbD_ushiftRight, BitVec.getLsbD_shiftLeft, Nat.add_sub_cancel_left]
    rcases Nat.lt_or_ge i m with hlt | hge
    · simp [show k + i < w by omega]
    · simp [h i hge]
  have hsource : s = steps p k s <<< k := by
    refine steps_injective hp (k := k) ?_
    rw [steps_of_above habove, hback]
  refine ⟨?_, hsource ▸ habove⟩
  rw [hsource]
  intro i hi
  rw [BitVec.getLsbD_shiftLeft, h (i - k) (by omega)]
  simp

/-! ## Absorbing symbols -/

/-- Add a symbol to the register and shift it through. -/
def absorb (p : BitVec w) (k : ℕ) (s x : BitVec w) : BitVec w := steps p k (s ^^^ x)

def absorbAll (p : BitVec w) (k : ℕ) (s : BitVec w) (xs : List (BitVec w)) : BitVec w :=
  xs.foldl (absorb p k) s

variable {xs ys zs : List (BitVec w)}

theorem absorbAll_append (xs ys : List (BitVec w)) :
    absorbAll p k s (xs ++ ys) = absorbAll p k (absorbAll p k s xs) ys :=
  List.foldl_append

/-- The same symbols keep different states apart. -/
theorem absorbAll_injective_left (hp : p.msb = true)
    (h : absorbAll p k s zs = absorbAll p k t zs) : s = t := by
  induction zs generalizing s t with
  | nil => exact h
  | cons z zs ih =>
      have hadded : s ^^^ z = t ^^^ z := steps_injective hp (ih h)
      simpa using hadded

/-- Two states that few symbols bring together differ in few bits. -/
theorem below_of_absorbAll (hp : p.msb = true) (hlen : xs.length = ys.length)
    (hxs : ∀ x ∈ xs, Below k x) (hys : ∀ y ∈ ys, Below k y) (hw : xs.length * k ≤ w)
    (h : absorbAll p k s xs = absorbAll p k t ys) : Below (xs.length * k) (s ^^^ t) := by
  induction xs generalizing ys s t with
  | nil =>
      obtain rfl : ys = [] := List.eq_nil_of_length_eq_zero hlen.symm
      obtain rfl : s = t := h
      intro i _
      simp
  | cons x xs ih =>
      obtain ⟨y, ys, rfl⟩ := List.exists_cons_of_length_eq_add_one hlen.symm
      rw [List.length_cons, Nat.succ_mul] at hw ⊢
      have hafter : Below (xs.length * k) (absorb p k s x ^^^ absorb p k t y) :=
        ih (by simpa using hlen) (fun z hz ↦ hxs z (by simp [hz]))
          (fun z hz ↦ hys z (by simp [hz])) (by omega) h
      rw [absorb, absorb, ← steps_xor] at hafter
      -- the difference of the states is that of the register before the shifts and of the symbols
      obtain ⟨hbefore, -⟩ := below_of_steps hp hw hafter
      have hsymbols : Below (xs.length * k + k) (x ^^^ y) :=
        ((hxs x (by simp)).xor (hys y (by simp))).mono (Nat.le_add_left _ _)
      have hstates : s ^^^ t = s ^^^ x ^^^ (t ^^^ y) ^^^ (x ^^^ y) := by
        rw [xor_xor_xor_comm s x t y, BitVec.xor_assoc, BitVec.xor_self, BitVec.xor_zero]
      rw [hstates]
      exact hbefore.xor hsymbols

/-- Different symbols that fit into the register together lead to different states. -/
theorem absorbAll_injective_right (hp : p.msb = true) (hlen : xs.length = ys.length)
    (hxs : ∀ x ∈ xs, Below k x) (hys : ∀ y ∈ ys, Below k y) (hw : xs.length * k ≤ w)
    (h : absorbAll p k s xs = absorbAll p k s ys) : xs = ys := by
  induction xs generalizing ys s with
  | nil => exact (List.eq_nil_of_length_eq_zero hlen.symm).symm
  | cons x xs ih =>
      obtain ⟨y, ys, rfl⟩ := List.exists_cons_of_length_eq_add_one hlen.symm
      rw [List.length_cons, Nat.succ_mul] at hw
      have hxs' : ∀ z ∈ xs, Below k z := fun z hz ↦ hxs z (by simp [hz])
      have hys' : ∀ z ∈ ys, Below k z := fun z hz ↦ hys z (by simp [hz])
      have hlen' : xs.length = ys.length := by simpa using hlen
      have hafter := below_of_absorbAll hp hlen' hxs' hys' (by omega) h
      rw [absorb, absorb, ← steps_xor] at hafter
      have hfirst : s ^^^ x ^^^ (s ^^^ y) = x ^^^ y := by
        rw [xor_xor_xor_comm, BitVec.xor_self, BitVec.zero_xor]
      rw [hfirst] at hafter
      have habove := (below_of_steps hp hw hafter).2
      have hbelow := (hxs x (by simp)).xor (hys y (by simp))
      obtain rfl : x = y := eq_of_xor_eq_zero (eq_zero_of_below_above hbelow habove)
      rw [ih hlen' hxs' hys' (by omega) h]

/-- A burst that fits into the register is never missed, wherever it is. -/
theorem absorbAll_burst (hp : p.msb = true) (hlen : xs.length = ys.length)
    (hxs : ∀ x ∈ xs, Below k x) (hys : ∀ y ∈ ys, Below k y) (hw : xs.length * k ≤ w)
    (front back : List (BitVec w))
    (h : absorbAll p k s (front ++ (xs ++ back)) = absorbAll p k s (front ++ (ys ++ back))) :
    xs = ys := by
  simp only [absorbAll_append] at h
  exact absorbAll_injective_right hp hlen hxs hys hw (absorbAll_injective_left hp h)

end ShiftRegister
