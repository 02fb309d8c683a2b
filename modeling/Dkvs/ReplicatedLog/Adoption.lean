import Dkvs.ReplicatedLog.Quorum

/-!
# Matching logs and the adoption of a beginning

Two logs match when entries of one term at one index come with equal logs up to
there. A log adopts the first entries of another one by keeping what it has if it
begins with them, and by becoming them if it does not. Adopting never loses what
the two logs have in common, and doing it again changes nothing.
-/

namespace ReplicatedLog

variable {E : Type*} {termOf : E → ℕ} {xs ys zs : List E} {m n : ℕ}

def Matching (termOf : E → ℕ) (xs ys : List E) : Prop :=
  ∀ ⦃i : ℕ⦄ ⦃x y : E⦄, xs[i]? = some x → ys[i]? = some y → termOf x = termOf y →
    xs.take (i + 1) = ys.take (i + 1)

namespace Matching

theorem symm (h : Matching termOf xs ys) : Matching termOf ys xs :=
  fun _ _ _ hy hx hterm ↦ (h hx hy hterm.symm).symm

theorem take_left (h : Matching termOf xs ys) (n : ℕ) : Matching termOf (xs.take n) ys := by
  intro i x y hx hy hterm
  have hi : i < n := by
    by_contra hi
    rw [List.getElem?_take_eq_none (by omega)] at hx
    simp at hx
  rw [List.getElem?_take_of_lt hi] at hx
  rw [List.take_take, min_eq_left (by omega)]
  exact h hx hy hterm

theorem of_isPrefix_left (h : Matching termOf xs ys) (hzs : zs <+: xs) :
    Matching termOf zs ys := by
  rw [List.prefix_iff_eq_take.mp hzs]
  exact h.take_left _

theorem of_isPrefix_right (h : Matching termOf xs ys) (hzs : zs <+: ys) :
    Matching termOf xs zs :=
  (h.symm.of_isPrefix_left hzs).symm

theorem refl (xs : List E) : Matching termOf xs xs := fun _ _ _ _ _ _ ↦ rfl

theorem of_isPrefix (hxs : xs <+: zs) (hys : ys <+: zs) : Matching termOf xs ys :=
  ((refl zs).of_isPrefix_left hxs).of_isPrefix_right hys

/-- Two logs that part at an entry of different terms match. -/
theorem concat (zs : List E) {x y : E} (h : termOf x ≠ termOf y) :
    Matching termOf (zs ++ [x]) (zs ++ [y]) := by
  intro i a b ha hb hterm
  rcases Nat.lt_trichotomy i zs.length with hi | rfl | hi
  · rw [List.take_append_of_le_length hi, List.take_append_of_le_length hi]
  · simp only [List.getElem?_concat_length, Option.some.injEq] at ha hb
    exact (h (ha ▸ hb ▸ hterm)).elim
  · rw [List.getElem?_eq_none (by simpa using hi)] at ha
    simp at ha

end Matching

section Adoption

variable [DecidableEq E]

/-- The log `xs` after it has taken over the first `m` entries of `ys`. -/
def adopt (xs ys : List E) (m : ℕ) : List E := if ys.take m <+: xs then xs else ys.take m

theorem adopt_of_isPrefix (h : ys.take m <+: xs) : adopt xs ys m = xs := if_pos h

theorem adopt_of_not_isPrefix (h : ¬ ys.take m <+: xs) : adopt xs ys m = ys.take m := if_neg h

theorem take_isPrefix_adopt (xs ys : List E) (m : ℕ) : ys.take m <+: adopt xs ys m := by
  unfold adopt
  split_ifs with h
  · exact h
  · exact List.prefix_rfl

theorem take_adopt (hm : m ≤ ys.length) : (adopt xs ys m).take m = ys.take m :=
  take_eq_of_take_isPrefix (take_isPrefix_adopt xs ys m) hm

/-- What the two logs have in common stays. -/
theorem take_adopt_of_take_eq (h : xs.take n = ys.take n) :
    (adopt xs ys m).take n = ys.take n := by
  unfold adopt
  split_ifs with hpre
  · exact h
  · rcases Nat.le_total n m with hnm | hmn
    · rw [List.take_take, min_eq_left hnm]
    · -- a longer common part holds all of `ys.take m`
      refine (hpre ?_).elim
      exact (take_isPrefix_of_take_eq (take_eq_of_le h hmn).symm)

theorem Matching.adopt (h : Matching termOf xs zs) (hmatch : Matching termOf ys zs) (m : ℕ) :
    Matching termOf (adopt xs ys m) zs := by
  unfold ReplicatedLog.adopt
  split_ifs with hpre
  · exact h
  · exact hmatch.take_left m

end Adoption

end ReplicatedLog
