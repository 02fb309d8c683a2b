import Mathlib

/-!
# Quorums and agreement of lists up to an index

A quorum system is any family of finite sets that pairwise meet; strict
majorities are the standard example. Two lists agree up to `n` when their first
`n` elements are the same. Both notions are stated over arbitrary types.
-/

namespace ReplicatedLog

/-- A family of finite sets, any two of which share a member. -/
structure QuorumSystem (N : Type*) where
  IsQuorum : Finset N → Prop
  meet : ∀ {P Q : Finset N}, IsQuorum P → IsQuorum Q → ∃ x, x ∈ P ∧ x ∈ Q

/-- The sets that hold more than half of the members. -/
def QuorumSystem.majority (N : Type*) [Fintype N] [DecidableEq N] : QuorumSystem N where
  IsQuorum Q := Fintype.card N / 2 + 1 ≤ Q.card
  meet := by
    intro P Q hP hQ
    have hunion : (P ∪ Q).card ≤ Fintype.card N := Finset.card_le_univ _
    have hcount := Finset.card_union_add_card_inter P Q
    have hpos : 0 < (P ∩ Q).card := by omega
    obtain ⟨x, hx⟩ := Finset.card_pos.mp hpos
    exact ⟨x, Finset.mem_inter.mp hx⟩

section Agreement

variable {α : Type*} {xs ys zs : List α} {m n : ℕ}

theorem take_eq_of_le (h : xs.take n = ys.take n) (hm : m ≤ n) : xs.take m = ys.take m := by
  have hmin : min m n = m := min_eq_left hm
  rw [← hmin, ← List.take_take, ← List.take_take, h]

theorem length_of_take_eq (h : xs.take n = ys.take n) (hn : n ≤ ys.length) : n ≤ xs.length := by
  have hlen := congrArg List.length h
  simp only [List.length_take] at hlen
  omega

theorem take_eq_of_isPrefix (h : xs <+: ys) (hn : n ≤ xs.length) : ys.take n = xs.take n := by
  obtain ⟨tail, rfl⟩ := h
  exact List.take_append_of_le_length hn

theorem getElem?_eq_of_take_eq (h : xs.take n = ys.take n) {i : ℕ} (hi : i < n) :
    xs[i]? = ys[i]? := by
  rw [← List.getElem?_take_of_lt hi, h, List.getElem?_take_of_lt hi]

theorem getElem?_of_isPrefix (h : xs <+: ys) {i : ℕ} {x : α} (hi : xs[i]? = some x) :
    ys[i]? = some x := by
  obtain ⟨tail, rfl⟩ := h
  obtain ⟨hlt, -⟩ := List.getElem?_eq_some_iff.mp hi
  rwa [List.getElem?_append_left hlt]

theorem take_isPrefix_of_take_eq (h : xs.take n = ys.take n) : xs.take n <+: ys :=
  h ▸ List.take_prefix n ys

theorem take_eq_of_take_isPrefix (h : xs.take n <+: ys) (hn : n ≤ xs.length) :
    ys.take n = xs.take n := by
  have hlen : n ≤ (xs.take n).length := by simp [hn]
  rw [take_eq_of_isPrefix h hlen, List.take_take, min_self]

theorem take_succ_of_getElem? {x : α} (h : xs[n]? = some x) :
    xs.take (n + 1) = xs.take n ++ [x] := by
  rw [List.take_add_one, h]
  rfl

theorem isPrefix_take_of_differ {d : ℕ} (hxs : zs <+: xs) (hys : zs <+: ys)
    (hdiffer : xs[d]? ≠ ys[d]?) : zs <+: xs.take d := by
  rw [List.prefix_take_iff]
  refine ⟨hxs, ?_⟩
  by_contra hlen
  have hget : zs[d]? = some zs[d] := List.getElem?_eq_getElem (by omega)
  exact hdiffer ((getElem?_of_isPrefix hxs hget).trans (getElem?_of_isPrefix hys hget).symm)

end Agreement

end ReplicatedLog
