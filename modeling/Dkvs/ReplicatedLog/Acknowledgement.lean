import Dkvs.ReplicatedLog.Completeness

/-!
# Acknowledgements of the present term

While a node stays in the term of an acknowledgement, its log agrees with the
leader's chronicle as far as it has acknowledged, whoever wrote the entries: it
cuts its log only behind that point.
-/

namespace ReplicatedLog

variable {N E : Type*} [DecidableEq N] {Q : QuorumSystem N} {termOf : E → ℕ}
  {s s' : State N E} {i : N}

/-- The log agrees with the chronicle of the node's term as far as the node has
acknowledged in that term. -/
def Agrees (s : State N E) (x : N) : Prop :=
  (s.log x).take (s.ack x (s.term x)) = (s.chronicle (s.term x)).take (s.ack x (s.term x))

omit [DecidableEq N] in
theorem Agrees.of_eq {x : N} (h : Agrees s x) (hterm : s'.term x = s.term x)
    (hlog : s'.log x = s.log x) (hack : s'.ack x = s.ack x)
    (hchronicle : s'.chronicle (s.term x) = s.chronicle (s.term x)) : Agrees s' x := by
  unfold Agrees
  rw [hterm, hlog, hack, hchronicle]
  exact h

omit [DecidableEq N] in
theorem Agrees.of_ack_eq_zero {x : N} (hzero : s.ack x (s.term x) = 0) : Agrees s x := by
  simp [Agrees, hzero]

omit [DecidableEq N] in
/-- Nothing is acknowledged in a term ahead of the node's own. -/
theorem AckInv.ack_eq_zero (h : AckInv termOf s) {x : N} {t : ℕ} (ht : s.term x < t) :
    s.ack x t = 0 := by
  by_contra hne
  have hle := h.term_le (Nat.pos_of_ne_zero hne)
  omega

omit [DecidableEq N] in
theorem AckInv.ack_eq_zero_of_leader (h : AckInv termOf s) {x : N} {t : ℕ}
    (hnone : s.leader t = none) : s.ack x t = 0 := by
  by_contra hne
  obtain ⟨c, hc⟩ := h.elected (Nat.pos_of_ne_zero hne)
  rw [hnone] at hc
  exact Option.some_ne_none c hc.symm

omit [DecidableEq N] in
theorem AckInv.ack_le_log (h : AckInv termOf s) {x : N} (hx : Agrees s x) :
    s.ack x (s.term x) ≤ (s.log x).length :=
  length_of_take_eq hx (h.length_le x (s.term x))

theorem Invariant.agrees_step (h : Invariant Q termOf s) (hagrees : ∀ x, Agrees s x)
    (hs : Step Q termOf i s s') (x : N) : Agrees s' x := by
  have hx := hagrees x
  have hi := hagrees i
  have hlen := h.ack.ack_le_log hi
  cases hs with
  | adopt t hterm =>
      by_cases hxi : x = i
      · subst hxi
        rcases Nat.eq_or_lt_of_le hterm with rfl | hlt
        · exact hx.of_eq (by simp [State.adopt]) rfl rfl rfl
        · exact .of_ack_eq_zero (by simpa [State.adopt] using h.ack.ack_eq_zero hlt)
      · exact hx.of_eq (by simp [State.adopt, hxi]) rfl rfl rfl
  | stand t hterm =>
      by_cases hxi : x = i
      · subst hxi
        exact .of_ack_eq_zero (by simpa [State.stand] using h.ack.ack_eq_zero hterm)
      · exact hx.of_eq (by simp [State.stand, hxi]) rfl rfl rfl
  | castVote c l hbid hfree hup => exact hx.of_eq rfl rfl rfl rfl
  | elect V hV hvotes hbid hnew =>
      by_cases ht : s.term x = s.term i
      · -- no node has acknowledged anything in a term that had no leader
        have hnone := h.election.leader_eq_none hV hvotes hnew
        exact .of_ack_eq_zero (h.ack.ack_eq_zero_of_leader (ht ▸ hnone))
      · exact hx.of_eq rfl rfl rfl (by simp [State.elect, ht])
  | extend e hleader hlog hterm =>
      by_cases hxi : x = i
      · subst hxi
        simp [Agrees, State.extend]
      · by_cases ht : s.term x = s.term i
        · have hack := h.ack.length_le x (s.term x)
          have hchr : (s.extend i e).chronicle (s.term x) = s.chronicle (s.term x) ++ [e] := by
            simp [State.extend, ht, hlog]
          have hkeep : (s.extend i e).log x = s.log x := by simp [State.extend, hxi]
          unfold Agrees
          change ((s.extend i e).log x).take (s.ack x (s.term x)) =
            ((s.extend i e).chronicle (s.term x)).take (s.ack x (s.term x))
          rw [hchr, hkeep, List.take_append_of_le_length hack]
          exact hx
        · exact hx.of_eq rfl (by simp [State.extend, hxi]) rfl (by simp [State.extend, ht])
  | truncate c d hleader hagree hdiffer =>
      by_cases hxi : x = i
      · subst hxi
        have hd : s.ack x (s.term x) ≤ d := by
          by_contra hcon
          exact hdiffer (getElem?_eq_of_take_eq hx (Nat.lt_of_not_le hcon))
        simpa [Agrees, State.setLog, List.take_take, min_eq_left hd] using hx
      · exact hx.of_eq rfl (by simp [State.setLog, hxi]) rfl rfl
  | copy c e hleader hagree hnext =>
      by_cases hxi : x = i
      · subst hxi
        simpa [Agrees, State.setLog, List.take_append_of_le_length hlen] using hx
      · exact hx.of_eq rfl (by simp [State.setLog, hxi]) rfl rfl
  | acknowledge c m hleader hm hagree =>
      by_cases hxi : x = i
      · subst hxi
        rcases Nat.le_total (s.ack x (s.term x)) m with hle | hle
        · simpa [Agrees, State.acknowledge, max_eq_right hle] using hagree
        · simpa [Agrees, State.acknowledge, max_eq_left hle] using hx
      · exact hx.of_eq rfl rfl (by simp [State.acknowledge, hxi]) rfl

theorem Reachable.agrees (h : Reachable Q termOf s) (x : N) : Agrees s x := by
  suffices hboth : Invariant Q termOf s ∧ ∀ x, Agrees s x from hboth.2 x
  induction h with
  | initial => exact ⟨Invariant.of_reachable .initial, fun x ↦ rfl⟩
  | step hreach hs ih =>
      exact ⟨Invariant.of_reachable (.step hreach hs), ih.1.agrees_step ih.2 hs⟩

end ReplicatedLog
