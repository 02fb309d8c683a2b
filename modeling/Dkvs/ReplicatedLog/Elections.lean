import Dkvs.ReplicatedLog.Protocol

/-!
# Votes, candidacies and leaders

A vote is never changed once it is cast, and a leader is backed by a quorum of
votes. It follows that a term has at most one leader and that every recorded
fact of the history is kept by all later transitions.
-/

namespace ReplicatedLog

variable {N E : Type*} [DecidableEq N] {Q : QuorumSystem N} {termOf : E → ℕ}

namespace State

variable {s : State N E} {i x c : N} {t u : ℕ}

theorem vote_of_stand (hv : (s.stand i t).vote x u = some c) :
    (x = i ∧ u = t ∧ c = i) ∨ s.vote x u = some c := by
  by_cases hx : x = i
  · subst hx
    by_cases hu : u = t
    · exact Or.inl ⟨rfl, hu, by simpa [stand, hu, eq_comm] using hv⟩
    · exact Or.inr (by simpa [stand, hu] using hv)
  · exact Or.inr (by simpa [stand, hx] using hv)

theorem bid_of_stand {l : List E} (hb : (s.stand i t).bid c u = some l) :
    (c = i ∧ u = t ∧ l = s.log i) ∨ s.bid c u = some l := by
  by_cases hc : c = i
  · subst hc
    by_cases hu : u = t
    · exact Or.inl ⟨rfl, hu, by simpa [stand, hu, eq_comm] using hb⟩
    · exact Or.inr (by simpa [stand, hu] using hb)
  · exact Or.inr (by simpa [stand, hc] using hb)

theorem vote_of_castVote {d : N} (hv : (s.castVote i c).vote x u = some d) :
    (x = i ∧ u = s.term i ∧ d = c) ∨ s.vote x u = some d := by
  by_cases hx : x = i
  · subst hx
    by_cases hu : u = s.term x
    · exact Or.inl ⟨rfl, hu, by simpa [castVote, hu, eq_comm] using hv⟩
    · exact Or.inr (by simpa [castVote, hu] using hv)
  · exact Or.inr (by simpa [castVote, hx] using hv)

omit [DecidableEq N] in
theorem leader_of_elect {V : Finset N} (hl : (s.elect i V).leader t = some c) :
    (t = s.term i ∧ c = i) ∨ (t ≠ s.term i ∧ s.leader t = some c) := by
  by_cases ht : t = s.term i
  · subst ht
    exact Or.inl ⟨rfl, by simpa [elect, eq_comm] using hl⟩
  · exact Or.inr ⟨ht, by simpa [elect, ht] using hl⟩

end State

structure ElectionInv (Q : QuorumSystem N) (s : State N E) : Prop where
  vote_le : ∀ {x t c}, s.vote x t = some c → t ≤ s.term x
  bid_vote : ∀ {c t l}, s.bid c t = some l → s.vote c t = some c
  vote_bid : ∀ {x t c}, s.vote x t = some c → ∃ l, s.bid c t = some l
  quorum : ∀ {t c}, s.leader t = some c → Q.IsQuorum (s.voters t)
  votes : ∀ {t c}, s.leader t = some c → ∀ x ∈ s.voters t, s.vote x t = some c
  leader_bid : ∀ {t c}, s.leader t = some c → s.bid c t = some (s.stem t)

/-- What no transition takes back: terms and acknowledgements grow, votes, bids
and leaders stay, and a chronicle is only extended. -/
structure Extends (s s' : State N E) : Prop where
  term_le : ∀ x, s.term x ≤ s'.term x
  vote : ∀ {x t c}, s.vote x t = some c → s'.vote x t = some c
  bid : ∀ {c t l}, s.bid c t = some l → s'.bid c t = some l
  leader : ∀ {t c}, s.leader t = some c → s'.leader t = some c
  stem : ∀ {t c}, s.leader t = some c → s'.stem t = s.stem t
  voters : ∀ {t c}, s.leader t = some c → s'.voters t = s.voters t
  chronicle : ∀ {t c}, s.leader t = some c → s.chronicle t <+: s'.chronicle t
  ack_le : ∀ x t, s.ack x t ≤ s'.ack x t

namespace Extends

variable {s s' s'' : State N E}

omit [DecidableEq N] in
theorem refl (s : State N E) : Extends s s :=
  ⟨fun _ ↦ le_rfl, id, id, id, fun _ ↦ rfl, fun _ ↦ rfl, fun _ ↦ List.prefix_rfl,
    fun _ _ ↦ le_rfl⟩

omit [DecidableEq N] in
theorem trans (h : Extends s s') (h' : Extends s' s'') : Extends s s'' where
  term_le x := (h.term_le x).trans (h'.term_le x)
  vote hv := h'.vote (h.vote hv)
  bid hb := h'.bid (h.bid hb)
  leader hl := h'.leader (h.leader hl)
  stem hl := (h'.stem (h.leader hl)).trans (h.stem hl)
  voters hl := (h'.voters (h.leader hl)).trans (h.voters hl)
  chronicle hl := (h.chronicle hl).trans (h'.chronicle (h.leader hl))
  ack_le x t := (h.ack_le x t).trans (h'.ack_le x t)

end Extends

namespace ElectionInv

variable {s s' : State N E} {i : N}

omit [DecidableEq N] in
theorem unique_leader (h : ElectionInv Q s) {t : ℕ} {c : N} {V : Finset N}
    (hV : Q.IsQuorum V) (hvotes : ∀ x ∈ V, s.vote x t = some c) {d : N}
    (hd : s.leader t = some d) : d = c := by
  obtain ⟨x, hx, hxV⟩ := Q.meet (h.quorum hd) hV
  have hvote := h.votes hd x hx
  rw [hvotes x hxV] at hvote
  exact (Option.some.inj hvote).symm

omit [DecidableEq N] in
theorem leader_eq_none (h : ElectionInv Q s) {V : Finset N} (hV : Q.IsQuorum V)
    (hvotes : ∀ x ∈ V, s.vote x (s.term i) = some i)
    (hnew : s.leader (s.term i) ≠ some i) : s.leader (s.term i) = none := by
  cases hl : s.leader (s.term i) with
  | none => rfl
  | some d =>
      have hd := h.unique_leader hV hvotes hl
      exact (hnew (hd ▸ hl)).elim

omit [DecidableEq N] in
theorem vote_eq_none (h : ElectionInv Q s) {x : N} {t : ℕ} (ht : s.term x < t) :
    s.vote x t = none := by
  cases hv : s.vote x t with
  | none => rfl
  | some c => exact (Nat.not_le_of_lt ht (h.vote_le hv)).elim

theorem extends_of_step (h : ElectionInv Q s) (hs : Step Q termOf i s s') : Extends s s' := by
  cases hs with
  | adopt t hterm =>
      refine { Extends.refl s with term_le := fun x ↦ ?_ }
      by_cases hx : x = i <;> simp [State.adopt, hx, hterm]
  | stand t hterm =>
      refine { Extends.refl s with
        term_le := fun x ↦ ?_, vote := fun {x u c} hv ↦ ?_, bid := fun {c u l} hb ↦ ?_ }
      · by_cases hx : x = i <;> simp [State.stand, hx, hterm.le]
      · by_cases hx : x = i
        · subst hx
          have hu : u ≠ t := fun hut ↦ by
            simp [hut, h.vote_eq_none hterm] at hv
          simpa [State.stand, hu] using hv
        · simpa [State.stand, hx] using hv
      · by_cases hc : c = i
        · subst hc
          have hu : u ≠ t := fun hut ↦ by
            simpa [hut, h.vote_eq_none hterm] using h.bid_vote hb
          simpa [State.stand, hu] using hb
        · simpa [State.stand, hc] using hb
  | castVote c l hbid hfree hlog =>
      refine { Extends.refl s with vote := fun {x u d} hv ↦ ?_ }
      by_cases hx : x = i
      · subst hx
        by_cases hu : u = s.term x
        · subst hu
          have hdc : d = c := by simpa [hv] using hfree
          simp [State.castVote, hdc]
        · simpa [State.castVote, hu] using hv
      · simpa [State.castVote, hx] using hv
  | elect V hV hvotes hbid hnew =>
      have hnone := h.leader_eq_none hV hvotes hnew
      have hne : ∀ {t c}, s.leader t = some c → t ≠ s.term i := by
        rintro t c hl rfl
        simp [hnone] at hl
      refine { Extends.refl s with
        leader := fun hl ↦ ?_, stem := fun hl ↦ ?_, voters := fun hl ↦ ?_,
        chronicle := fun hl ↦ ?_ }
      · simpa [State.elect, hne hl] using hl
      · simp [State.elect, hne hl]
      · simp [State.elect, hne hl]
      · simp [State.elect, hne hl]
  | extend e hleader hlog hterm =>
      refine { Extends.refl s with chronicle := fun {t c} hl ↦ ?_ }
      by_cases ht : t = s.term i
      · subst ht
        simp [State.extend, ← hlog]
      · simp [State.extend, ht]
  | truncate c d hleader hagree hdiffer => exact { Extends.refl s with }
  | copy c e hleader hagree hnext => exact { Extends.refl s with }
  | acknowledge c m hleader hm hagree =>
      refine { Extends.refl s with ack_le := fun x t ↦ ?_ }
      by_cases hx : x = i
      · subst hx
        by_cases ht : t = s.term x
        · subst ht
          simp [State.acknowledge]
        · simp [State.acknowledge, ht]
      · simp [State.acknowledge, hx]

omit [DecidableEq N] in
theorem initial : ElectionInv Q (State.initial N E) := by
  constructor <;> simp [State.initial]

theorem step (h : ElectionInv Q s) (hs : Step Q termOf i s s') : ElectionInv Q s' := by
  have hext := h.extends_of_step hs
  cases hs with
  | adopt t hterm =>
      exact { h with vote_le := fun hv ↦ (h.vote_le hv).trans (hext.term_le _) }
  | stand t hterm =>
      refine { h with
        vote_le := ?_, bid_vote := ?_, vote_bid := ?_, votes := ?_, leader_bid := ?_ }
      · intro x u c hv
        rcases State.vote_of_stand hv with ⟨rfl, rfl, -⟩ | hold
        · simp [State.stand]
        · exact (h.vote_le hold).trans (hext.term_le x)
      · intro c u l hb
        rcases State.bid_of_stand hb with ⟨rfl, rfl, -⟩ | hold
        · simp [State.stand]
        · exact hext.vote (h.bid_vote hold)
      · intro x u c hv
        rcases State.vote_of_stand hv with ⟨-, rfl, rfl⟩ | hold
        · exact ⟨s.log c, by simp [State.stand]⟩
        · obtain ⟨l, hl⟩ := h.vote_bid hold
          exact ⟨l, hext.bid hl⟩
      · exact fun hl x hx ↦ hext.vote (h.votes hl x hx)
      · exact fun hl ↦ hext.bid (h.leader_bid hl)
  | castVote c l hbid hfree hlog =>
      refine { h with vote_le := ?_, bid_vote := ?_, vote_bid := ?_, votes := ?_ }
      · intro x u d hv
        rcases State.vote_of_castVote hv with ⟨rfl, rfl, -⟩ | hold
        · rfl
        · exact h.vote_le hold
      · exact fun hb ↦ hext.vote (h.bid_vote hb)
      · intro x u d hv
        rcases State.vote_of_castVote hv with ⟨-, rfl, rfl⟩ | hold
        · exact ⟨l, hbid⟩
        · exact h.vote_bid hold
      · exact fun hl x hx ↦ hext.vote (h.votes hl x hx)
  | elect V hV hvotes hbid hnew =>
      refine { h with quorum := ?_, votes := ?_, leader_bid := ?_ }
      · intro t c hl
        rcases State.leader_of_elect hl with ⟨rfl, rfl⟩ | ⟨ht, hold⟩
        · simpa [State.elect] using hV
        · simpa [State.elect, ht] using h.quorum hold
      · intro t c hl x hx
        rcases State.leader_of_elect hl with ⟨rfl, rfl⟩ | ⟨ht, hold⟩
        · exact hvotes x (by simpa [State.elect] using hx)
        · exact h.votes hold x (by simpa [State.elect, ht] using hx)
      · intro t c hl
        rcases State.leader_of_elect hl with ⟨rfl, rfl⟩ | ⟨ht, hold⟩
        · simpa [State.elect] using hbid
        · simpa [State.elect, ht] using h.leader_bid hold
  | extend e hleader hlog hterm => exact { h with }
  | truncate c d hleader hagree hdiffer => exact { h with }
  | copy c e hleader hagree hnext => exact { h with }
  | acknowledge c m hleader hm hagree => exact { h with }

theorem of_reachable (h : Reachable Q termOf s) : ElectionInv Q s :=
  h.invariant initial step

end ElectionInv

end ReplicatedLog
