import Dkvs.ReplicatedLog.Frame

/-!
# Who holds what was chosen

The members of the quorum that acknowledged a chosen prefix hold it still: a node that
lost an acknowledged entry did so for a later leader without that entry, and there is no
such leader for a chosen one.
-/

namespace ReplicatedLog

variable {N E : Type*} [DecidableEq N] {Q : QuorumSystem N} {termOf : E → ℕ}
  {s s' : State N E} {t m : ℕ}

/-- The nodes of a quorum have reached term `t` and hold the first `m` entries of its leader. -/
def Held (Q : QuorumSystem N) (s : State N E) (t m : ℕ) (V : Finset N) : Prop :=
  Q.IsQuorum V ∧ ∀ x ∈ V, t ≤ s.term x ∧ (s.chronicle t).take m <+: s.log x

omit [DecidableEq N] in
theorem Invariant.exists_held (h : Invariant Q termOf s) (hch : Chosen Q termOf s t m) :
    ∃ V, Held Q s t m V := by
  obtain ⟨hm, ⟨e, he, hterm⟩, V, hV, hacks⟩ := hch
  refine ⟨V, hV, fun x hx ↦ ?_⟩
  have hle := hacks x hx
  have hack : Acked termOf s x t (m - 1) := ⟨by omega, e, he, hterm⟩
  refine ⟨h.ack.term_le (by omega), ?_⟩
  have hkept := h.ack.kept hack
  rw [Nat.sub_add_cancel hm] at hkept
  rcases hkept with hsame | ⟨t', ht, -, c, hc, hlack⟩
  · exact take_isPrefix_of_take_eq hsame.symm
  · rw [Nat.sub_add_cancel hm] at hlack
    exact (hlack (h.chosen_isPrefix_stem ⟨hm, ⟨e, he, hterm⟩, V, hV, hacks⟩ hc ht)).elim

/-- The holders of a chosen prefix keep it, whichever node acts. -/
theorem Reachable.held_steps (h : Reachable Q termOf s) {i : N} (hs : Steps Q termOf i s s')
    (hch : Chosen Q termOf s t m) {V : Finset N} (hheld : Held Q s t m V) : Held Q s' t m V := by
  obtain ⟨-, hext, -⟩ := h.steps_spec hs
  have hinv := Invariant.of_reachable h
  obtain ⟨c, hc⟩ := hinv.chosen_elected hch
  refine ⟨hheld.1, fun x hx ↦ ?_⟩
  obtain ⟨ht, hl⟩ := hheld.2 x hx
  refine ⟨ht.trans (hext.term_le x), ?_⟩
  rw [take_eq_of_isPrefix (hext.chronicle hc) (hinv.chosen_length hch)]
  exact h.steps_retain hs hch ht List.prefix_rfl hl

end ReplicatedLog
