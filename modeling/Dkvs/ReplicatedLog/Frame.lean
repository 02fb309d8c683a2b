import Dkvs.ReplicatedLog.Completeness

/-!
# What the transitions of one node leave alone

The transitions of a node `i` touch no other node's term, log, votes, bids or
acknowledgements, and they neither install another leader nor extend another
leader's chronicle.
-/

namespace ReplicatedLog

variable {N E : Type*} [DecidableEq N] {Q : QuorumSystem N} {termOf : E → ℕ}
  {s s' s'' : State N E} {i : N}

structure Frame (i : N) (s s' : State N E) : Prop where
  term : ∀ {x}, x ≠ i → s'.term x = s.term x
  log : ∀ {x}, x ≠ i → s'.log x = s.log x
  vote : ∀ {x}, x ≠ i → s'.vote x = s.vote x
  bid : ∀ {x}, x ≠ i → s'.bid x = s.bid x
  ack : ∀ {x}, x ≠ i → s'.ack x = s.ack x
  leader : ∀ {t c}, c ≠ i → s'.leader t = some c → s.leader t = some c
  chronicle : ∀ {t c}, c ≠ i → s.leader t = some c → s'.chronicle t = s.chronicle t

namespace Frame

omit [DecidableEq N] in
theorem refl (i : N) (s : State N E) : Frame i s s :=
  ⟨fun _ ↦ rfl, fun _ ↦ rfl, fun _ ↦ rfl, fun _ ↦ rfl, fun _ ↦ rfl, fun _ h ↦ h, fun _ _ ↦ rfl⟩

omit [DecidableEq N] in
theorem trans (h : Frame i s s') (h' : Frame i s' s'') (hext : Extends s s') :
    Frame i s s'' where
  term hx := (h'.term hx).trans (h.term hx)
  log hx := (h'.log hx).trans (h.log hx)
  vote hx := (h'.vote hx).trans (h.vote hx)
  bid hx := (h'.bid hx).trans (h.bid hx)
  ack hx := (h'.ack hx).trans (h.ack hx)
  leader hc hl := h.leader hc (h'.leader hc hl)
  chronicle hc hl := (h'.chronicle hc (hext.leader hl)).trans (h.chronicle hc hl)

theorem of_step (hel : ElectionInv Q s) (hs : Step Q termOf i s s') : Frame i s s' := by
  cases hs with
  | adopt t hterm =>
      exact { refl i s with term := fun hx ↦ by simp [State.adopt, hx] }
  | stand t hterm =>
      exact { refl i s with
        term := fun hx ↦ by simp [State.stand, hx]
        vote := fun hx ↦ by simp [State.stand, hx]
        bid := fun hx ↦ by simp [State.stand, hx] }
  | castVote c l hbid hfree hup =>
      exact { refl i s with vote := fun hx ↦ by simp [State.castVote, hx] }
  | elect V hV hvotes hbid hnew =>
      have hnone := hel.leader_eq_none hV hvotes hnew
      refine { refl i s with leader := fun hc hl ↦ ?_, chronicle := fun {t c} hc hl ↦ ?_ }
      · rcases State.leader_of_elect hl with ⟨-, rfl⟩ | ⟨-, hold⟩
        · exact (hc rfl).elim
        · exact hold
      · have ht : t ≠ s.term i := by
          rintro rfl
          simp [hnone] at hl
        simp [State.elect, ht]
  | extend e hleader hlog hterm =>
      refine { refl i s with
        log := fun hx ↦ by simp [State.extend, hx], chronicle := fun {t c} hc hl ↦ ?_ }
      have ht : t ≠ s.term i := by
        rintro rfl
        exact hc (Option.some.inj (hl.symm.trans hleader))
      simp [State.extend, ht]
  | truncate c d hleader hagree hdiffer =>
      exact { refl i s with log := fun hx ↦ by simp [State.setLog, hx] }
  | copy c e hleader hagree hnext =>
      exact { refl i s with log := fun hx ↦ by simp [State.setLog, hx] }
  | acknowledge c m hleader hm hagree =>
      exact { refl i s with ack := fun hx ↦ by simp [State.acknowledge, hx] }

end Frame

/-- Transitions of one node from a reachable state extend the history and leave
the other nodes alone. -/
theorem Reachable.steps_spec (h : Reachable Q termOf s) (hs : Steps Q termOf i s s') :
    Reachable Q termOf s' ∧ Extends s s' ∧ Frame i s s' := by
  induction hs with
  | refl => exact ⟨h, Extends.refl s, Frame.refl i s⟩
  | tail _ hstep ih =>
      obtain ⟨hreach, hext, hframe⟩ := ih
      have hel := ElectionInv.of_reachable hreach
      exact ⟨.step hreach hstep, hext.trans (hel.extends_of_step hstep),
        hframe.trans (Frame.of_step hel hstep) hext⟩

/-- A chosen prefix that a node holds in a term from that of the choice on stays
in its log. -/
theorem Invariant.retain_step (h : Invariant Q termOf s) (hs : Step Q termOf i s s') {x : N}
    {t m : ℕ} {l : List E} (hch : Chosen Q termOf s t m) (ht : t ≤ s.term x)
    (hl : l <+: (s.chronicle t).take m) (hx : l <+: s.log x) : l <+: s'.log x := by
  by_cases hxi : x = i
  · subst hxi
    cases hs with
    | adopt t' hterm => exact hx
    | stand t' hterm => exact hx
    | castVote c l' hbid hfree hup => exact hx
    | elect V hV hvotes hbid hnew => exact hx
    | extend e hleader hlog hterm => simpa [State.extend] using hx.trans (List.prefix_append _ _)
    | truncate c d hleader hagree hdiffer =>
        have hchr := hl.trans (h.chosen_isPrefix_chronicle hch hleader ht)
        simpa [State.setLog] using isPrefix_take_of_differ hx hchr hdiffer
    | copy c e hleader hagree hnext =>
        simpa [State.setLog] using hx.trans (List.prefix_append _ _)
    | acknowledge c k hleader hk hagree => exact hx
  · rw [(Frame.of_step h.election hs).log hxi]
    exact hx

theorem Reachable.steps_retain (h : Reachable Q termOf s) (hs : Steps Q termOf i s s') {x : N}
    {t m : ℕ} {l : List E} (hch : Chosen Q termOf s t m) (ht : t ≤ s.term x)
    (hl : l <+: (s.chronicle t).take m) (hx : l <+: s.log x) : l <+: s'.log x := by
  induction hs with
  | refl => exact hx
  | @tail s₁ s₂ hsteps hstep ih =>
      obtain ⟨hr, hext, -⟩ := h.steps_spec hsteps
      have hinv := Invariant.of_reachable h
      obtain ⟨c, hc⟩ := hinv.chosen_elected hch
      refine (Invariant.of_reachable hr).retain_step hstep (hinv.chosen_mono hext hch)
        (ht.trans (hext.term_le x)) ?_ ih
      rw [take_eq_of_isPrefix (hext.chronicle hc) (hinv.chosen_length hch)]
      exact hl

end ReplicatedLog
