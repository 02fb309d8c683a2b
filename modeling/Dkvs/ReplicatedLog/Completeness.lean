import Dkvs.ReplicatedLog.Matching

/-!
# Acknowledgements and leader completeness

An acknowledgement made in term `t` is either still visible in the node's log
or was overwritten on behalf of a later leader whose stem lacks it. The same
alternative is frozen into every vote. If a quorum acknowledged an index, the
quorum that elects a later leader meets it, and strong induction on the later
term excludes the second alternative.
-/

namespace ReplicatedLog

variable {N E : Type*} [DecidableEq N] {Q : QuorumSystem N} {termOf : E → ℕ}

/-- Some leader of term `t'` was elected without the first `k + 1` entries of
the chronicle of term `t`. -/
def Lacks (s : State N E) (t k t' : ℕ) : Prop :=
  ∃ c, s.leader t' = some c ∧ ¬ (s.chronicle t).take (k + 1) <+: s.stem t'

/-- Node `x` acknowledged index `k + 1` in term `t`, and the entry there is one
of the leader's own. -/
def Acked (termOf : E → ℕ) (s : State N E) (x : N) (t k : ℕ) : Prop :=
  k < s.ack x t ∧ ∃ e, (s.chronicle t)[k]? = some e ∧ termOf e = t

omit [DecidableEq N] in
/-- Up-to-date candidates carry every acknowledged prefix of the voter, unless
an intermediate leader was elected without it. -/
theorem LogInv.upToDate_carries {s : State N E} (hlog : LogInv termOf s)
    (hel : ElectionInv Q s) {x c : N} {t t' k : ℕ} {l : List E}
    (ha : Acked termOf s x t k) (hbid : s.bid c t' = some l)
    (hup : UpToDate termOf l (s.log x))
    (hsame : (s.log x).take (k + 1) = (s.chronicle t).take (k + 1)) :
    (s.chronicle t).take (k + 1) <+: l ∨ ∃ u, t < u ∧ u < t' ∧ Lacks s t k u := by
  obtain ⟨hk, e, he, hterm⟩ := ha
  obtain ⟨hlen, -⟩ := List.getElem?_eq_some_iff.mp he
  have hxk : (s.log x)[k]? = some e := by
    rw [getElem?_eq_of_take_eq hsame (Nat.lt_succ_self k)]
    exact he
  obtain ⟨hxlen, -⟩ := List.getElem?_eq_some_iff.mp hxk
  have hxne : s.log x ≠ [] := List.ne_nil_of_length_pos (Nat.zero_lt_of_lt hxlen)
  obtain ⟨a, -, haget, halast, -, -⟩ := (hlog.log_sound x).exists_last hxne
  have hta : t ≤ termOf a := by
    rw [← hterm]
    exact hlog.term_mono hel (hlog.log_sound x) (by omega) hxk haget
  have hlne : l ≠ [] := by
    rintro rfl
    rcases hup with hlt | ⟨-, hle⟩
    · simp [lastTerm] at hlt
    · exact hxne (List.length_eq_zero_iff.mp (Nat.le_zero.mp hle))
  obtain ⟨b, d, hbget, hblast, hd, hfull⟩ := (hlog.bid_sound hbid).exists_last hlne
  have hlpos : 0 < l.length := List.length_pos_of_ne_nil hlne
  have hbt' : termOf b < t' := hlog.bid_lt hbid (List.mem_of_getElem? hbget)
  rw [UpToDate, halast, hblast] at hup
  rcases Nat.eq_or_lt_of_le (show t ≤ termOf b by omega) with htb | htb
  · left
    have hlenle : (s.log x).length ≤ l.length := by omega
    rw [hfull, ← htb]
    exact (List.take_prefix_take_left (by omega))
  · by_cases hstem : (s.chronicle t).take (k + 1) <+: s.stem (termOf b)
    · left
      have hchr : (s.chronicle (termOf b))[l.length - 1]? = some b := by
        rw [← List.getElem?_take_of_lt (show l.length - 1 < l.length by omega), ← hfull]
        exact hbget
      have hown := hlog.stem_length_le hel hd hchr rfl
      have hle := hstem.length_le
      rw [hfull, List.prefix_take_iff]
      exact ⟨hstem.trans (hlog.stem_isPrefix hd), by omega⟩
    · exact Or.inr ⟨termOf b, htb, hbt', d, hd, hstem⟩

structure AckInv (termOf : E → ℕ) (s : State N E) : Prop where
  elected : ∀ {x t}, 0 < s.ack x t → ∃ c, s.leader t = some c
  term_le : ∀ {x t}, 0 < s.ack x t → t ≤ s.term x
  length_le : ∀ x t, s.ack x t ≤ (s.chronicle t).length
  kept : ∀ {x t k}, Acked termOf s x t k →
    (s.log x).take (k + 1) = (s.chronicle t).take (k + 1) ∨
      ∃ t', t < t' ∧ t' ≤ s.term x ∧ Lacks s t k t'
  promised : ∀ {x t t' k c l}, Acked termOf s x t k → t < t' → s.vote x t' = some c →
    s.bid c t' = some l →
    (s.chronicle t).take (k + 1) <+: l ∨ (∃ u, t < u ∧ u < t' ∧ Lacks s t k u) ∨
      ∃ d, s.leader t' = some d ∧ x ∉ s.voters t'

namespace AckInv

variable {s s' : State N E} {i : N}

omit [DecidableEq N] in
theorem chronicle_stable (h : AckInv termOf s) (hext : Extends s s') {x : N} {t k : ℕ}
    (hk : k < s.ack x t) :
    (s'.chronicle t).take (k + 1) = (s.chronicle t).take (k + 1) := by
  obtain ⟨c, hc⟩ := h.elected (Nat.zero_lt_of_lt hk)
  exact take_eq_of_isPrefix (hext.chronicle hc) (Nat.succ_le_of_lt (hk.trans_le (h.length_le x t)))

omit [DecidableEq N] in
theorem acked_of_extends (h : AckInv termOf s) (hext : Extends s s') {x : N} {t k : ℕ}
    (hack : s'.ack x t = s.ack x t) (ha : Acked termOf s' x t k) : Acked termOf s x t k := by
  obtain ⟨hk, e, he, hterm⟩ := ha
  rw [hack] at hk
  refine ⟨hk, e, ?_, hterm⟩
  rwa [getElem?_eq_of_take_eq (h.chronicle_stable hext hk) (Nat.lt_succ_self k)] at he

omit [DecidableEq N] in
theorem lacks_mono (h : AckInv termOf s) (hext : Extends s s') {x : N} {t k u : ℕ}
    (hk : k < s.ack x t) (hl : Lacks s t k u) : Lacks s' t k u := by
  obtain ⟨c, hc, hnot⟩ := hl
  refine ⟨c, hext.leader hc, ?_⟩
  rwa [h.chronicle_stable hext hk, hext.stem hc]

omit [DecidableEq N] in
/-- The alternative of `kept` survives a transition that does not disturb the
acknowledged prefix of the node's log. -/
theorem kept_of_extends (h : AckInv termOf s) (hext : Extends s s') {x : N} {t k : ℕ}
    (ha : Acked termOf s x t k)
    (hlog : (s.log x).take (k + 1) = (s.chronicle t).take (k + 1) →
      (s'.log x).take (k + 1) = (s.chronicle t).take (k + 1) ∨
        ∃ t', t < t' ∧ t' ≤ s.term x ∧ Lacks s t k t') :
    (s'.log x).take (k + 1) = (s'.chronicle t).take (k + 1) ∨
      ∃ t', t < t' ∧ t' ≤ s'.term x ∧ Lacks s' t k t' := by
  have hafter : (s'.log x).take (k + 1) = (s.chronicle t).take (k + 1) ∨
      ∃ t', t < t' ∧ t' ≤ s.term x ∧ Lacks s t k t' := by
    rcases h.kept ha with hsame | hlack
    · exact hlog hsame
    · exact Or.inr hlack
  rcases hafter with hsame | ⟨t', htt, hle, hlack⟩
  · exact Or.inl (hsame.trans (h.chronicle_stable hext ha.1).symm)
  · exact Or.inr ⟨t', htt, hle.trans (hext.term_le x), h.lacks_mono hext ha.1 hlack⟩

omit [DecidableEq N] in
theorem promised_of_extends (h : AckInv termOf s) (hext : Extends s s') {x : N}
    {t t' k : ℕ} {l : List E} (ha : Acked termOf s x t k)
    (hp : (s.chronicle t).take (k + 1) <+: l ∨ (∃ u, t < u ∧ u < t' ∧ Lacks s t k u) ∨
      ∃ d, s.leader t' = some d ∧ x ∉ s.voters t') :
    (s'.chronicle t).take (k + 1) <+: l ∨ (∃ u, t < u ∧ u < t' ∧ Lacks s' t k u) ∨
      ∃ d, s'.leader t' = some d ∧ x ∉ s'.voters t' := by
  rcases hp with hl | ⟨u, htu, hut, hlack⟩ | ⟨d, hd, hx⟩
  · exact Or.inl (by rwa [h.chronicle_stable hext ha.1])
  · exact Or.inr (Or.inl ⟨u, htu, hut, h.lacks_mono hext ha.1 hlack⟩)
  · exact Or.inr (Or.inr ⟨d, hext.leader hd, by rwa [hext.voters hd]⟩)

omit [DecidableEq N] in
theorem initial : AckInv termOf (State.initial N E) := by
  constructor <;> simp [State.initial, Acked]

omit [DecidableEq N] in
theorem of_extends (h : AckInv termOf s) (hext : Extends s s') (hack : s'.ack = s.ack)
    (hlog : ∀ {x t k}, Acked termOf s x t k →
      (s.log x).take (k + 1) = (s.chronicle t).take (k + 1) →
      (s'.log x).take (k + 1) = (s.chronicle t).take (k + 1) ∨
        ∃ t', t < t' ∧ t' ≤ s.term x ∧ Lacks s t k t')
    (hprom : ∀ {x t t' k c l}, Acked termOf s x t k → t < t' → s'.vote x t' = some c →
      s'.bid c t' = some l →
      (s.chronicle t).take (k + 1) <+: l ∨ (∃ u, t < u ∧ u < t' ∧ Lacks s t k u) ∨
        ∃ d, s.leader t' = some d ∧ x ∉ s.voters t') : AckInv termOf s' where
  elected hpos := by
    rw [hack] at hpos
    obtain ⟨c, hc⟩ := h.elected hpos
    exact ⟨c, hext.leader hc⟩
  term_le hpos := by
    rw [hack] at hpos
    exact (h.term_le hpos).trans (hext.term_le _)
  length_le x t := by
    rw [hack]
    rcases Nat.eq_zero_or_pos (s.ack x t) with hzero | hpos
    · omega
    · obtain ⟨c, hc⟩ := h.elected hpos
      exact (h.length_le x t).trans (hext.chronicle hc).length_le
  kept ha := by
    have ha' := h.acked_of_extends hext (by rw [hack]) ha
    exact h.kept_of_extends hext ha' (hlog ha')
  promised ha ht hv hb := by
    have ha' := h.acked_of_extends hext (by rw [hack]) ha
    exact h.promised_of_extends hext ha' (hprom ha' ht hv hb)

theorem stand (h : AckInv termOf s) (hel : ElectionInv Q s) {t : ℕ} (hterm : s.term i < t)
    (hext : Extends s (s.stand i t)) : AckInv termOf (s.stand i t) := by
  refine h.of_extends hext rfl (fun _ hsame ↦ Or.inl hsame) ?_
  intro x t₀ t' k c l ha ht hv hb
  rcases State.vote_of_stand hv with ⟨rfl, rfl, rfl⟩ | hold
  · have hl : l = s.log c := by
      rcases State.bid_of_stand hb with ⟨-, -, hl⟩ | hold
      · exact hl
      · have hle := hel.vote_le (hel.bid_vote hold)
        omega
    subst hl
    rcases h.kept ha with hsame | ⟨u, htu, hu, hlack⟩
    · exact Or.inl (take_isPrefix_of_take_eq hsame.symm)
    · exact Or.inr (Or.inl ⟨u, htu, by omega, hlack⟩)
  · rcases State.bid_of_stand hb with ⟨rfl, rfl, -⟩ | hbold
    · obtain ⟨l', hl'⟩ := hel.vote_bid hold
      have hle := hel.vote_le (hel.bid_vote hl')
      omega
    · exact h.promised ha ht hold hbold

theorem castVote (h : AckInv termOf s) (hlog : LogInv termOf s) (hel : ElectionInv Q s)
    {c : N} {l : List E} (hbid : s.bid c (s.term i) = some l)
    (hfree : s.vote i (s.term i) = none ∨ s.vote i (s.term i) = some c)
    (hup : UpToDate termOf l (s.log i)) (hext : Extends s (s.castVote i c)) :
    AckInv termOf (s.castVote i c) := by
  refine h.of_extends hext rfl (fun _ hsame ↦ Or.inl hsame) ?_
  intro x t t' k d l' ha ht hv hb
  rcases State.vote_of_castVote hv with ⟨rfl, rfl, rfl⟩ | hold
  · rcases hfree with hnone | hsome
    · have hl : l' = l := Option.some.inj (hb.symm.trans hbid)
      subst hl
      cases hlead : s.leader (s.term x) with
      | some e =>
          refine Or.inr (Or.inr ⟨e, rfl, fun hx ↦ ?_⟩)
          simp [hel.votes hlead x hx] at hnone
      | none =>
          rcases h.kept ha with hsame | ⟨u, htu, hu, hlack⟩
          · rcases hlog.upToDate_carries hel ha hbid hup hsame with hl | hlack
            · exact Or.inl hl
            · exact Or.inr (Or.inl hlack)
          · have hne : u ≠ s.term x := by
              rintro rfl
              obtain ⟨e, he, -⟩ := hlack
              simp [hlead] at he
            exact Or.inr (Or.inl ⟨u, htu, by omega, hlack⟩)
    · exact h.promised ha ht hsome hb
  · exact h.promised ha ht hold hb

theorem truncate (h : AckInv termOf s) (hlog : LogInv termOf s) {c : N} {d : ℕ}
    (hleader : s.leader (s.term i) = some c)
    (hagree : (s.log i).take d = (s.chronicle (s.term i)).take d)
    (hdiffer : (s.log i)[d]? ≠ (s.chronicle (s.term i))[d]?)
    (hext : Extends s (s.setLog i ((s.log i).take d))) :
    AckInv termOf (s.setLog i ((s.log i).take d)) := by
  refine h.of_extends hext rfl ?_ (fun ha ht hv hb ↦ h.promised ha ht hv hb)
  intro x t k ha hsame
  by_cases hx : x = i
  · subst hx
    by_cases hkd : k < d
    · left
      simpa [State.setLog, List.take_take, min_eq_left (Nat.succ_le_of_lt hkd)] using hsame
    · right
      have hdk : d < k + 1 := by omega
      have hchr := getElem?_eq_of_take_eq hsame hdk
      have hne : t ≠ s.term x := by
        rintro rfl
        exact hdiffer hchr
      have hle : t ≤ s.term x := h.term_le (Nat.zero_lt_of_lt ha.1)
      refine ⟨s.term x, by omega, le_rfl, c, hleader, fun hprefix ↦ hdiffer ?_⟩
      have hwhole := hprefix.trans (hlog.stem_isPrefix hleader)
      have hlen : k + 1 ≤ (s.chronicle t).length := ha.1.trans_le (h.length_le x t)
      have htake := take_eq_of_take_isPrefix hwhole hlen
      rw [hchr, getElem?_eq_of_take_eq htake hdk]
  · left
    simpa [State.setLog, hx] using hsame

theorem snoc_log (h : AckInv termOf s) {e : E} (hlog : s'.log = Function.update s.log i
    (s.log i ++ [e])) (hext : Extends s s') (hack : s'.ack = s.ack) (hvote : s'.vote = s.vote)
    (hbid : s'.bid = s.bid) : AckInv termOf s' := by
  refine h.of_extends hext hack ?_
    (fun ha ht hv hb ↦ h.promised ha ht (hvote ▸ hv) (hbid ▸ hb))
  intro x t k ha hsame
  left
  rw [← hsame, hlog]
  by_cases hx : x = i
  · subst hx
    have hlen : k + 1 ≤ (s.log x).length :=
      length_of_take_eq hsame (ha.1.trans_le (h.length_le x t))
    simp [List.take_append_of_le_length hlen]
  · simp [hx]

theorem acknowledge (h : AckInv termOf s) (hel : ElectionInv Q s) {c : N} {m : ℕ}
    (hleader : s.leader (s.term i) = some c)
    (hm : m ≤ (s.chronicle (s.term i)).length)
    (hagree : (s.log i).take m = (s.chronicle (s.term i)).take m) :
    AckInv termOf (s.acknowledge i m) := by
  have hcase : ∀ {x t k}, k < (s.acknowledge i m).ack x t →
      (x = i ∧ t = s.term i ∧ k < m) ∨ k < s.ack x t := by
    intro x t k hk
    by_cases hx : x = i
    · subst hx
      by_cases ht : t = s.term x
      · subst ht
        have hmax : k < s.ack x (s.term x) ∨ k < m := by
          simpa [State.acknowledge] using hk
        rcases hmax with hold | hnew
        · exact Or.inr hold
        · exact Or.inl ⟨rfl, rfl, hnew⟩
      · exact Or.inr (by simpa [State.acknowledge, ht] using hk)
    · exact Or.inr (by simpa [State.acknowledge, hx] using hk)
  constructor
  · intro x t hpos
    rcases hcase hpos with ⟨-, rfl, -⟩ | hold
    · exact ⟨c, hleader⟩
    · exact h.elected hold
  · intro x t hpos
    rcases hcase hpos with ⟨rfl, rfl, -⟩ | hold
    · exact le_rfl
    · exact h.term_le hold
  · intro x t
    by_contra hcon
    rcases hcase (Nat.lt_of_not_le hcon) with ⟨-, rfl, hlt⟩ | hold
    · exact Nat.not_le_of_lt hlt hm
    · exact Nat.not_le_of_lt hold (h.length_le x t)
  · rintro x t k ⟨hk, e, he, hterm⟩
    rcases hcase hk with ⟨rfl, rfl, hlt⟩ | hold
    · exact Or.inl (take_eq_of_le hagree hlt)
    · exact h.kept ⟨hold, e, he, hterm⟩
  · rintro x t t' k d l ⟨hk, e, he, hterm⟩ ht hv hb
    rcases hcase hk with ⟨rfl, rfl, -⟩ | hold
    · have hle := hel.vote_le hv
      omega
    · exact h.promised ⟨hold, e, he, hterm⟩ ht hv hb

theorem step (h : AckInv termOf s) (hlog : LogInv termOf s) (hel : ElectionInv Q s)
    (hs : Step Q termOf i s s') : AckInv termOf s' := by
  have hext := hel.extends_of_step hs
  cases hs with
  | adopt t hterm =>
      exact h.of_extends hext rfl (fun _ hsame ↦ Or.inl hsame)
        (fun ha ht hv hb ↦ h.promised ha ht hv hb)
  | stand t hterm => exact h.stand hel hterm hext
  | castVote c l hbid hfree hup => exact h.castVote hlog hel hbid hfree hup hext
  | elect V hV hvotes hbid hnew =>
      exact h.of_extends hext rfl (fun _ hsame ↦ Or.inl hsame)
        (fun ha ht hv hb ↦ h.promised ha ht hv hb)
  | extend e hleader hsame hterm => exact h.snoc_log rfl hext rfl rfl rfl
  | truncate c d hleader hagree hdiffer => exact h.truncate hlog hleader hagree hdiffer hext
  | copy c e hleader hagree hnext => exact h.snoc_log rfl hext rfl rfl rfl
  | acknowledge c m hleader hm hagree => exact h.acknowledge hel hleader hm hagree

end AckInv

/-- The three parts of the protocol's invariant. -/
structure Invariant (Q : QuorumSystem N) (termOf : E → ℕ) (s : State N E) : Prop where
  election : ElectionInv Q s
  log : LogInv termOf s
  ack : AckInv termOf s

theorem Invariant.of_reachable {s : State N E} (h : Reachable Q termOf s) :
    Invariant Q termOf s := by
  apply h.invariant
  · exact ⟨ElectionInv.initial, LogInv.initial, AckInv.initial⟩
  · intro s s' i hinv hs
    exact ⟨hinv.election.step hs, hinv.log.step hinv.election hs,
      hinv.ack.step hinv.log hinv.election hs⟩

/-- A quorum acknowledged index `m` in term `t`, and the entry at `m` is one of
the leader's own. -/
def Chosen (Q : QuorumSystem N) (termOf : E → ℕ) (s : State N E) (t m : ℕ) : Prop :=
  0 < m ∧ (∃ e, (s.chronicle t)[m - 1]? = some e ∧ termOf e = t) ∧
    ∃ V, Q.IsQuorum V ∧ ∀ x ∈ V, m ≤ s.ack x t

namespace Invariant

variable {s s' : State N E}

omit [DecidableEq N] in
/-- Leader completeness: a chosen prefix belongs to the stem of every later
leader. -/
theorem chosen_isPrefix_stem (h : Invariant Q termOf s) {t m t' : ℕ}
    (hch : Chosen Q termOf s t m) {c : N} (hc : s.leader t' = some c) (ht : t < t') :
    (s.chronicle t).take m <+: s.stem t' := by
  obtain ⟨hm, ⟨e, he, hterm⟩, V, hV, hacks⟩ := hch
  induction t' using Nat.strong_induction_on generalizing c with
  | _ t' ih =>
      obtain ⟨x, hx, hxV⟩ := Q.meet (h.election.quorum hc) hV
      have hack : Acked termOf s x t (m - 1) := by
        have hle := hacks x hxV
        exact ⟨by omega, e, he, hterm⟩
      have hp := h.ack.promised hack ht (h.election.votes hc x hx) (h.election.leader_bid hc)
      rw [Nat.sub_add_cancel hm] at hp
      rcases hp with hstem | ⟨u, htu, hut, d, hd, hlack⟩ | ⟨d, hd, hout⟩
      · exact hstem
      · rw [Nat.sub_add_cancel hm] at hlack
        exact (hlack (ih u hut hd htu)).elim
      · exact (hout hx).elim

omit [DecidableEq N] in
theorem chosen_elected (h : Invariant Q termOf s) {t m : ℕ} (hch : Chosen Q termOf s t m) :
    ∃ c, s.leader t = some c := by
  obtain ⟨hm, -, V, hV, hacks⟩ := hch
  obtain ⟨x, hx, -⟩ := Q.meet hV hV
  exact h.ack.elected (hm.trans_le (hacks x hx))

omit [DecidableEq N] in
theorem chosen_length (h : Invariant Q termOf s) {t m : ℕ} (hch : Chosen Q termOf s t m) :
    m ≤ (s.chronicle t).length := by
  obtain ⟨-, -, V, hV, hacks⟩ := hch
  obtain ⟨x, hx, -⟩ := Q.meet hV hV
  exact (hacks x hx).trans (h.ack.length_le x t)

omit [DecidableEq N] in
theorem chosen_mono (h : Invariant Q termOf s) (hext : Extends s s') {t m : ℕ}
    (hch : Chosen Q termOf s t m) : Chosen Q termOf s' t m := by
  obtain ⟨c, hc⟩ := h.chosen_elected hch
  obtain ⟨hm, ⟨e, he, hterm⟩, V, hV, hacks⟩ := hch
  exact ⟨hm, ⟨e, getElem?_of_isPrefix (hext.chronicle hc) he, hterm⟩, V, hV,
    fun x hx ↦ (hacks x hx).trans (hext.ack_le x t)⟩

omit [DecidableEq N] in
/-- A chosen prefix is part of the chronicle of every term from its own on. -/
theorem chosen_isPrefix_chronicle (h : Invariant Q termOf s) {t m t' : ℕ}
    (hch : Chosen Q termOf s t m) {c : N} (hc : s.leader t' = some c) (ht : t ≤ t') :
    (s.chronicle t).take m <+: s.chronicle t' := by
  rcases Nat.eq_or_lt_of_le ht with rfl | hlt
  · exact List.take_prefix _ _
  · exact (h.chosen_isPrefix_stem hch hc hlt).trans (h.log.stem_isPrefix hc)

omit [DecidableEq N] in
/-- Any two chosen prefixes are comparable. -/
theorem chosen_comparable (h : Invariant Q termOf s) {t m t' m' : ℕ}
    (hch : Chosen Q termOf s t m) (hch' : Chosen Q termOf s t' m') :
    (s.chronicle t).take m <+: (s.chronicle t').take m' ∨
      (s.chronicle t').take m' <+: (s.chronicle t).take m := by
  obtain ⟨c, hc⟩ := h.chosen_elected hch
  obtain ⟨c', hc'⟩ := h.chosen_elected hch'
  rcases Nat.le_total t t' with htt | htt
  · exact List.prefix_or_prefix_of_prefix (h.chosen_isPrefix_chronicle hch hc' htt)
      (List.take_prefix _ _)
  · exact List.prefix_or_prefix_of_prefix (List.take_prefix _ _)
      (h.chosen_isPrefix_chronicle hch' hc htt)

end Invariant

end ReplicatedLog
