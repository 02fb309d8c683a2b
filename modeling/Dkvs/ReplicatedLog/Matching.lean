import Dkvs.ReplicatedLog.Elections

/-!
# Provenance of log entries

Every entry of every log comes, with the whole prefix below it, from the
chronicle of the leader of its term. Two logs that hold entries of one term at
one index therefore agree up to that index, and terms never decrease along a
log.
-/

namespace ReplicatedLog

variable {N E : Type*} [DecidableEq N] {Q : QuorumSystem N} {termOf : E → ℕ}

/-- Each entry of `l` sits at the same place, under the same prefix, in the
chronicle of the leader of its term. -/
def Sound (termOf : E → ℕ) (s : State N E) (l : List E) : Prop :=
  ∀ ⦃i : ℕ⦄ ⦃e : E⦄, l[i]? = some e →
    (∃ c, s.leader (termOf e) = some c) ∧
      l.take (i + 1) = (s.chronicle (termOf e)).take (i + 1)

namespace Sound

variable {s s' : State N E} {l l' : List E}

omit [DecidableEq N] in
theorem mono (h : Sound termOf s l) (hext : Extends s s') : Sound termOf s' l := by
  intro i e he
  obtain ⟨⟨c, hc⟩, hagree⟩ := h he
  obtain ⟨hlt, -⟩ := List.getElem?_eq_some_iff.mp he
  have hlen : i + 1 ≤ (s.chronicle (termOf e)).length :=
    length_of_take_eq hagree.symm hlt
  refine ⟨⟨c, hext.leader hc⟩, ?_⟩
  rw [hagree, take_eq_of_isPrefix (hext.chronicle hc) hlen]

omit [DecidableEq N] in
theorem take (h : Sound termOf s l) (d : ℕ) : Sound termOf s (l.take d) := by
  intro i e he
  have hid : i < d := by
    by_contra hcon
    rw [List.getElem?_take_eq_none (by omega)] at he
    simp at he
  rw [List.getElem?_take_of_lt hid] at he
  obtain ⟨hleader, hagree⟩ := h he
  exact ⟨hleader, by rw [List.take_take, min_eq_left (by omega), hagree]⟩

omit [DecidableEq N] in
theorem snoc (h : Sound termOf s l) {e : E} {c : N} (hc : s.leader (termOf e) = some c)
    (hl : (l ++ [e]) = (s.chronicle (termOf e)).take (l.length + 1)) :
    Sound termOf s (l ++ [e]) := by
  intro i e' he
  rcases Nat.lt_trichotomy i l.length with hi | hi | hi
  · rw [List.getElem?_append_left hi] at he
    obtain ⟨hleader, hagree⟩ := h he
    exact ⟨hleader, by rw [List.take_append_of_le_length (by omega), hagree]⟩
  · subst hi
    have heq : e = e' := by simpa using he
    subst heq
    exact ⟨⟨c, hc⟩, by rw [← hl, List.take_of_length_le (by simp)]⟩
  · rw [List.getElem?_eq_none (by simpa using hi)] at he
    simp at he

omit [DecidableEq N] in
/-- Log matching: equal terms at one index give equal prefixes. -/
theorem agree (h : Sound termOf s l) (h' : Sound termOf s l') {i : ℕ} {e e' : E}
    (he : l[i]? = some e) (he' : l'[i]? = some e') (hterm : termOf e = termOf e') :
    l.take (i + 1) = l'.take (i + 1) := by
  rw [(h he).2, (h' he').2, hterm]

omit [DecidableEq N] in
/-- A nonempty log is an initial part of the chronicle of its last term. -/
theorem exists_last (h : Sound termOf s l) (hne : l ≠ []) :
    ∃ b c, l[l.length - 1]? = some b ∧ lastTerm termOf l = termOf b ∧
      s.leader (termOf b) = some c ∧ l = (s.chronicle (termOf b)).take l.length := by
  have hpos : 0 < l.length := List.length_pos_of_ne_nil hne
  have hget : l[l.length - 1]? = some (l.getLast hne) := by
    rw [← List.getLast?_eq_getElem?, List.getLast?_eq_some_getLast hne]
  obtain ⟨⟨c, hc⟩, hagree⟩ := h hget
  rw [Nat.sub_add_cancel hpos, List.take_length] at hagree
  refine ⟨l.getLast hne, c, hget, ?_, hc, hagree⟩
  simp [lastTerm, List.getLast?_eq_some_getLast hne]

end Sound

structure LogInv (termOf : E → ℕ) (s : State N E) : Prop where
  log_sound : ∀ x, Sound termOf s (s.log x)
  log_le : ∀ {x e}, e ∈ s.log x → termOf e ≤ s.term x
  bid_sound : ∀ {c t l}, s.bid c t = some l → Sound termOf s l
  bid_lt : ∀ {c t l e}, s.bid c t = some l → e ∈ l → termOf e < t
  chronicle_sound : ∀ {t c}, s.leader t = some c → Sound termOf s (s.chronicle t)
  stem_isPrefix : ∀ {t c}, s.leader t = some c → s.stem t <+: s.chronicle t
  own : ∀ {t c i e}, s.leader t = some c → (s.stem t).length ≤ i →
    (s.chronicle t)[i]? = some e → termOf e = t

namespace LogInv

variable {s s' : State N E} {i : N}

omit [DecidableEq N] in
theorem chronicle_le (h : LogInv termOf s) (he : ElectionInv Q s) {t : ℕ} {c : N}
    (hc : s.leader t = some c) {k : ℕ} {e : E} (hk : (s.chronicle t)[k]? = some e) :
    termOf e ≤ t := by
  by_cases hlt : k < (s.stem t).length
  · have hstem : (s.stem t)[k]? = some (s.stem t)[k] := List.getElem?_eq_getElem hlt
    have heq : (s.stem t)[k] = e := by
      have hsame := getElem?_of_isPrefix (h.stem_isPrefix hc) hstem
      rw [hk] at hsame
      exact (Option.some.inj hsame).symm
    exact (h.bid_lt (he.leader_bid hc) (heq ▸ List.getElem_mem hlt)).le
  · exact (h.own hc (Nat.le_of_not_lt hlt) hk).le

omit [DecidableEq N] in
/-- The leader's own entries begin after the log it was elected on. -/
theorem stem_length_le (h : LogInv termOf s) (he : ElectionInv Q s) {t : ℕ} {c : N}
    (hc : s.leader t = some c) {k : ℕ} {e : E} (hk : (s.chronicle t)[k]? = some e)
    (hterm : termOf e = t) : (s.stem t).length ≤ k := by
  by_contra hcon
  obtain ⟨tail, htail⟩ := h.stem_isPrefix hc
  rw [← htail, List.getElem?_append_left (by omega)] at hk
  have hlt := h.bid_lt (he.leader_bid hc) (List.mem_of_getElem? hk)
  omega

omit [DecidableEq N] in
/-- Terms do not decrease along a log that comes from the chronicles. -/
theorem term_mono (h : LogInv termOf s) (he : ElectionInv Q s) {l : List E}
    (hl : Sound termOf s l) {j k : ℕ} {a b : E} (hjk : j ≤ k) (ha : l[j]? = some a)
    (hb : l[k]? = some b) : termOf a ≤ termOf b := by
  obtain ⟨⟨c, hc⟩, hagree⟩ := hl hb
  have hj : (s.chronicle (termOf b))[j]? = some a := by
    rw [← getElem?_eq_of_take_eq hagree (by omega)]
    exact ha
  exact h.chronicle_le he hc hj

omit [DecidableEq N] in
theorem initial : LogInv termOf (State.initial N E) := by
  constructor <;> simp [State.initial, Sound]

theorem step (h : LogInv termOf s) (he : ElectionInv Q s) (hs : Step Q termOf i s s') :
    LogInv termOf s' := by
  have hext := he.extends_of_step hs
  cases hs with
  | adopt t hterm =>
      exact { h with log_le := fun hmem ↦ (h.log_le hmem).trans (hext.term_le _) }
  | stand t hterm =>
      refine { h with
        log_le := fun hmem ↦ (h.log_le hmem).trans (hext.term_le _)
        bid_sound := fun hb ↦ ?_, bid_lt := fun hb hmem ↦ ?_ }
      · rcases State.bid_of_stand hb with ⟨-, -, rfl⟩ | hold
        · exact h.log_sound i
        · exact h.bid_sound hold
      · rcases State.bid_of_stand hb with ⟨-, rfl, rfl⟩ | hold
        · exact (h.log_le hmem).trans_lt hterm
        · exact h.bid_lt hold hmem
  | castVote c l hbid hfree hlog => exact { h with }
  | elect V hV hvotes hbid hnew =>
      refine { h with
        log_sound := fun x ↦ (h.log_sound x).mono hext
        bid_sound := fun hb ↦ (h.bid_sound hb).mono hext
        chronicle_sound := fun {t c} hl ↦ ?_, stem_isPrefix := fun {t c} hl ↦ ?_,
        own := fun {t c k e} hl hk hget ↦ ?_ }
      · by_cases ht : t = s.term i
        · subst ht
          simpa [State.elect] using (h.log_sound i).mono hext
        · have hold : s.leader t = some c := by simpa [State.elect, ht] using hl
          simpa [State.elect, ht] using (h.chronicle_sound hold).mono hext
      · by_cases ht : t = s.term i
        · simp [State.elect, ht]
        · have hold : s.leader t = some c := by simpa [State.elect, ht] using hl
          simpa [State.elect, ht] using h.stem_isPrefix hold
      · by_cases ht : t = s.term i
        · subst ht
          have hlen : (s.log i).length ≤ k := by simpa [State.elect] using hk
          have hget' : (s.log i)[k]? = some e := by simpa [State.elect] using hget
          simp [List.getElem?_eq_none hlen] at hget'
        · have hold : s.leader t = some c := by simpa [State.elect, ht] using hl
          exact h.own hold (by simpa [State.elect, ht] using hk)
            (by simpa [State.elect, ht] using hget)
  | extend e hleader hlog hterm =>
      have hnew : Sound termOf (s.extend i e) (s.log i ++ [e]) := by
        apply ((h.log_sound i).mono hext).snoc (hext.leader (hterm ▸ hleader))
        simp [State.extend, hterm]
      refine { h with
        log_sound := fun x ↦ ?_, log_le := fun {x a} hmem ↦ ?_
        bid_sound := fun hb ↦ (h.bid_sound hb).mono hext
        chronicle_sound := fun {t c} hl ↦ ?_, stem_isPrefix := fun {t c} hl ↦ ?_,
        own := fun {t c k a} hl hk hget ↦ ?_ }
      · by_cases hx : x = i
        · subst hx
          simpa [State.extend] using hnew
        · simpa [State.extend, hx] using (h.log_sound x).mono hext
      · by_cases hx : x = i
        · subst hx
          have hmem' : a ∈ s.log x ∨ a = e := by simpa [State.extend] using hmem
          rcases hmem' with hmem' | rfl
          · exact h.log_le hmem'
          · exact hterm.le
        · exact h.log_le (by simpa [State.extend, hx] using hmem)
      · by_cases ht : t = s.term i
        · subst ht
          simpa [State.extend] using hnew
        · simpa [State.extend, ht] using (h.chronicle_sound hl).mono hext
      · exact (h.stem_isPrefix hl).trans (hext.chronicle hl)
      · by_cases ht : t = s.term i
        · subst ht
          have hget' : (s.log i ++ [e])[k]? = some a := by simpa [State.extend] using hget
          by_cases hlt : k < (s.log i).length
          · rw [List.getElem?_append_left hlt, hlog] at hget'
            exact h.own hl hk hget'
          · rw [List.getElem?_append_right (Nat.le_of_not_lt hlt)] at hget'
            have hmem : a ∈ [e] := List.mem_of_getElem? hget'
            rw [List.mem_singleton.mp hmem, hterm]
        · exact h.own hl hk (by simpa [State.extend, ht] using hget)
  | truncate c d hleader hagree hdiffer =>
      refine { h with log_sound := fun x ↦ ?_, log_le := fun {x a} hmem ↦ ?_ }
      · by_cases hx : x = i
        · subst hx
          simpa [State.setLog] using ((h.log_sound x).mono hext).take d
        · simpa [State.setLog, hx] using (h.log_sound x).mono hext
      · by_cases hx : x = i
        · subst hx
          have hmem' : a ∈ (s.log x).take d := by simpa [State.setLog] using hmem
          exact h.log_le (List.mem_of_mem_take hmem')
        · exact h.log_le (by simpa [State.setLog, hx] using hmem)
  | copy c e hleader hagree hnext =>
      have hcopy : s.log i ++ [e] = (s.chronicle (s.term i)).take ((s.log i).length + 1) := by
        rw [take_succ_of_getElem? hnext, ← hagree]
      have hsound := ((h.chronicle_sound hleader).mono hext).take ((s.log i).length + 1)
      rw [← hcopy] at hsound
      refine { h with log_sound := fun x ↦ ?_, log_le := fun {x a} hmem ↦ ?_ }
      · by_cases hx : x = i
        · subst hx
          simpa [State.setLog] using hsound
        · simpa [State.setLog, hx] using (h.log_sound x).mono hext
      · by_cases hx : x = i
        · subst hx
          have hmem' : a ∈ s.log x ∨ a = e := by simpa [State.setLog] using hmem
          rcases hmem' with hmem' | rfl
          · exact h.log_le hmem'
          · exact h.chronicle_le he hleader hnext
        · exact h.log_le (by simpa [State.setLog, hx] using hmem)
  | acknowledge c m hleader hm hagree => exact { h with }

end LogInv

end ReplicatedLog
