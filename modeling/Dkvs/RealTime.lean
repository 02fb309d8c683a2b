import Dkvs.Commitment.Safety

/-!
# Real time and the order of the log

A command that is submitted after another one was committed never ends up below
it, even when it is submitted to a leader that has been deposed without knowing.
An entry of some term and index exists in the log of its leader first, and the
leader's log had no such entry when the command was submitted.
-/

namespace Dkvs

open ReplicatedLog

variable {N : ℕ} {c c' : Cluster N}

/-- The history of a run is kept by its continuations. -/
theorem Continues.exists_sim {ok : Cluster N → Action N → Prop} {h : History N} (hrun : Run ok c)
    (hsim : Sim c h) (hc : Continues ok c c') : ∃ h', Sim c' h' ∧ Extends h h' := by
  refine Continues.exists_sim_of_step (P := fun _ g ↦ Extends h g) ?_ hrun hsim (.refl h) hc
  intro c₁ c₂ h₁ h₂ a x _ hsim₁ hext _ _ hsteps
  obtain ⟨-, hext₂, -⟩ := hsim₁.reach.steps_spec hsteps
  exact hext.trans hext₂

/-- What the call of `submit` that an action makes returns. -/
def Cluster.submitResult (c : Cluster N) : Action N → Option SubmitResult
  | .submit i command => some ((c.raft i).submit command).2
  | .execute i cmd => some ((c.raft i).submit cmd.encode).2
  | _ => none

/-- A leader puts a command right after the end of its chronicle. -/
theorem Sim.submit_index {h : History N} (hsim : Sim c h) (x : Fin N) (command : Bytes) {hint : ℤ}
    {j u : ℕ} (hresult : ((c.raft x).submit command).2 = ⟨true, hint, j, u⟩) :
    j = (h.chronicle u).length + 1 := by
  rcases (c.raft x).submit_cases command with ⟨-, hrefused⟩ | ⟨hrole, -, hindex, hterm⟩
  · simp [hresult] at hrefused
  · obtain ⟨-, hlog, -⟩ := (hsim.tracks x).leads hrole
    simp only [hresult] at hindex hterm
    rw [hindex, hterm, (hsim.tracks x).term, ← hlog, (hsim.tracks x).log, List.length_cons]

theorem Sim.submitResult_index {h : History N} (hsim : Sim c h) {a : Action N} {hint : ℤ}
    {j u : ℕ} (hresult : c.submitResult a = some ⟨true, hint, j, u⟩) :
    j = (h.chronicle u).length + 1 := by
  cases a with
  | submit x command => exact hsim.submit_index x command (Option.some.inj hresult)
  | execute x cmd => exact hsim.submit_index x cmd.encode (Option.some.inj hresult)
  | _ => simp [Cluster.submitResult] at hresult

/-- A chosen entry stood in the chronicle of the leader that chose it, and so in
the chronicle of the leader of its own term, as soon as something at or above its
index was chosen. -/
theorem Sim.chronicle_of_chosen {h h' : History N} (hsim : Sim c h) (hsim' : Sim c' h')
    (hext : Extends h h') {t m t' m' k : ℕ} {e : LogEntry}
    (hchosen : Chosen (Quorums N) LogEntry.term h t m)
    (hchosen' : Chosen (Quorums N) LogEntry.term h' t' m') (hk : k < m) (hk' : k < m')
    (he : (h'.chronicle t')[k]? = some e) : (h.chronicle e.term)[k]? = some e := by
  have hinv := Invariant.of_reachable hsim.reach
  have hinv' := Invariant.of_reachable hsim'.reach
  obtain ⟨x, hx⟩ := hinv.chosen_elected hchosen
  have hlen := hinv.chosen_length hchosen
  have hold : ((h'.chronicle t).take m)[k]? = (h.chronicle t)[k]? := by
    rw [take_eq_of_isPrefix (hext.chronicle hx) hlen, List.getElem?_take_of_lt hk]
  have hnew : ((h'.chronicle t').take m')[k]? = some e := by
    rw [List.getElem?_take_of_lt hk', he]
  have hget : (h.chronicle t)[k]? = some e := by
    rcases hinv'.chosen_comparable (hinv.chosen_mono hext hchosen) hchosen' with hle | hle
    · have hin : k < ((h'.chronicle t).take m).length := by
        rw [take_eq_of_isPrefix (hext.chronicle hx) hlen, List.length_take]
        omega
      rw [← hold, List.getElem?_eq_getElem hin]
      have hsame := getElem?_of_isPrefix hle (List.getElem?_eq_getElem hin)
      rw [hnew] at hsame
      exact hsame.symm
    · rw [← hold]
      exact getElem?_of_isPrefix hle hnew
  obtain ⟨-, hagree⟩ := hinv.log.chronicle_sound hx hget
  rw [← getElem?_eq_of_take_eq hagree (Nat.lt_succ_self k)]
  exact hget

/-- Once index `i` is committed, a command that is submitted afterwards and ever
committed is committed above `i`. -/
theorem real_time_order (hrun : AnyRun c) {x : Fin N} {i t m : ℕ} {log : List LogEntry}
    (hcommit : .advanceCommit x t m log ∈ c.trace) (hi : i ≤ m) {a : Action N} {hint : ℤ}
    {j u : ℕ} (hresult : c.submitResult a = some ⟨true, hint, j, u⟩) {c₁ : Cluster N}
    (hs : c.step a = some c₁) (hb : c₁.TermsBounded) (hc : Continues (fun _ _ ↦ True) c₁ c')
    {z : Fin N} {t' m' : ℕ} {log' : List LogEntry} {e : LogEntry}
    (hlater : .advanceCommit z t' m' log' ∈ c'.trace) (hj : j ≤ m')
    (he : log'[j - 1]? = some e) (hterm : e.term = u) : i < j := by
  obtain ⟨h, hsim⟩ := hrun.exists_sim
  have hindex := hsim.submitResult_index hresult
  obtain ⟨h₁, hsim₁, w, hsteps⟩ := hsim.step hrun.size hrun.termsBounded hs
  obtain ⟨-, hext₁, -⟩ := hsim.reach.steps_spec hsteps
  obtain ⟨h', hsim', hext'⟩ := hc.exists_sim (.step hrun trivial hs hb) hsim₁
  obtain ⟨-, -, -, hchosen⟩ := hsim.trace.events _ hcommit
  obtain ⟨-, hlog', -, hchosen'⟩ := hsim'.trace.events _ hlater
  by_contra hle
  -- the entry would have been in its leader's log before it was submitted
  have hget := hsim.chronicle_of_chosen hsim' (hext₁.trans hext') hchosen hchosen'
    (show j - 1 < m by omega) (show j - 1 < m' by omega) (getElem?_of_isPrefix hlog' he)
  obtain ⟨hlt, -⟩ := List.getElem?_eq_some_iff.mp hget
  rw [hterm] at hlt
  omega

/-- Node 1 has been elected by node 2 and node 0, which leads the term before, does
not know it yet and takes a command. It stands again before node 1 has committed
anything and commits the command in its next term. -/
theorem real_time_order_deposed : ∃ c c₁ c' : Cluster 3, AnyRun c ∧
    .advanceCommit 0 1 2 [⟨1, []⟩, ⟨1, [7]⟩] ∈ c.trace ∧
    .becomeLeader 1 2 [⟨1, []⟩, ⟨1, [7]⟩] ∈ c.trace ∧
    c.submitResult (.submit 0 [8]) = some ⟨true, 0, 3, 1⟩ ∧
    c.step (.submit 0 [8]) = some c₁ ∧ Continues (fun _ _ ↦ True) c₁ c' ∧
    .advanceCommit 0 3 4 [⟨1, []⟩, ⟨1, [7]⟩, ⟨1, [8]⟩, ⟨3, []⟩] ∈ c'.trace ∧ 2 < 3 := by
  obtain ⟨c, hrun, hcommit, helected, hresult, hb, hrest⟩ : ∃ c : Cluster 3, AnyRun c ∧
      .advanceCommit 0 1 2 [⟨1, []⟩, ⟨1, [7]⟩] ∈ c.trace ∧
      .becomeLeader 1 2 [⟨1, []⟩, ⟨1, [7]⟩] ∈ c.trace ∧
      c.submitResult (.submit 0 [8]) = some ⟨true, 0, 3, 1⟩ ∧
      (c.submitStep 0 [8]).TermsBounded ∧
      ((c.submitStep 0 [8]).play (fun _ _ ↦ True)
        [.deliverVote 1, .timeout 0, .deliverVote 2, .voteReply 0 2 1, .send 0 3,
          .deliverAppend 0, .appendReply 0 3 0, .send 0 3, .deliverAppend 0,
          .appendReply 0 3 0]).any
        (fun c' ↦ .advanceCommit 0 3 4 [⟨1, []⟩, ⟨1, [7]⟩, ⟨1, [8]⟩, ⟨3, []⟩] ∈ c'.trace) =
          true :=
    exists_run_of_play (by decide) (by decide)
      [.timeout 0, .deliverVote 0, .voteReply 0 0 0, .submit 0 [7], .send 0 0, .deliverAppend 0,
        .appendReply 0 0 0, .send 0 1, .deliverAppend 0, .appendReply 0 1 0, .timeout 1,
        .deliverVote 2, .voteReply 1 1 0] (by decide +kernel)
  simp only [Option.any_eq_true, decide_eq_true_eq] at hrest
  obtain ⟨c', hplay, hlater⟩ := hrest
  have hs : c.step (.submit 0 [8]) = some (c.submitStep 0 [8]) := rfl
  have hc := Continues.play hplay
  exact ⟨c, c.submitStep 0 [8], c', hrun, hcommit, helected, hresult, hs, hc, hlater,
    real_time_order hrun hcommit le_rfl hresult hs hb hc hlater (by decide) rfl rfl⟩

end Dkvs
