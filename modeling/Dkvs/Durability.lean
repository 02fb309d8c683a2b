import Dkvs.ReplicatedLog.Holders
import Dkvs.RealTime

/-!
# What is committed stays on a majority of the disks

The nodes that made an entry committed have it on their disks for good, whatever crashes,
elections and truncations follow. A leader's own log only grows while it is in office.
-/

namespace Dkvs

open ReplicatedLog

variable {N : ℕ} {c c' : Cluster N} {h : History N}

/-- What some leader committed is held by a majority. -/
theorem Sim.exists_held (hsim : Sim c h) {x : Fin N} {t m : ℕ} {log : List LogEntry}
    (hcommit : .advanceCommit x t m log ∈ c.trace) :
    Chosen (Quorums N) LogEntry.term h t m ∧ log.take m = (h.chronicle t).take m ∧
      ∃ V, Held (Quorums N) h t m V := by
  obtain ⟨-, hlog, hm, hchosen⟩ := hsim.trace.events _ hcommit
  exact ⟨hchosen, (take_eq_of_isPrefix hlog hm).symm,
    (Invariant.of_reachable hsim.reach).exists_held hchosen⟩

/-- The same majority holds it in every continuation of the run. -/
theorem Continues.held {ok : Cluster N → Action N → Prop} (hrun : Run ok c) (hsim : Sim c h)
    (hc : Continues ok c c') {t m : ℕ} (hchosen : Chosen (Quorums N) LogEntry.term h t m)
    {V : Finset (Fin N)} (hheld : Held (Quorums N) h t m V) :
    ∃ h', Sim c' h' ∧ Extends h h' ∧ Held (Quorums N) h' t m V := by
  refine Continues.exists_sim_of_step
    (P := fun _ g ↦ Extends h g ∧ Held (Quorums N) g t m V) ?_ hrun hsim ⟨.refl h, hheld⟩ hc
  rintro c₁ c₂ h₁ h₂ a x - hsim₁ ⟨hext, hheld₁⟩ - - hsteps
  obtain ⟨-, hext₂, -⟩ := hsim₁.reach.steps_spec hsteps
  exact ⟨hext.trans hext₂, hsim₁.reach.held_steps hsteps
    ((Invariant.of_reachable hsim.reach).chosen_mono hext hchosen) hheld₁⟩

/-- Once a leader has committed a part of its log, one and the same majority of the disks
has that part in every later state. -/
theorem committed_on_majority (hrun : AnyRun c) {x : Fin N} {t m : ℕ} {log : List LogEntry}
    (hcommit : .advanceCommit x t m log ∈ c.trace) :
    ∃ V : Finset (Fin N), N / 2 + 1 ≤ V.card ∧
      ∀ {c' : Cluster N}, Continues (fun _ _ ↦ True) c c' →
        ∀ i ∈ V, log.take m <+: (c'.processes i).storage.entries := by
  obtain ⟨h, hsim⟩ := hrun.exists_sim
  obtain ⟨hchosen, hlog, V, hheld⟩ := hsim.exists_held hcommit
  refine ⟨V, by simpa [Quorums, QuorumSystem.majority] using hheld.1, fun {c'} hc i hi ↦ ?_⟩
  obtain ⟨h', hsim', hext, hheld'⟩ := hc.held hrun hsim hchosen hheld
  have hinv := Invariant.of_reachable hsim.reach
  obtain ⟨y, hy⟩ := hinv.chosen_elected hchosen
  obtain ⟨-, hl⟩ := hheld'.2 i hi
  rw [take_eq_of_isPrefix (hext.chronicle hy) (hinv.chosen_length hchosen), ← hlog] at hl
  rw [(hsim'.nodes i).disk, durable]
  exact hl

/-- Two of three nodes commit a command, and then the leader crashes. -/
theorem committed_on_majority_crash : ∃ (c : Cluster 3) (V : Finset (Fin 3)), AnyRun c ∧
    .advanceCommit 1 1 2 [⟨1, []⟩, ⟨1, [7]⟩] ∈ c.trace ∧ 2 ≤ V.card ∧
    ∀ i ∈ V, [⟨1, []⟩, ⟨1, [7]⟩] <+: ((c.restart 1 []).processes i).storage.entries := by
  obtain ⟨c, hrun, hcommit, hb⟩ : ∃ c : Cluster 3, AnyRun c ∧
      .advanceCommit 1 1 2 [⟨1, []⟩, ⟨1, [7]⟩] ∈ c.trace ∧ (c.restart 1 []).TermsBounded :=
    exists_run_of_play (by decide) (by decide)
      [.timeout 1, .deliverVote 1, .voteReply 1 1 0, .submit 1 [7], .send 1 1, .deliverAppend 0,
        .appendReply 1 1 0] (by decide +kernel)
  obtain ⟨V, hcard, hkept⟩ := committed_on_majority hrun hcommit
  exact ⟨c, V, hrun, hcommit, hcard, hkept (.step (a := .crash 1) .refl trivial rfl hb)⟩

/-- A node that leads a term now and later has only added to its log in between. -/
theorem leader_append_only (hrun : AnyRun c) (hc : Continues (fun _ _ ↦ True) c c') {i : Fin N}
    (hlead : (c.raft i).role = .leader) (hlead' : (c'.raft i).role = .leader)
    (hterm : (c'.raft i).currentTerm = (c.raft i).currentTerm) :
    (c.raft i).log <+: (c'.raft i).log := by
  obtain ⟨h, hsim⟩ := hrun.exists_sim
  obtain ⟨h', hsim', hext⟩ := hc.exists_sim hrun hsim
  obtain ⟨hleader, hlog, -⟩ := (hsim.tracks i).leads hlead
  obtain ⟨-, hlog', -⟩ := (hsim'.tracks i).leads hlead'
  have hsame : h'.term i = h.term i := by
    rw [← (hsim.tracks i).term, ← (hsim'.tracks i).term, hterm]
  rw [(hsim.tracks i).log, (hsim'.tracks i).log, hlog, hlog', hsame]
  exact List.prefix_cons_inj sentinel |>.mpr (hext.chronicle hleader)

/-- Node 0 of three takes two commands in its term, the second after node 1 has been
elected in the next one. -/
theorem leader_append_only_deposed : ∃ c c' : Cluster 3, AnyRun c ∧
    Continues (fun _ _ ↦ True) c c' ∧ (c.raft 0).role = .leader ∧
    (c'.raft 0).role = .leader ∧ (c'.raft 1).role = .leader ∧ (c'.raft 1).currentTerm = 2 ∧
    (c'.raft 0).log.tail = [⟨1, []⟩, ⟨1, [7]⟩, ⟨1, [8]⟩] ∧
    (c.raft 0).log <+: (c'.raft 0).log := by
  obtain ⟨c, hrun, hlead, hrest⟩ : ∃ c : Cluster 3, AnyRun c ∧ (c.raft 0).role = .leader ∧
      (c.play (fun _ _ ↦ True)
        [.submit 0 [7], .send 0 0, .deliverAppend 0, .appendReply 0 0 0, .timeout 1,
          .deliverVote 2, .voteReply 1 1 0, .submit 0 [8]]).any
        (fun c' ↦ (c'.raft 0).role = .leader ∧ (c'.raft 1).role = .leader ∧
          (c'.raft 1).currentTerm = 2 ∧ (c'.raft 0).currentTerm = (c.raft 0).currentTerm ∧
          (c'.raft 0).log.tail = [⟨1, []⟩, ⟨1, [7]⟩, ⟨1, [8]⟩]) = true :=
    exists_run_of_play (by decide) (by decide) [.timeout 0, .deliverVote 0, .voteReply 0 0 0]
      (by decide +kernel)
  simp only [Option.any_eq_true, decide_eq_true_eq] at hrest
  obtain ⟨c', hplay, hlead', hother, hsecond, hterm, hlog⟩ := hrest
  have hc := Continues.play hplay
  exact ⟨c, c', hrun, hc, hlead, hlead', hother, hsecond, hlog,
    leader_append_only hrun hc hlead hlead' hterm⟩

end Dkvs
