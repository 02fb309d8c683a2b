import Dkvs.Simulation.Effects

/-!
# Taking office and serving as leader

The operations that a node performs as a leader, and the step into that role,
matched with the abstract protocol.
-/

namespace Dkvs

open ReplicatedLog

variable {N : ℕ} {h h' : History N} {i : Fin N} {n : RaftNode}

theorem countP_range_eq_card (p : ℕ → Bool) :
    (List.range N).countP p = (Finset.univ.filter fun x : Fin N ↦ p x = true).card := by
  have hmap : List.range N = (List.finRange N).map Fin.val := by simp
  rw [hmap, List.countP_map, List.countP_eq_length_filter,
    ← List.toFinset_card_of_nodup ((List.nodup_finRange N).filter _)]
  congr 1
  ext x
  simp

namespace Tracks

/-- A majority in `matchIndex_` is a quorum of acknowledgements. -/
theorem chosen (ht : Tracks h i n) (hrole : n.role = .leader)
    {m : ℕ} (hm : 0 < m) (hlast : m ≤ n.lastLogIndex) (hterm : n.termAt m = n.currentTerm)
    (hcount : n.majority ≤ n.replicas m) :
    Chosen (Quorums N) LogEntry.term h (h.term i) m := by
  obtain ⟨hleader, hlog, hack⟩ := ht.leads hrole
  rw [ht.lastLogIndex] at hlast
  have hget : (h.log i)[m - 1]? = some (h.log i)[m - 1] :=
    List.getElem?_eq_getElem (by omega)
  refine ⟨hm, ⟨(h.log i)[m - 1], by rw [← hlog]; exact hget, ?_⟩, ?_⟩
  · have hat := ht.termAt_succ hget
    rw [Nat.sub_add_cancel hm, hterm, ht.term] at hat
    exact hat.symm
  · refine ⟨Finset.univ.filter fun x : Fin N ↦ decide (m ≤ n.matchIndex.getD x 0) = true, ?_, ?_⟩
    · rw [RaftNode.majority, RaftNode.replicas, ht.size, countP_range_eq_card] at hcount
      simpa [QuorumSystem.majority] using hcount
    · intro x hx
      have hle : m ≤ n.matchIndex.getD x 0 := by simpa using hx
      exact hle.trans (hack x)

/-- Adopting a term of at least the current one. -/
theorem becomeFollower (ht : Tracks h i n) (hr : ReachableHistory h) {t : ℕ}
    (hle : h.term i ≤ t) :
    ∃ h', Performs i h n (n.becomeFollower t) h' ∧ h'.term i = t ∧ h'.log i = h.log i ∧
      h'.leader = h.leader ∧ h'.chronicle = h.chronicle ∧ h'.bid = h.bid ∧
      (∀ u, h'.vote i u = h.vote i u) := by
  rcases Nat.eq_or_lt_of_le hle with heq | hlt
  · have hcur : t ≤ n.currentTerm := by rw [ht.term, heq]
    refine ⟨h, ?_, heq, rfl, rfl, rfl, rfl, fun _ ↦ rfl⟩
    rw [RaftNode.becomeFollower_of_le hcur]
    refine Performs.notices n.notices_retirement rfl ?_
    exact { ht with leads := fun hrole ↦ by simp at hrole, stands := fun hrole ↦ by simp at hrole }
  · have hcur : n.currentTerm < t := by rw [ht.term]; exact hlt
    have hvote := (ElectionInv.of_reachable hr).vote_eq_none hlt
    refine ⟨h.adopt i t, ?_, by simp [State.adopt], rfl, rfl, rfl, rfl, fun _ ↦ rfl⟩
    rw [RaftNode.becomeFollower_of_lt hcur]
    refine Performs.noticed (e := .saveMeta t (-1)) ?_ n.notices_retirement rfl ?_
    · refine ⟨.single (.adopt h t hle), ?_, by simp, trivial⟩
      simp [durable, State.adopt, DurableState.perform, hvote, encodeVote]
    · exact { ht with
        term := by simp [State.adopt]
        vote := by simp [State.adopt, hvote, encodeVote]
        leads := fun hrole ↦ by simp at hrole
        stands := fun hrole ↦ by simp at hrole }

theorem pushLeader (ht : Tracks h i n) (hrole : n.role = .leader) {e : LogEntry}
    (he : e.term = n.currentTerm) : Performs i h n (n.push e) (h.extend i e) := by
  obtain ⟨hleader, hlog, hack⟩ := ht.leads hrole
  refine Performs.single (e := .append e) ?_ rfl ?_
  · refine ⟨.single (.extend h e hleader hlog (he.trans ht.term)), ?_, by simp, trivial⟩
    simp [durable, State.extend, DurableState.perform]
  · refine { ht with log := ?_, leads := fun _ ↦ ?_, stands := fun hc ↦ ?_ }
    · simp [RaftNode.push, RaftNode.emit, ht.log, State.extend]
    · exact ⟨hleader, by simp [State.extend], hack⟩
    · have hc' : n.role = .candidate := hc
      simp [hrole] at hc'

/-- Recording what is known of one peer. -/
theorem setMatch (ht : Tracks h i n) {x : Fin N} {m : ℕ} (hm : m ≤ h.ack x (h.term i))
    (next : List ℕ) :
    Performs i h n { n with matchIndex := n.matchIndex.set x m, nextIndex := next } h := by
  refine Performs.silent .refl rfl rfl ?_
  refine { ht with matchLength := by simp [ht.matchLength], leads := fun hrole ↦ ?_ }
  obtain ⟨hleader, hlog, hack⟩ := ht.leads hrole
  refine ⟨hleader, hlog, fun y ↦ ?_⟩
  by_cases hy : (x : ℕ) = y
  · obtain rfl : x = y := Fin.ext hy
    have hlt : (x : ℕ) < n.matchIndex.length := by rw [ht.matchLength]; exact x.isLt
    simpa [List.getD_eq_getElem?_getD, List.getElem?_set, hlt] using hm
  · simpa [List.getD_eq_getElem?_getD, List.getElem?_set, hy] using hack y

theorem acknowledge (ht : Tracks h i n) (hr : ReachableHistory h) {m : ℕ}
    (hs : NodeSteps i h (h.acknowledge i m)) : Performs i h n n (h.acknowledge i m) := by
  obtain ⟨-, hext, -⟩ := hr.steps_spec hs
  refine Performs.silent hs rfl rfl { ht with leads := fun hrole ↦ ?_ }
  obtain ⟨hleader, hlog, hack⟩ := ht.leads hrole
  exact ⟨hleader, hlog, fun x ↦ (hack x).trans (hext.ack_le x _)⟩

/-- The leader counts its own log. -/
theorem countSelf (ht : Tracks h i n) (hr : ReachableHistory h) (hrole : n.role = .leader) :
    ∃ h', Performs i h n n.countSelf h' ∧
      h'.log = h.log ∧ h'.term = h.term ∧ h'.leader = h.leader ∧ h'.chronicle = h.chronicle := by
  obtain ⟨hleader, hlog, -⟩ := ht.leads hrole
  let g := h.acknowledge i (h.log i).length
  have hstep : NodeSteps i h g :=
    .single (.acknowledge h i (h.log i).length hleader (by rw [hlog]) (by rw [← hlog]))
  have hg : Performs i h n n g := ht.acknowledge hr hstep
  refine ⟨g, hg.trans hr ?_, rfl, rfl, rfl, rfl⟩
  have hm : n.lastLogIndex ≤ g.ack i (g.term i) := by
    rw [ht.lastLogIndex]
    simp [g, State.acknowledge]
  have hset : n.countSelf = { n with matchIndex := n.matchIndex.set i n.lastLogIndex } := by
    simp only [RaftNode.countSelf, ht.id]
  rw [hset]
  exact hg.tracks.setMatch hm n.nextIndex

theorem advanceCommit (ht : Tracks h i n) :
    Performs i h n n.advanceCommit h := by
  rcases n.advanceCommit_cases with hsame | ⟨hrole, m, hlast, hcommit, hterm, hcount, hmove⟩
  · rw [hsame]
    exact Performs.refl ht
  · obtain ⟨hleader, hlog, -⟩ := ht.leads hrole
    rw [hmove]
    refine Performs.noticed (e := .advanceCommit n.currentTerm m n.log.tail) ?_
      (by simp [Notices]) rfl { ht with }
    refine ⟨.refl, rfl, by simp, ?_⟩
    rw [Witnessed, ht.term, ht.log, List.tail_cons, ← hlog]
    refine ⟨hleader, List.prefix_rfl, ?_, ht.chosen hrole (by omega) hlast hterm hcount⟩
    rw [← ht.lastLogIndex]
    exact hlast

theorem notify (ht : Tracks h i n) (cv : RaftNode.CondVar) :
    Performs i h n (n.emit (.notify cv)) h :=
  .notices (.single cv) rfl { ht with }

theorem spawn (ht : Tracks h i n) {threads : List Effect}
    (hthreads : ∀ e ∈ threads, Allowed i h e h) : Performs i h n (n.spawn threads) h := by
  refine ⟨⟨threads, rfl, ?_⟩, { ht with }⟩
  induction threads with
  | nil => exact .refl i h
  | cons e es ih =>
      refine .cons (hthreads e (by simp)) (ih fun e' he' ↦ ?_)
      exact hthreads e' (List.mem_cons_of_mem e he')

/-- A candidate with a quorum of votes takes office. -/
theorem becomeLeader (ht : Tracks h i n) (hr : ReachableHistory h)
    (hrole : n.role = .candidate) {V : Finset (Fin N)} (hV : (Quorums N).IsQuorum V)
    (hvotes : ∀ x ∈ V, h.vote x (h.term i) = some i) :
    ∃ h', Performs i h n n.becomeLeader h' ∧ h'.term i = h.term i := by
  obtain ⟨hbid, hnew⟩ := ht.stands hrole
  have hnone := (ElectionInv.of_reachable hr).leader_eq_none hV hvotes hnew
  have h₁ : Performs i h n n.takeOffice (h.elect i V) := by
    refine Performs.single (e := .becomeLeader n.currentTerm n.log.tail) ?_ rfl ?_
    · refine ⟨.single (.elect h V hV hvotes hbid hnew), rfl, ?_, ?_⟩
      · intro term log he
        have hterm : n.currentTerm = term := by simpa using (Effect.becomeLeader.inj he).1
        rw [← hterm, ht.term]
        exact hnone
      · simp [Witnessed, State.elect, ht.term, ht.log]
    · refine { ht with
        matchLength := by simp [RaftNode.takeOffice, ht.matchLength], leads := fun _ ↦ ?_,
        stands := fun hc ↦ by simp [RaftNode.takeOffice] at hc }
      refine ⟨by simp [State.elect], by simp [State.elect], fun x ↦ ?_⟩
      have hx : (x : ℕ) < n.matchIndex.length := by rw [ht.matchLength]; exact x.isLt
      simp [RaftNode.takeOffice, List.getD_eq_getElem?_getD, hx]
  have hr₁ := (h₁.spec hr).1
  have h₂ : Performs i (h.elect i V) n.takeOffice (n.takeOffice.push ⟨n.currentTerm, []⟩) _ :=
    h₁.tracks.pushLeader rfl rfl
  have hr₂ := (h₂.spec hr₁).1
  obtain ⟨h', h₃, -, hterm, -, -⟩ := h₂.tracks.countSelf hr₂ rfl
  have hr₃ := (h₃.spec hr₂).1
  have h₄ := h₃.tracks.advanceCommit
  have h₅ : Performs i h' (n.takeOffice.push ⟨n.currentTerm, []⟩).countSelf.advanceCommit
      n.becomeLeader h' := by
    apply h₄.tracks.spawn
    intro e he
    obtain ⟨peer, -, rfl⟩ := List.mem_map.mp he
    exact ⟨.refl, rfl, by simp, trivial⟩
  refine ⟨h', h₁.trans hr (h₂.trans hr₁ (h₃.trans hr₂ (h₄.trans hr₃ h₅))), ?_⟩
  rw [hterm]
  rfl

/-- A leader that takes a command puts it at the end of its chronicle. -/
theorem submit (ht : Tracks h i n) (hr : ReachableHistory h) (command : Bytes) :
    ∃ h', Performs i h n (n.submit command).1 h' ∧
      ((n.submit command).2.isLeader = true → 0 < (n.submit command).2.index ∧
        h'.leader (n.submit command).2.term = some i ∧
        (h'.chronicle (n.submit command).2.term)[(n.submit command).2.index - 1]? =
          some ⟨(n.submit command).2.term, command⟩) := by
  rcases n.submit_cases command with ⟨hsame, hnot⟩ | ⟨hrole, hnode, hindex, hterm⟩
  · refine ⟨h, ?_, by simp [hnot]⟩
    rw [hsame]
    exact Performs.refl ht
  · obtain ⟨hleader, hlog, -⟩ := ht.leads hrole
    have hpush : Performs i h n (n.push ⟨n.currentTerm, command⟩) _ := ht.pushLeader hrole rfl
    have hrp := (hpush.spec hr).1
    obtain ⟨g, hself, hglog, -, hgleader, hgchron⟩ := hpush.tracks.countSelf hrp hrole
    have hrg := (hself.spec hrp).1
    have hadvance := hself.tracks.advanceCommit
    have hnotify := hadvance.tracks.notify .replCv
    rw [hnode, hindex, hterm]
    refine ⟨g, hpush.trans hr (hself.trans hrp (hadvance.trans hrg hnotify)),
      fun _ ↦ ⟨?_, ?_, ?_⟩⟩
    · simp [ht.log]
    · rw [hgleader, ht.term]
      exact hleader
    · simp [hgchron, State.extend, ht.term, ht.log]

/-- A confirmed match is an acknowledgement of the peer. -/
theorem onAppendReply (ht : Tracks h i n) (hr : ReachableHistory h) {peer : Fin N}
    {leaderTerm : ℕ} {args : AppendEntriesArgs} {reply : AppendEntriesReply}
    (hargs : args.term = leaderTerm)
    (hack : reply.success = true →
      args.prevLogIndex + args.entries.length ≤ h.ack peer args.term) :
    ∃ h', Performs i h n (n.onAppendReply peer leaderTerm args reply).1 h' := by
  rcases n.onAppendReply_cases peer leaderTerm args reply with hsame | ⟨hterm, hnode⟩ |
    ⟨hrole, hcur, ⟨hsuccess, next, hnode⟩ | ⟨next, hnode⟩⟩
  · rw [hsame]
    exact ⟨h, Performs.refl ht⟩
  · obtain ⟨g, hg, -⟩ := ht.becomeFollower hr (t := reply.term) (ht.term ▸ hterm.le)
    rw [hnode]
    exact ⟨g, hg⟩
  · obtain ⟨-, -, hmatch⟩ := ht.leads hrole
    have hpeer := hack hsuccess
    rw [hargs, ← hcur, ht.term] at hpeer
    have hset := ht.setMatch (max_le (hmatch peer) hpeer) next
    rw [hnode]
    exact ⟨h, hset.trans hr hset.tracks.advanceCommit⟩
  · rw [hnode]
    exact ⟨h, Performs.silent .refl rfl rfl { ht with }⟩

end Tracks

end Dkvs
