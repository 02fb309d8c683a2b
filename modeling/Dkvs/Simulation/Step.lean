import Dkvs.Simulation.Network

/-!
# Every action extends the history

The simulation invariant is kept by each action of the cluster, and so it holds
in every run.
-/

namespace Dkvs

open ReplicatedLog

variable {N : ℕ} {h h' : History N} {i : Fin N} {c c' : Cluster N}

theorem Cluster.voteReplyTo_mem {q : VoteCall N} {j : ℕ} {reply : RequestVoteReply}
    (hreply : c.voteReplyTo q j = some reply) : (q, reply) ∈ c.voteReplies := by
  unfold Cluster.voteReplyTo at hreply
  split at hreply
  · rename_i q' reply' hget
    split_ifs at hreply with heq
    obtain rfl : reply' = reply := by simpa using hreply
    exact heq ▸ List.mem_of_getElem? hget
  · simp at hreply

theorem Cluster.appendReplyTo_mem {q : AppendCall N} {j : ℕ} {reply : AppendEntriesReply}
    (hreply : c.appendReplyTo q j = some reply) : (q, reply) ∈ c.appendReplies := by
  unfold Cluster.appendReplyTo at hreply
  split at hreply
  · rename_i q' reply' hget
    split_ifs at hreply with heq
    obtain rfl : reply' = reply := by simpa using hreply
    exact heq ▸ List.mem_of_getElem? hget
  · simp at hreply

namespace Sim

theorem tracks (hsim : Sim c h) (i : Fin N) : Tracks h i (c.raft i) := (hsim.nodes i).tracks

theorem setProcess (hsim : Sim c h) {p : Process N} (hp : NodeSim h i p) :
    Sim (c.setProcess i p) h := by
  refine { hsim with nodes := fun j ↦ ?_, wire := { hsim.wire with } }
  by_cases hj : j = i
  · subst hj
    simpa using hp
  · simpa [hj] using hsim.nodes j

theorem record (hsim : Sim c h) {events : List (Event N)} (hevents : ∀ e ∈ events, EventOk h e)
    (hnone : elections events = []) : Sim (c.record events) h :=
  { hsim with wire := { hsim.wire with }, trace := hsim.trace.record hevents hnone }

/-- Node `i` makes transitions, its process becomes `p`, and its elections and
commits are recorded. -/
theorem move (hsim : Sim c h) {es : List Effect} (hp : Permits i h es h') {p : Process N}
    (hnode : NodeSim h' i p) :
    Sim ((c.setProcess i p).record (es.filterMap (Cluster.eventOf i))) h' := by
  obtain ⟨hr', hext, hframe⟩ := hp.spec hsim.reach
  refine ⟨hr', fun j ↦ ?_, { hsim.wire.mono hext with }, hsim.trace.advance hsim.reach hp⟩
  by_cases hj : j = i
  · subst hj
    simpa [Cluster.record] using hnode
  · simpa [Cluster.record, hj] using (hsim.nodes j).frame hj hframe hext

/-- A process restarts from what its storage calls left on disk. -/
theorem restart (hsim : Sim c h) {es : List Effect} (hp : Permits i h es h') :
    Sim (c.restart i es) h' := by
  refine hsim.move hp ?_
  have hdisk : (c.processes i).storage.performAll es = durable h' i := by
    rw [(hsim.nodes i).disk, hp.disk]
  rw [hdisk]
  exact {
    tracks := Tracks.recover h' i
    disk := rfl
    idle := rfl
    senders := by simp [Process.boot]
    distinct := by simp [Process.boot, Distinct]
    tally := by simp [Process.boot, Tally, RaftNode.recover]
    calls := by simp [Process.boot]
    handlers := by simp [Process.boot] }

theorem performed (hsim : Sim c h) {n : RaftNode} (hp : Performs i h (c.raft i) n h') :
    Permits i h n.effects h' := by
  obtain ⟨es, hes, hpermits⟩ := hp.effects
  have hidle : (c.raft i).effects = [] := (hsim.nodes i).idle
  rw [hidle, List.nil_append] at hes
  rwa [hes]

/-- An operation is completed. -/
theorem settle (hsim : Sim c h) {n : RaftNode} (hp : Performs i h (c.raft i) n h')
    (hdistinct : Distinct ((c.processes i).voteSenders ++
      n.effects.filterMap (Cluster.voteCallOf i)))
    (htally : Tally h' i n ((c.processes i).voteSenders ++
      n.effects.filterMap (Cluster.voteCallOf i))) :
    Sim (c.settle i n) h' := by
  have hpermits := hsim.performed hp
  obtain ⟨-, hext, -⟩ := hpermits.spec hsim.reach
  have hcalls : ∀ q ∈ n.effects.filterMap (Cluster.voteCallOf i),
      q.src = i ∧ VoteRequestOk h' i q.args := by
    intro q hq
    obtain ⟨e, he, heq⟩ := List.mem_filterMap.mp hq
    have hw := hpermits.witnessed hsim.reach e he
    cases e with
    | voteSender peer args =>
        simp only [Cluster.voteCallOf, Option.dite_none_right_eq_some, Option.some.injEq] at heq
        obtain ⟨hlt, rfl⟩ := heq
        exact ⟨rfl, hw⟩
    | _ => simp [Cluster.voteCallOf] at heq
  have hnode := hsim.nodes i
  have hmoved := hsim.move hpermits (p := { c.processes i with
    raft := { n with effects := [] }
    storage := (c.processes i).storage.performAll n.effects
    voteSenders := (c.processes i).voteSenders ++ n.effects.filterMap (Cluster.voteCallOf i)
    replicators := (c.processes i).replicators ++
      n.effects.filterMap Cluster.replicatorOf }) ?_
  · refine { hmoved with wire := { hmoved.wire with voteRequests := fun q hq ↦ ?_ } }
    rcases List.mem_append.mp hq with hq | hq
    · exact hmoved.wire.voteRequests q hq
    · obtain ⟨hsrc, hok⟩ := hcalls q hq
      exact hsrc ▸ hok
  · refine {
      tracks := { hp.tracks with }
      disk := by rw [hpermits.disk, ← hnode.disk]
      idle := rfl
      senders := fun q hq ↦ ?_
      distinct := hdistinct
      tally := htally
      calls := fun r hr q hq ↦ ?_
      handlers := fun handler hmem ↦ (hnode.handlers handler hmem).mono hext }
    · rcases List.mem_append.mp hq with hq | hq
      · obtain ⟨hsrc, hok⟩ := hnode.senders q hq
        exact ⟨hsrc, hok.mono hext⟩
      · exact hcalls q hq
    · rcases List.mem_append.mp hr with hr | hr
      · exact hnode.calls r hr q hq
      · obtain ⟨e, -, heq⟩ := List.mem_filterMap.mp hr
        cases e with
        | replicator peer leaderTerm =>
            simp only [Cluster.replicatorOf, Option.dite_none_right_eq_some,
              Option.some.injEq] at heq
            obtain ⟨hlt, rfl⟩ := heq
            simp at hq
        | _ => simp [Cluster.replicatorOf] at heq

theorem settle_steady (hsim : Sim c h) {n : RaftNode} (hp : Performs i h (c.raft i) n h')
    (hs : Steady (c.raft i) n) : Sim (c.settle i n) h' := by
  have hnode := hsim.nodes i
  obtain ⟨es, hes, hquiet⟩ := hs.effects
  have hidle : (c.raft i).effects = [] := hnode.idle
  rw [hidle, List.nil_append] at hes
  have hnone : n.effects.filterMap (Cluster.voteCallOf i) = [] := hes ▸ calls_eq_nil hquiet
  refine hsim.settle hp ?_ ?_
  · rw [hnone, List.append_nil]
    exact hnode.distinct
  · rw [hnone, List.append_nil]
    exact hnode.tally.steady (hp.spec hsim.reach).2.1 hs hnode.tracks hp.tracks

theorem sender_term_le (hsim : Sim c h) {q : VoteCall N}
    (hq : q ∈ (c.processes i).voteSenders) : q.args.term ≤ h.term i := by
  obtain ⟨-, l, hbid, -⟩ := (hsim.nodes i).senders q hq
  have hel := ElectionInv.of_reachable hsim.reach
  exact hel.vote_le (hel.bid_vote hbid)

theorem timeout (hsim : Sim c h) (hb : c.TermsBounded) :
    ∃ h', Sim (c.settle i (c.raft i).startElection) h' ∧ ∃ x, NodeSteps x h h' := by
  have hnode := hsim.nodes i
  obtain ⟨g, hg, hterm, hvote⟩ := hnode.tracks.startElection hsim.reach (hb i)
  have hold : ∀ q ∈ (c.processes i).voteSenders, q.args.term < g.term i := by
    intro q hq
    rw [hterm]
    exact Nat.lt_succ_of_le (hsim.sender_term_le hq)
  refine ⟨g, ?_, i, hg.steps⟩
  rcases startElection_calls hnode.tracks.id hnode.tracks.size hnode.idle with
    ⟨hrole, hnone⟩ | ⟨hvotes, hcalls⟩
  · refine hsim.settle hg ?_ fun hc ↦ ?_
    · rw [Cluster.raft, hnone, List.append_nil]
      exact hnode.distinct
    · rw [Cluster.raft, hrole] at hc
      simp at hc
  · have hreq : (c.raft i).stand.voteRequest.term = g.term i := by
      have hstand := (hsim.tracks i).stand hsim.reach (hb i)
      simpa [RaftNode.voteRequest, State.stand, hterm] using hstand.tracks.term
    refine hsim.settle hg ?_ fun _ ↦ ?_
    · rw [Cluster.raft, hcalls]
      exact hnode.distinct.append_election fun q hq ↦ (hold q hq).trans_eq hreq.symm
    · rw [Cluster.raft, hvotes, hcalls]
      rw [← hterm] at hvote
      exact one_le_card_counted hold hvote

/-- A granted vote that completes a majority of counts is backed by a quorum. -/
theorem vote_quorum (hsim : Sim c h) {k j : ℕ} {q : VoteCall N} {reply : RequestVoteReply}
    (hq : (c.processes i).voteSenders[k]? = some q) (hreply : c.voteReplyTo q j = some reply)
    (hrole : (c.raft i).role = .candidate) (hterm : (c.raft i).currentTerm = q.args.term)
    (hgranted : reply.voteGranted = true) :
    (c.raft i).votesReceived + 1 ≤
      (counted h i ((c.processes i).voteSenders.eraseIdx k)).card := by
  have hnode := hsim.nodes i
  have hcur : q.args.term = h.term i := hterm.symm.trans hnode.tracks.term
  have hvote := hsim.wire.voteReplies _ (Cluster.voteReplyTo_mem hreply) hgranted
  rw [(hnode.senders q (List.mem_of_getElem? hq)).1, hcur] at hvote
  have hcard := card_counted_eraseIdx hnode.distinct hq hcur hvote
  have htally := hnode.tally hrole
  exact (Nat.succ_le_succ htally).trans hcard

theorem onVoteReply (hsim : Sim c h) {k j : ℕ} {q : VoteCall N} {reply : RequestVoteReply}
    (hq : (c.processes i).voteSenders[k]? = some q) (hreply : c.voteReplyTo q j = some reply) :
    ∃ h', Performs i h (c.raft i) ((c.raft i).onVoteReply q.args reply) h' := by
  have hnode := hsim.nodes i
  refine hnode.tracks.onVoteReply hsim.reach fun hrole hterm hgranted hwon ↦ ?_
  refine ⟨counted h i ((c.processes i).voteSenders.eraseIdx k), ?_, fun x hx ↦ ?_⟩
  · have hcard := hsim.vote_quorum hq hreply hrole hterm hgranted
    have hle := hwon.trans hcard
    rw [RaftNode.majority, hnode.tracks.size] at hle
    simpa [QuorumSystem.majority] using hle
  · simp only [counted, Finset.mem_filter, Finset.mem_univ, true_and] at hx
    exact hx.1

theorem onAppendReply (hsim : Sim c h) {k j : ℕ} {r : Replicator N} {q : AppendCall N}
    {reply : AppendEntriesReply} (hr : (c.processes i).replicators[k]? = some r)
    (hq : r.waiting = some q) (hreply : c.appendReplyTo q j = some reply) :
    ∃ h', Performs i h (c.raft i)
      ((c.raft i).onAppendReply r.peer r.leaderTerm q.args reply).1 h' := by
  have hnode := hsim.nodes i
  obtain ⟨hterm, hdst⟩ := hnode.calls r (List.mem_of_getElem? hr) q hq
  refine hnode.tracks.onAppendReply hsim.reach hterm fun hsuccess ↦ ?_
  rw [← hdst]
  exact hsim.wire.appendReplies _ (Cluster.appendReplyTo_mem hreply) hsuccess

/-- Whatever part of an operation reaches the disk before a crash is covered by
transitions of its node. -/
theorem operation (hsim : Sim c h) (hsize : N < 2 ^ 32) (hb : c.TermsBounded) {a : Action N}
    {n : RaftNode} (hop : c.operation a = some (i, n)) :
    ∃ h', Performs i h (c.raft i) n h' := by
  cases a with
  | timeout x =>
      simp only [Cluster.operation, Option.ite_none_left_eq_some, Option.some.injEq,
        Prod.mk.injEq] at hop
      obtain ⟨-, rfl, rfl⟩ := hop
      obtain ⟨g, hg, -⟩ := (hsim.tracks x).startElection hsim.reach (hb x)
      exact ⟨g, hg⟩
  | submit x command =>
      simp only [Cluster.operation, Option.some.injEq, Prod.mk.injEq] at hop
      obtain ⟨rfl, rfl⟩ := hop
      obtain ⟨g, hg, -⟩ := (hsim.tracks x).submit hsim.reach command
      exact ⟨g, hg⟩
  | execute x cmd =>
      simp only [Cluster.operation, Option.some.injEq, Prod.mk.injEq] at hop
      obtain ⟨rfl, rfl⟩ := hop
      obtain ⟨g, hg, -⟩ := (hsim.tracks x).submit hsim.reach cmd.encode
      exact ⟨g, hg⟩
  | deliverVote k =>
      simp only [Cluster.operation, Option.bind_eq_bind, Option.bind_eq_some_iff,
        Option.some.injEq, Prod.mk.injEq] at hop
      obtain ⟨q, hq, rfl, rfl⟩ := hop
      obtain ⟨g, hg, -⟩ := (hsim.tracks q.dst).onRequestVote hsim.reach hsize
        (hsim.wire.voteRequests q (List.mem_of_getElem? hq))
      exact ⟨g, hg⟩
  | deliverAppend k =>
      simp only [Cluster.operation, Option.bind_eq_bind, Option.bind_eq_some_iff,
        Option.some.injEq, Prod.mk.injEq] at hop
      obtain ⟨q, hq, rfl, rfl⟩ := hop
      obtain ⟨g, hg, -⟩ := (hsim.tracks q.dst).onAppendEntries hsim.reach
        (hsim.wire.appendRequests q (List.mem_of_getElem? hq))
      exact ⟨g, hg⟩
  | voteReply x k j =>
      simp only [Cluster.operation, Option.bind_eq_bind, Option.bind_eq_some_iff,
        Option.some.injEq, Prod.mk.injEq] at hop
      obtain ⟨q, hq, reply, hreply, rfl, rfl⟩ := hop
      exact hsim.onVoteReply hq hreply
  | appendReply x k j =>
      simp only [Cluster.operation, Option.bind_eq_bind, Option.bind_eq_some_iff,
        Option.some.injEq, Prod.mk.injEq] at hop
      obtain ⟨r, hr, q, hq, reply, hreply, rfl, rfl⟩ := hop
      exact hsim.onAppendReply hr hq hreply
  | _ => simp [Cluster.operation] at hop

theorem submitStep (hsim : Sim c h) (command : Bytes) :
    ∃ h', Sim (c.submitStep i command) h' ∧ NodeSteps i h h' ∧
      (((c.raft i).submit command).2.isLeader = true →
        0 < ((c.raft i).submit command).2.index ∧
        h'.leader ((c.raft i).submit command).2.term = some i ∧
        (h'.chronicle ((c.raft i).submit command).2.term)[
            ((c.raft i).submit command).2.index - 1]? =
          some ⟨((c.raft i).submit command).2.term, command⟩) := by
  obtain ⟨g, hg, hindex⟩ := (hsim.tracks i).submit hsim.reach command
  have hsettle := hsim.settle_steady hg (Steady.submit _ command)
  refine ⟨g, ?_, hg.steps, hindex⟩
  unfold Cluster.submitStep
  dsimp only
  split_ifs with hleader
  · exact hsettle.record (by simp [EventOk]) rfl
  · exact hsettle

theorem executeStep (hsim : Sim c h) (cmd : Command) :
    ∃ h', Sim (c.executeStep i cmd) h' ∧ ∃ x, NodeSteps x h h' := by
  obtain ⟨g, hg, hsteps, hindex⟩ := hsim.submitStep (i := i) cmd.encode
  refine ⟨g, ?_, i, hsteps⟩
  unfold Cluster.executeStep
  dsimp only
  split_ifs with hleader
  · obtain ⟨hpos, hterm, hget⟩ := hindex hleader
    refine hg.setProcess { hg.nodes i with handlers := fun handler hmem ↦ ?_ }
    rcases List.mem_append.mp hmem with hmem | hmem
    · exact (hg.nodes i).handlers handler hmem
    · obtain rfl := List.mem_singleton.mp hmem
      exact ⟨hpos, ⟨i, hterm⟩, hget⟩
  · exact hg.record (by simp [EventOk]) rfl

theorem resumeStep (hsim : Sim c h) (k : ℕ) (handler : Handler) :
    Sim (c.resumeStep i k handler) h := by
  have hnode := hsim.nodes i
  unfold Cluster.resumeStep
  refine record ?_ (by simp [EventOk]) rfl
  refine hsim.setProcess { hnode with handlers := fun handler' hmem ↦ ?_ }
  exact hnode.handlers handler' (List.eraseIdx_subset hmem)

theorem dropReplicator (hsim : Sim c h) (k : ℕ) : Sim (c.dropReplicator i k) h := by
  have hnode := hsim.nodes i
  refine hsim.setProcess { hnode with calls := fun r hr ↦ ?_ }
  exact hnode.calls r (List.eraseIdx_subset hr)

theorem setReplicator (hsim : Sim c h) (k : ℕ) {r : Replicator N}
    (hr : ∀ q, r.waiting = some q → q.args.term = r.leaderTerm ∧ q.dst = r.peer) :
    Sim (c.setReplicator i k r) h := by
  have hnode := hsim.nodes i
  refine hsim.setProcess { hnode with calls := fun r' hr' ↦ ?_ }
  rcases List.mem_or_eq_of_mem_set hr' with hr' | rfl
  · exact hnode.calls r' hr'
  · exact hr

theorem dropVoteSender (hsim : Sim c h) (k : ℕ) : Sim (c.dropVoteSender i k) h := by
  have hnode := hsim.nodes i
  have hsub : (c.processes i).voteSenders.eraseIdx k ⊆ (c.processes i).voteSenders :=
    List.eraseIdx_subset
  refine hsim.setProcess { hnode with
    senders := fun q hq ↦ hnode.senders q (hsub hq)
    distinct := ?_
    tally := hnode.tally.mono (Extends.refl h) rfl hsub }
  exact hnode.distinct.sublist ((List.eraseIdx_sublist _ k).map _)

/-- A leader's request quotes its chronicle. -/
theorem send (hsim : Sim c h) {k : ℕ} {r : Replicator N} {args : AppendEntriesArgs}
    (hrole : (c.raft i).role = .leader) (hcur : (c.raft i).currentTerm = r.leaderTerm)
    (hargs : (c.raft i).buildAppendEntries r.peer r.leaderTerm = some args) :
    Sim { c.setReplicator i k { r with waiting := some ⟨c.nextCall, i, r.peer, args⟩ } with
      appendRequests := c.appendRequests ++ [⟨c.nextCall, i, r.peer, args⟩]
      nextCall := c.nextCall + 1 } h := by
  obtain ⟨hok, hterm⟩ := (hsim.tracks i).buildAppendEntries hrole hcur hargs
  have hset := hsim.setReplicator (i := i) k (r := { r with
    waiting := some ⟨c.nextCall, i, r.peer, args⟩ }) ?_
  · refine { hset with wire := { hset.wire with appendRequests := fun q hq ↦ ?_ } }
    rcases List.mem_append.mp hq with hq | hq
    · exact hset.wire.appendRequests q hq
    · obtain rfl := List.mem_singleton.mp hq
      exact hok
  · intro q hq
    obtain rfl : (⟨c.nextCall, i, r.peer, args⟩ : AppendCall N) = q := by simpa using hq
    exact ⟨hterm, rfl⟩

theorem deliverVoteStep (hsim : Sim c h) (hsize : N < 2 ^ 32) {k : ℕ} {q : VoteCall N}
    (hq : c.voteRequests[k]? = some q) :
    ∃ h', Sim (c.deliverVoteStep k q) h' ∧ ∃ x, NodeSteps x h h' := by
  obtain ⟨g, hg, hgranted⟩ := (hsim.tracks q.dst).onRequestVote hsim.reach hsize
    (hsim.wire.voteRequests q (List.mem_of_getElem? hq))
  have hsettle := hsim.settle_steady hg (Steady.onRequestVote _ q.args)
  refine ⟨g, { hsettle with wire := { hsettle.wire with
    voteRequests := fun q' hq' ↦ ?_, voteReplies := fun r hr hvote ↦ ?_ } },
    q.dst, hg.steps⟩
  · exact hsettle.wire.voteRequests q' (List.eraseIdx_subset hq')
  · rcases List.mem_append.mp hr with hr | hr
    · exact hsettle.wire.voteReplies r hr hvote
    · obtain rfl := List.mem_singleton.mp hr
      exact hgranted hvote

theorem deliverAppendStep (hsim : Sim c h) {k : ℕ} {q : AppendCall N}
    (hq : c.appendRequests[k]? = some q) :
    ∃ h', Sim (c.deliverAppendStep k q) h' ∧ ∃ x, NodeSteps x h h' := by
  obtain ⟨g, hg, hsuccess⟩ := (hsim.tracks q.dst).onAppendEntries hsim.reach
    (hsim.wire.appendRequests q (List.mem_of_getElem? hq))
  have hlog : (c.raft q.dst).log ≠ [] := by simp [(hsim.tracks q.dst).log]
  have hsettle := hsim.settle_steady hg (Steady.onAppendEntries _ hlog q.args)
  refine ⟨g, { hsettle with wire := { hsettle.wire with
    appendRequests := fun q' hq' ↦ ?_, appendReplies := fun r hr hok ↦ ?_ } },
    q.dst, hg.steps⟩
  · exact hsettle.wire.appendRequests q' (List.eraseIdx_subset hq')
  · rcases List.mem_append.mp hr with hr | hr
    · exact hsettle.wire.appendReplies r hr hok
    · obtain rfl := List.mem_singleton.mp hr
      exact hsuccess hok

theorem tally_onVoteReply (hsim : Sim c h) {k j : ℕ} {q : VoteCall N}
    {reply : RequestVoteReply} (hq : (c.processes i).voteSenders[k]? = some q)
    (hreply : c.voteReplyTo q j = some reply)
    (hp : Performs i h (c.raft i) ((c.raft i).onVoteReply q.args reply) h') :
    Tally h' i ((c.raft i).onVoteReply q.args reply)
      ((c.processes i).voteSenders.eraseIdx k) := by
  obtain ⟨-, hext, -⟩ := hp.spec hsim.reach
  have hold : Tally h i (c.raft i) ((c.processes i).voteSenders.eraseIdx k) :=
    (hsim.nodes i).tally.mono (Extends.refl h) rfl List.eraseIdx_subset
  have hkept : (c.raft i).currentTerm = ((c.raft i).onVoteReply q.args reply).currentTerm →
      h'.term i = h.term i := by
    intro hcur
    rw [← hp.tracks.term, ← hcur, (hsim.tracks i).term]
  intro hrole
  rcases (c.raft i).onVoteReply_cases q.args reply with hnode | ⟨-, hnode⟩ |
    ⟨hcand, hcur, hgranted, ⟨-, hnode⟩ | ⟨-, hnode⟩⟩
  · rw [hnode] at hrole hkept ⊢
    exact hold.mono hext (hkept rfl) (List.Subset.refl _) hrole
  · simp [hnode] at hrole
  · rw [hnode] at hkept ⊢
    refine (hsim.vote_quorum hq hreply hcand hcur hgranted).trans ?_
    exact Finset.card_le_card (counted_mono hext (hkept rfl) (List.Subset.refl _))
  · simp [hnode] at hrole

theorem voteReplyStep (hsim : Sim c h) {k j : ℕ} {q : VoteCall N} {reply : RequestVoteReply}
    (hq : (c.processes i).voteSenders[k]? = some q) (hreply : c.voteReplyTo q j = some reply) :
    ∃ h', Sim (c.voteReplyStep i k j q reply) h' ∧ ∃ x, NodeSteps x h h' := by
  obtain ⟨g, hg⟩ := hsim.onVoteReply hq hreply
  have hdrop := hsim.dropVoteSender (i := i) k
  have hprocess : (c.dropVoteSender i k).processes i = { c.processes i with
      voteSenders := (c.processes i).voteSenders.eraseIdx k } := by
    simp [Cluster.dropVoteSender, Cluster.updateProcess]
  obtain ⟨es, hes, hquiet⟩ := onVoteReply_quiet (c.raft i) q.args reply
  have hidle : (c.raft i).effects = [] := (hsim.nodes i).idle
  rw [hidle, List.nil_append] at hes
  have hnone := hes ▸ calls_eq_nil (i := i) hquiet
  have hsettle : Sim ((c.dropVoteSender i k).settle i ((c.raft i).onVoteReply q.args reply)) g := by
    refine hdrop.settle ?_ ?_ ?_
    · rw [Cluster.raft, hprocess]
      exact hg
    · rw [hnone, List.append_nil]
      exact (hdrop.nodes i).distinct
    · rw [hnone, List.append_nil, hprocess]
      exact hsim.tally_onVoteReply hq hreply hg
  refine ⟨g, { hsettle with wire := { hsettle.wire with voteReplies := fun r hr ↦ ?_ } },
    i, hg.steps⟩
  exact hsettle.wire.voteReplies r (List.eraseIdx_subset hr)

theorem appendReplyStep (hsim : Sim c h) {k j : ℕ} {r : Replicator N} {q : AppendCall N}
    {reply : AppendEntriesReply} (hr : (c.processes i).replicators[k]? = some r)
    (hq : r.waiting = some q) (hreply : c.appendReplyTo q j = some reply) :
    ∃ h', Sim (c.appendReplyStep i k j r q reply) h' ∧ ∃ x, NodeSteps x h h' := by
  obtain ⟨g, hg⟩ := hsim.onAppendReply hr hq hreply
  have hsteady := Steady.onAppendReply (c.raft i) r.peer r.leaderTerm q.args reply
  have hretire : ∀ c₁ : Cluster N, Sim c₁ h → c₁.raft i = c.raft i →
      Sim (c₁.settle i ((c.raft i).onAppendReply r.peer r.leaderTerm q.args reply).1) g := by
    intro c₁ hc₁ hraft
    exact hc₁.settle_steady (hraft.symm ▸ hg) (hraft.symm ▸ hsteady)
  have hsettle : Sim ((if ((c.raft i).onAppendReply r.peer r.leaderTerm q.args reply).2 then
      c.setReplicator i k { r with waiting := none } else c.dropReplicator i k).settle i
        ((c.raft i).onAppendReply r.peer r.leaderTerm q.args reply).1) g := by
    apply hretire
    · split_ifs with hgoes
      · exact hsim.setReplicator k (by simp)
      · exact hsim.dropReplicator k
    · split_ifs with hgoes
      · simp [Cluster.raft, Cluster.setReplicator, Cluster.updateProcess]
      · simp [Cluster.raft, Cluster.dropReplicator, Cluster.updateProcess]
  refine ⟨g, { hsettle with wire := { hsettle.wire with appendReplies := fun x hx ↦ ?_ } },
    i, hg.steps⟩
  exact hsettle.wire.appendReplies x (List.eraseIdx_subset hx)

theorem appendFailedStep (hsim : Sim c h) (k : ℕ) (r : Replicator N) :
    Sim (c.appendFailedStep i k r) h := by
  rw [Cluster.appendFailedStep]
  split_ifs with hretired
  · exact hsim.dropReplicator k
  · exact hsim.setReplicator k (by simp)

theorem applyStep (hsim : Sim c h) (idx : ℕ) (entry : LogEntry) :
    Sim (c.applyStep i idx entry) h := by
  have hnode := hsim.nodes i
  unfold Cluster.applyStep
  refine record ?_ (by simp [EventOk]) rfl
  exact hsim.setProcess { hnode with tracks := { hnode.tracks with } }

theorem consume (hsim : Sim c h) (a : Action N) : Sim (c.consume a) h := by
  cases a with
  | deliverVote k =>
      refine { hsim with wire := { hsim.wire with voteRequests := fun q hq ↦ ?_ } }
      exact hsim.wire.voteRequests q (List.eraseIdx_subset hq)
  | deliverAppend k =>
      refine { hsim with wire := { hsim.wire with appendRequests := fun q hq ↦ ?_ } }
      exact hsim.wire.appendRequests q (List.eraseIdx_subset hq)
  | _ => exact hsim

theorem step (hsim : Sim c h) (hsize : N < 2 ^ 32) (hb : c.TermsBounded) {a : Action N}
    (hs : c.step a = some c') : ∃ h', Sim c' h' ∧ ∃ x, NodeSteps x h h' := by
  cases Cluster.outcome hs with
  | timeout y => exact hsim.timeout hb
  | submit y command =>
      obtain ⟨g, hg, hsteps, -⟩ := hsim.submitStep (i := y) command
      exact ⟨g, hg, y, hsteps⟩
  | execute y cmd => exact hsim.executeStep cmd
  | @resume y k handler hmem => exact ⟨h, hsim.resumeStep k handler, y, .refl⟩
  | retire y k => exact ⟨h, hsim.dropReplicator k, y, .refl⟩
  | @send y k r args hrole hterm hargs => exact ⟨h, hsim.send hrole hterm hargs, y, .refl⟩
  | deliverVote hq => exact hsim.deliverVoteStep hsize hq
  | deliverAppend hq => exact hsim.deliverAppendStep hq
  | voteReply hq hreply => exact hsim.voteReplyStep hq hreply
  | voteFailed y k => exact ⟨h, hsim.dropVoteSender k, y, .refl⟩
  | appendReply hr hq hreply => exact hsim.appendReplyStep hr hq hreply
  | appendFailed y k r => exact ⟨h, hsim.appendFailedStep k r, y, .refl⟩
  | @fetch y entry hpending hentry =>
      exact ⟨h, hsim.setProcess { hsim.nodes y with }, y, .refl⟩
  | @apply y idx entry happ => exact ⟨h, hsim.applyStep idx entry, y, .refl⟩
  | stopServer y => exact ⟨h, hsim.setProcess { hsim.nodes y with }, y, .refl⟩
  | stopRaft y =>
      refine ⟨h, hsim.setProcess { hsim.nodes y with tracks := ?_ }, y, .refl⟩
      exact { hsim.tracks y with }
  | crash y => exact ⟨h, hsim.restart (Permits.refl y h), y, .refl⟩
  | @crashDuring a y n m hop =>
      obtain ⟨g, hg⟩ := hsim.operation hsize hb hop
      obtain ⟨g', hg'⟩ := (hsim.performed hg).take m
      exact ⟨g', (hsim.restart hg').consume a, y, hg'.steps⟩

/-- Terms never decrease. -/
theorem term_mono {x : Fin N} (hsim : Sim c h) (hsim' : Sim c' h') (hsteps : NodeSteps x h h')
    (i : Fin N) : (c.raft i).currentTerm ≤ (c'.raft i).currentTerm := by
  obtain ⟨-, hext, -⟩ := hsim.reach.steps_spec hsteps
  rw [(hsim.tracks i).term, (hsim'.tracks i).term]
  exact hext.term_le i

theorem initial (N : ℕ) : Sim (Cluster.initial N) (State.initial (Fin N) LogEntry) where
  reach := .initial
  nodes i := {
    tracks := Tracks.recover (State.initial (Fin N) LogEntry) i
    disk := rfl
    idle := rfl
    senders := by simp [Cluster.initial, Process.boot]
    distinct := by simp [Cluster.initial, Process.boot, Distinct]
    tally := by simp [Cluster.initial, Process.boot, Tally, RaftNode.recover]
    calls := by simp [Cluster.initial, Process.boot]
    handlers := by simp [Cluster.initial, Process.boot] }
  wire := by constructor <;> simp [Cluster.initial]
  trace := by constructor <;> simp [Cluster.initial, elections]

end Sim

namespace Run

variable {ok : Cluster N → Action N → Prop}

theorem size (hrun : Run ok c) : N < 2 ^ 32 := by
  induction hrun with
  | initial _ hsize => exact hsize
  | step _ _ _ _ ih => exact ih

theorem termsBounded (hrun : Run ok c) : c.TermsBounded := by
  cases hrun with
  | initial _ _ =>
      intro i
      simp [Cluster.initial, Cluster.raft, Process.boot, RaftNode.recover, DurableState.empty]
  | step _ _ _ hb => exact hb

/-- Every run has a history. -/
theorem exists_sim (hrun : Run ok c) : ∃ h, Sim c h := by
  induction hrun with
  | initial _ _ => exact ⟨_, Sim.initial N⟩
  | step hrun _ hs _ ih =>
      obtain ⟨h, hsim⟩ := ih
      obtain ⟨h', hsim', -⟩ := hsim.step hrun.size hrun.termsBounded hs
      exact ⟨h', hsim'⟩

/-- A property of a cluster and its history that every step keeps holds in every
run. -/
theorem exists_sim_of_step {P : Cluster N → History N → Prop}
    (hinitial : P (Cluster.initial N) (State.initial (Fin N) LogEntry))
    (hstep : ∀ {c c' : Cluster N} {h h' : History N} {a : Action N} {x : Fin N}, Run ok c →
      Sim c h → P c h → ok c a → c.step a = some c' → Sim c' h' → NodeSteps x h h' → P c' h')
    (hrun : Run ok c) : ∃ h, Sim c h ∧ P c h := by
  induction hrun with
  | initial _ _ => exact ⟨_, Sim.initial N, hinitial⟩
  | step hrun hok hs _ ih =>
      obtain ⟨h, hsim, hp⟩ := ih
      obtain ⟨h', hsim', x, hsteps⟩ := hsim.step hrun.size hrun.termsBounded hs
      exact ⟨h', hsim', hstep hrun hsim hp hok hs hsim' hsteps⟩

end Run

end Dkvs
