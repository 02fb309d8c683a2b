import Dkvs.Commitment.Advance
import Dkvs.Failover.Election
import Dkvs.Replication.Backup

/-!
# Shipping the log of a leader to a majority

A replicator of the leader sends a request, the peer takes it, and the reply comes back:
three steps of the cluster that are one round of an exchange. After enough of them the peer
has the whole log. When a majority has it, the leader has committed it.
-/

namespace Dkvs

open ReplicatedLog

variable {N : ℕ} {M : Finset (Fin N)} {c c' c'' : Cluster N} {h : History N} {x y z : Fin N}
  {n : RaftNode} {t : ℕ} {F L : List LogEntry}

/-! ## One round -/

/-- The applier and the client handlers of node `z` have not moved. -/
structure SameFront (c c' : Cluster N) (z : Fin N) : Prop where
  applying : (c'.processes z).applying = (c.processes z).applying
  waiters : (c'.processes z).waiters = (c.processes z).waiters
  handlers : (c'.processes z).handlers = (c.processes z).handlers
  lastApplied : (c'.raft z).lastApplied = (c.raft z).lastApplied

theorem SameFront.refl (c : Cluster N) (z : Fin N) : SameFront c c z := ⟨rfl, rfl, rfl, rfl⟩

theorem SameFront.trans (h : SameFront c c' z) (h' : SameFront c' c'' z) : SameFront c c'' z :=
  ⟨h'.applying.trans h.applying, h'.waiters.trans h.waiters, h'.handlers.trans h.handlers,
    h'.lastApplied.trans h.lastApplied⟩

/-- The leader `z` and its peer `y`. -/
def Cluster.exchange (c : Cluster N) (z y : Fin N) : Exchange := ⟨c.raft z, c.raft y⟩

/-- A round of an exchange, on the cluster. -/
structure Round (c c' : Cluster N) (z y : Fin N) (t : ℕ) (args : AppendEntriesArgs) : Prop where
  request : (c.raft z).buildAppendEntries y t = some args
  leader : c'.raft z = { ((c.raft z).onAppendReply y t args
    ((c.raft y).onAppendEntries args).2).1 with effects := [] }
  follower : c'.raft y = { ((c.raft y).onAppendEntries args).1 with effects := [] }
  other : ∀ x ≠ z, x ≠ y → c'.processes x = c.processes x
  replicators : (c'.processes z).replicators = (c.processes z).replicators
  front : SameFront c c' z

/-- A reply of the leader's own term changes the indices of its peer and the commit index. -/
theorem RaftNode.onAppendReply_stays {peer leaderTerm : ℕ} {args : AppendEntriesArgs}
    {reply : AppendEntriesReply} (hactive : ¬ n.replicatorRetired leaderTerm)
    (hterm : reply.term = n.currentTerm) : ∃ next found commit es,
      (n.onAppendReply peer leaderTerm args reply).1 = { n with
        nextIndex := next, matchIndex := found, commitIndex := commit, effects := es } ∧
      ∀ x ≠ peer, found.getD x 0 = n.matchIndex.getD x 0 := by
  cases hsuccess : reply.success with
  | true =>
      obtain ⟨commit, es, hnode⟩ := @onAppendReply_accepted n peer _ args _ hactive hterm hsuccess
      refine ⟨_, _, commit, _, hnode, fun x hx ↦ ?_⟩
      rw [List.getD_eq_getElem?_getD, List.getElem?_set_ne (Ne.symm hx),
        ← List.getD_eq_getElem?_getD]
  | false =>
      have hnode := @onAppendReply_rejected n peer _ args _ hactive hterm hsuccess
      exact ⟨_, n.matchIndex, n.commitIndex, n.effects, hnode, fun x _ ↦ rfl⟩

/-- The replicator receives the last reply. -/
theorem Path.reply (hrun : AnyRun c) {k : ℕ} {r : Replicator N} {q : AppendCall N}
    {reply : AppendEntriesReply} {replies : List (AppendCall N × AppendEntriesReply)}
    (hr : (c.processes z).replicators[k]? = some r) (hq : r.waiting = some q)
    (hlast : c.appendReplies = replies ++ [(q, reply)]) (hz : z ∈ M) (hy : r.peer ∈ M)
    (hactive : ¬ (c.raft z).replicatorRetired r.leaderTerm)
    (hterm : reply.term = (c.raft z).currentTerm) :
    ∃ c', Path M c c' ∧
      c'.raft z = { ((c.raft z).onAppendReply r.peer r.leaderTerm q.args reply).1 with
        effects := [] } ∧
      (c'.processes z).replicators =
        (c.processes z).replicators.set k { r with waiting := none } ∧
      SameFront c c' z ∧ ∀ x ≠ z, c'.processes x = c.processes x := by
  obtain ⟨h, hsim⟩ := hrun.exists_sim
  have hto : c.appendReplyTo q replies.length = some reply := by
    simp [Cluster.appendReplyTo, hlast]
  have hs : c.step (.appendReply z k replies.length) =
      some (c.appendReplyStep z k replies.length r q reply) := by
    simp [Cluster.step, hr, hq, hto]
  have hgoes : ((c.raft z).onAppendReply r.peer r.leaderTerm q.args reply).2 = true :=
    RaftNode.onAppendReply_goes_on hactive hterm
  have hspawns := RaftNode.onAppendReply_spawns (N := N) (hsim.nodes z).idle r.peer r.leaderTerm
    q.args reply
  have hself : (c.appendReplyStep z k replies.length r q reply).processes z = { c.processes z with
      raft := { ((c.raft z).onAppendReply r.peer r.leaderTerm q.args reply).1 with effects := [] }
      storage := (c.processes z).storage.performAll
        ((c.raft z).onAppendReply r.peer r.leaderTerm q.args reply).1.effects
      voteSenders := (c.processes z).voteSenders ++
        ((c.raft z).onAppendReply r.peer r.leaderTerm q.args reply).1.effects.filterMap
          (Cluster.voteCallOf z)
      replicators := (c.processes z).replicators.set k { r with waiting := none } } := by
    simp [Cluster.appendReplyStep, hgoes, Cluster.settle_self, Cluster.setReplicator,
      Cluster.updateProcess, hspawns]
  have hother : ∀ x ≠ z, (c.appendReplyStep z k replies.length r q reply).processes x =
      c.processes x := by
    intro x hx
    simp [Cluster.appendReplyStep, hgoes, Cluster.settle_of_ne _ hx, Cluster.setReplicator,
      Cluster.updateProcess, hx]
  have hraft : (c.appendReplyStep z k replies.length r q reply).raft z =
      { ((c.raft z).onAppendReply r.peer r.leaderTerm q.args reply).1 with effects := [] } := by
    rw [Cluster.raft, hself]
  have happlied := (Raises.onAppendReply (c.raft z) r.peer r.leaderTerm q.args reply).lastApplied
  refine ⟨_, Path.single hrun hs ⟨hz, fun r' hr' ↦ ?_⟩ z hother ?_, hraft, by rw [hself],
    ⟨by rw [hself], by rw [hself], by rw [hself], by rw [hraft]; exact happlied⟩, hother⟩
  · obtain rfl : r = r' := Option.some.inj (hr.symm.trans hr')
    exact hy
  · obtain ⟨next, found, commit, es, hnode, -⟩ :=
      RaftNode.onAppendReply_stays (n := c.raft z) hactive hterm
    rw [hraft, hnode]
    exact hrun.termsBounded z

/-- After `advanceCommit` there is nothing left to commit. -/
theorem RaftNode.TermsOrdered.not_committable_advanceCommit (hordered : n.TermsOrdered)
    (hrole : n.role = .leader) (i : ℕ) : ¬ n.advanceCommit.Committable i := by
  rintro ⟨hlast, hlow, hterm, hcount⟩
  have hle : n.Committable i → i ≤ n.advanceCommit.commitIndex := hordered.le_advanceCommit hrole
  rcases n.advanceCommit_cases with hsame | ⟨-, m, -, hmlow, -, -, hmove⟩
  · rw [hsame] at hlast hlow hterm hcount hle
    exact absurd (hle ⟨hlast, hlow, hterm, hcount⟩) (Nat.not_le.mpr hlow)
  · rw [hmove] at hlast hlow hterm hcount hle
    exact absurd (hle ⟨hlast, hmlow.trans hlow, hterm, hcount⟩) (Nat.not_le.mpr hlow)

/-- A reply of the leader's own term keeps the commit index inside the log, and leaves
nothing that could be committed. -/
theorem RaftNode.onAppendReply_settled {peer leaderTerm : ℕ} {args : AppendEntriesArgs}
    {reply : AppendEntriesReply} (hactive : ¬ n.replicatorRetired leaderTerm)
    (hterm : reply.term = n.currentTerm) (hordered : n.TermsOrdered)
    (hle : n.commitIndex ≤ n.lastLogIndex) (hsettled : ∀ i, ¬ n.Committable i) :
    (n.onAppendReply peer leaderTerm args reply).1.commitIndex ≤
        (n.onAppendReply peer leaderTerm args reply).1.lastLogIndex ∧
      ∀ i, ¬ (n.onAppendReply peer leaderTerm args reply).1.Committable i := by
  have hrole := (active_iff.mp hactive).2.1
  unfold onAppendReply
  rw [if_neg hactive, if_neg (by omega), if_pos hterm]
  split_ifs with hsuccess
  · dsimp only
    set m : RaftNode := { n with
      matchIndex := n.matchIndex.set peer
        (max (n.matchIndex.getD peer 0) (args.prevLogIndex + args.entries.length))
      nextIndex := n.nextIndex.set peer
        (max (n.matchIndex.getD peer 0) (args.prevLogIndex + args.entries.length) + 1) } with hm
    have hordered' : m.TermsOrdered := ⟨hordered.ordered, hordered.bounded⟩
    refine ⟨?_, fun i ↦ hordered'.not_committable_advanceCommit hrole i⟩
    rcases m.advanceCommit_le with hsame | hin
    · rw [hsame, lastLogIndex, advanceCommit_log]
      exact hle
    · exact hin
  · exact ⟨hle, hsettled⟩

/-! ## A leader with a log to ship -/

/-- The leader `z` of term `t` has the log `L`. It knows of each node of `M` a part of that
log which the node has, and it has committed whatever it can. -/
structure Shipping (M : Finset (Fin N)) (c : Cluster N) (z : Fin N) (t : ℕ) (L : List LogEntry) :
    Prop where
  run : AnyRun c
  role : (c.raft z).role = .leader
  term : (c.raft z).currentTerm = t
  running : (c.raft z).stopping = false
  sound : (c.processes z).Sound
  mem : z ∈ M
  below : ∀ y ∈ M, (c.raft y).currentTerm ≤ t
  idle : ∀ r ∈ (c.processes z).replicators, r.leaderTerm = t → r.waiting = none
  log : (c.raft z).log = sentinel :: L
  self : (c.raft z).matchIndex.getD z 0 = L.length
  matched_le : ∀ y ∈ M, (c.raft z).matchIndex.getD y 0 ≤ L.length
  agrees : ∀ y ∈ M, y ≠ z → (c.raft y).log.tail.take ((c.raft z).matchIndex.getD y 0) =
    L.take ((c.raft z).matchIndex.getD y 0)
  settled : ∀ i, ¬ (c.raft z).Committable i
  fits : ∀ y ∈ M, y ≠ z → Shippable L

/-- In every run the logs are ordered and match. -/
theorem Sim.termsOrdered (hsim : Sim c h) (x : Fin N) : (c.raft x).TermsOrdered := by
  have hinv := Invariant.of_reachable hsim.reach
  refine ⟨?_, fun e he ↦ ?_⟩
  · rw [(hsim.tracks x).log, List.pairwise_cons]
    refine ⟨fun e _ ↦ Nat.zero_le _, List.pairwise_iff_getElem.mpr fun k k' hk hk' hlt ↦ ?_⟩
    exact hinv.log.term_mono hinv.election (hinv.log.log_sound x) hlt.le
      (List.getElem?_eq_getElem hk) (List.getElem?_eq_getElem hk')
  · rw [(hsim.tracks x).log] at he
    rcases List.mem_cons.mp he with rfl | he
    · exact Nat.zero_le _
    · rw [(hsim.tracks x).term]
      exact hinv.log.log_le he

theorem Sim.logMatching (hsim : Sim c h) (x y : Fin N) : LogMatching (h.log x) (h.log y) := by
  have hinv := Invariant.of_reachable hsim.reach
  intro k e e' he he' hterm
  exact (hinv.log.log_sound x).agree (hinv.log.log_sound y) he he' hterm

namespace Shipping

theorem active (hship : Shipping M c z t L) : ¬ (c.raft z).replicatorRetired t :=
  RaftNode.active_iff.mpr ⟨hship.running, hship.role, hship.term⟩

/-- The exchange with a node of `M` is ready for its next round. -/
theorem ready (hship : Shipping M c z t L) (hy : y ∈ M) (hyz : y ≠ z) :
    ∃ F, Exchange.Ready y t F L (c.exchange z y) ∧ (c.raft y).log = sentinel :: F ∧
      F.Pairwise fun e e' ↦ e.term ≤ e'.term := by
  obtain ⟨h, hsim, hbook⟩ := hship.run.exists_bookkept
  have hnext := (hbook.peers z).next
  have hL : h.log z = L := by
    have hlog := (hsim.tracks z).log
    rw [hship.log] at hlog
    exact (List.cons_injective hlog).symm
  have hF : (c.raft y).log = sentinel :: h.log y := (hsim.tracks y).log
  have hagrees := hship.agrees y hy hyz
  rw [hF, List.tail_cons] at hagrees
  have hordered := (hsim.termsOrdered y).ordered
  rw [hF] at hordered
  refine ⟨h.log y, ⟨hship.active, hship.below y hy, hship.log, hF, ?_, ?_, ?_, hnext.one_le y, ?_,
    hship.matched_le y hy, hagrees⟩, hF, (List.pairwise_cons.mp hordered).2⟩
  · exact hL ▸ hsim.logMatching y z
  · show (y : ℕ) < (c.raft z).nextIndex.length
    rw [hnext.length]
    exact y.isLt
  · show (y : ℕ) < (c.raft z).matchIndex.length
    rw [(hsim.tracks z).matchLength]
    exact y.isLt
  · have hle := hnext.le hship.role y
    rw [hship.log, List.length_cons] at hle
    exact hle

/-- The three steps of a round. -/
theorem exists_round (hship : Shipping M c z t L) (hy : y ∈ M) (hyz : y ≠ z) :
    ∃ c' args, Path M c c' ∧ Round c c' z y t args := by
  obtain ⟨F, hready, hF, -⟩ := hship.ready hy hyz
  obtain ⟨args, hargs, hterm, -⟩ := hready.exists_args
  have hkey := hship.run.staffed z hship.role hship.running y hyz
  rw [hship.term] at hkey
  obtain ⟨r, hmem, hr⟩ := List.mem_map.mp hkey
  obtain ⟨rfl, rfl⟩ : r.peer = y ∧ r.leaderTerm = t := Prod.mk.inj hr
  obtain ⟨k, hk⟩ := List.mem_iff_getElem?.mp hmem
  have hsends : Sends c z k r args := ⟨hk, hship.idle r hmem rfl, hship.active, hargs⟩
  obtain ⟨c₁, hpath₁, hself₁, hother₁, hrequests₁, hreplies₁⟩ :=
    Path.send hship.run hsends hship.mem hy
  have hrun₁ := hpath₁.anyRun hship.run
  have hpeer : c₁.raft r.peer = c.raft r.peer := congrArg Process.raft (hother₁ r.peer hyz)
  have hfull : (c.raft r.peer).log ≠ [] := by simp [hF]
  have hcurrent := RaftNode.onAppendEntries_currentTerm hfull (hready.follows.trans hterm.ge)
  have hbound : r.leaderTerm < 2 ^ 64 - 1 := hship.term ▸ hship.run.termsBounded z
  have hsend : args.Sendable := by
    refine RaftNode.sendable_of_shippable hsends.request ?_
    rw [hship.log, List.tail_cons]
    exact hship.fits r.peer hy hyz
  have hheeded : ((c₁.raft r.peer).onAppendEntries args).1.currentTerm < 2 ^ 64 - 1 := by
    rw [hpeer, hcurrent, hterm]
    exact hbound
  obtain ⟨c₂, hpath₂, hfollower, -, hother₂, hreplies₂⟩ :=
    Path.deliver hrun₁ hrequests₁ hship.mem hy hsend hheeded
  have hrun₂ := hpath₂.anyRun hrun₁
  have hself₂ : c₂.processes z = { c.processes z with
      replicators := (c.processes z).replicators.set k
        { r with waiting := some ⟨c.nextCall, z, r.peer, args⟩ } } :=
    (hother₂ z (Ne.symm hyz)).trans hself₁
  have hraft₂ : c₂.raft z = c.raft z := by rw [Cluster.raft, hself₂]
  obtain ⟨hlt, hget⟩ := List.getElem?_eq_some_iff.mp hk
  have hr₂ : (c₂.processes z).replicators[k]? =
      some { r with waiting := some ⟨c.nextCall, z, r.peer, args⟩ } := by
    rw [hself₂]
    exact List.getElem?_set_self hlt
  obtain ⟨c', hpath', hleader, hthreads, hfront, hother'⟩ :=
    Path.reply hrun₂ hr₂ rfl hreplies₂ hship.mem hy (by rw [hraft₂]; exact hship.active) (by
      rw [hraft₂, RaftNode.onAppendEntries_term, hpeer, hcurrent, hterm, hship.term])
  refine ⟨c', args, (hpath₁.trans hpath₂).trans hpath', hargs, ?_, ?_, ?_, ?_, ?_⟩
  · rw [hleader, hraft₂, hpeer]
  · rw [Cluster.raft, hother' r.peer hyz]
    exact hfollower.trans (by rw [hpeer])
  · intro x hxz hxy
    rw [hother' x hxz, hother₂ x hxy, hother₁ x hxz]
  · rw [hthreads, hself₂]
    dsimp only
    have hsame : { r with waiting := none } = (c.processes z).replicators[k] := by
      rw [hget, ← hsends.idle]
    rw [List.set_set, hsame, List.set_getElem_self]
  · refine SameFront.trans ⟨?_, ?_, ?_, ?_⟩ hfront
    · rw [hself₂]
    · rw [hself₂]
    · rw [hself₂]
    · rw [hraft₂]

end Shipping

namespace Round

variable {args : AppendEntriesArgs}

/-- A round on the cluster is one of the exchange. -/
theorem exchange_eq (hround : Round c c' z y t args) {success : Bool} {s : Exchange}
    (hs : (c.exchange z y).round y t = some (success, s)) :
    c'.exchange z y = ⟨{ s.leader with effects := [] }, { s.follower with effects := [] }⟩ := by
  rw [Exchange.round, show (c.exchange z y).leader = c.raft z from rfl, hround.request] at hs
  obtain ⟨-, rfl⟩ := Prod.mk.inj (Option.some.inj hs)
  rw [Cluster.exchange, hround.leader, hround.follower]
  rfl

/-- The effects of the two nodes play no part in their exchange. -/
theorem ready (hround : Round c c' z y t args) {success : Bool} {s : Exchange}
    (hs : (c.exchange z y).round y t = some (success, s)) (hready : Exchange.Ready y t F L s) :
    Exchange.Ready y t F L (c'.exchange z y) := by
  rw [hround.exchange_eq hs]
  exact { hready with }

/-- The leader has the same log to ship afterwards, and knows as much of the others. -/
theorem shipping (hround : Round c c' z y t args) (hship : Shipping M c z t L)
    (hrun : AnyRun c') (hy : y ∈ M) (hyz : y ≠ z)
    (hready : Exchange.Ready y t F L (c'.exchange z y)) :
    Shipping M c' z t L ∧
      ∀ x ≠ y, (c'.raft z).matchIndex.getD x 0 = (c.raft z).matchIndex.getD x 0 := by
  obtain ⟨h, hsim⟩ := hship.run.exists_sim
  have hlog : (c.raft y).log ≠ [] := by simp [(hsim.tracks y).log]
  obtain ⟨hterm, -⟩ := RaftNode.buildAppendEntries_fields hround.request
  have hheeds := RaftNode.onAppendEntries_currentTerm hlog ((hship.below y hy).trans hterm.ge)
  have hreply : ((c.raft y).onAppendEntries args).2.term = (c.raft z).currentTerm := by
    rw [RaftNode.onAppendEntries_term, hheeds, hterm, hship.term]
  obtain ⟨next, found, commit, es, hnode, hfound⟩ :=
    @RaftNode.onAppendReply_stays (c.raft z) y t args _ hship.active hreply
  obtain ⟨hcommit, hsettled⟩ := @RaftNode.onAppendReply_settled (c.raft z) y t args _
    hship.active hreply (hsim.termsOrdered z) hship.sound.commit_le hship.settled
  have hleader := hround.leader
  have hraft : c'.raft z = { c.raft z with
      nextIndex := next, matchIndex := found, commitIndex := commit, effects := [] } := by
    rw [hleader, hnode]
  have hmatch : ∀ x ≠ y, (c'.raft z).matchIndex.getD x 0 = (c.raft z).matchIndex.getD x 0 := by
    intro x hx
    rw [hraft]
    exact hfound x (Fin.val_injective.ne hx)
  refine ⟨⟨hrun, ?_, ?_, ?_, ?_, hship.mem, fun x hx ↦ ?_, ?_, ?_, ?_, fun x hx ↦ ?_,
    fun x hx hxz ↦ ?_, fun i ↦ ?_, hship.fits⟩, hmatch⟩
  · rw [hraft]
    exact hship.role
  · rw [hraft]
    exact hship.term
  · rw [hraft]
    exact hship.running
  · exact hship.sound.operate (Raises.onAppendReply (c.raft z) y t args _) hleader
      hround.front.applying hcommit
  · by_cases hxy : x = y
    · rw [hxy]
      exact hready.follows
    · by_cases hxz : x = z
      · rw [hxz, hraft]
        exact hship.term.le
      · rw [Cluster.raft, hround.other x hxz hxy]
        exact hship.below x hx
  · rw [hround.replicators]
    exact hship.idle
  · rw [hraft]
    exact hship.log
  · rw [hmatch z (Ne.symm hyz)]
    exact hship.self
  · by_cases hxy : x = y
    · rw [hxy]
      exact hready.matched_le
    · rw [hmatch x hxy]
      exact hship.matched_le x hx
  · by_cases hxy : x = y
    · have hF : (c'.raft y).log = sentinel :: F := hready.follower_log
      rw [hxy, hF]
      exact hready.agrees
    · have hlog' := congrArg (fun p : Process N ↦ p.raft.log) (hround.other x hxz hxy)
      rw [hmatch x hxy, show (c'.raft x).log = (c.raft x).log from hlog']
      exact hship.agrees x hx hxz
  · rw [hleader]
    exact hsettled i

end Round

/-- The nodes of `M` have moved on to `c'`, where the leader has the same log to ship and
knows as much of all nodes but `y`. -/
structure Ships (M : Finset (Fin N)) (c c' : Cluster N) (z y : Fin N) (t : ℕ)
    (L : List LogEntry) : Prop where
  path : Path M c c'
  ship : Shipping M c' z t L
  front : SameFront c c' z
  same : ∀ x ≠ y, (c'.raft z).matchIndex.getD x 0 = (c.raft z).matchIndex.getD x 0

theorem Ships.trans (h : Ships M c c' z y t L) (h' : Ships M c' c'' z y t L) :
    Ships M c c'' z y t L :=
  ⟨h.path.trans h'.path, h'.ship, h.front.trans h'.front,
    fun x hx ↦ (h'.same x hx).trans (h.same x hx)⟩

namespace Shipping

/-- The next round with a node of `M` is refused and goes back, or it is accepted and
continues behind the match. -/
theorem next_round (hship : Shipping M c z t L) (hy : y ∈ M) (hyz : y ≠ z) :
    ∃ c', Ships M c c' z y t L ∧
      ((c'.raft y).log = (c.raft y).log ∧
          (c.exchange z y).next y ≠ (c.exchange z y).matched y + 1 ∧
          backlog (c.raft y).log.tail ((c'.exchange z y).next y - 1) <
            backlog (c.raft y).log.tail ((c.exchange z y).next y - 1) ∨
        (c'.exchange z y).matched y = max ((c.exchange z y).matched y)
            (min L.length ((c.exchange z y).next y - 1 + kMaxBatch)) ∧
          (c'.exchange z y).next y = (c'.exchange z y).matched y + 1) := by
  obtain ⟨F, hready, hF, hsorted⟩ := hship.ready hy hyz
  obtain ⟨c', args, hpath, hround⟩ := hship.exists_round hy hyz
  have hrun := hpath.anyRun hship.run
  obtain ⟨s, hs, hready', hdiffer, -, hless⟩ | ⟨s, F', hs, hready', hmatched, hnext⟩ :=
    hready.round_cases
  · obtain ⟨hship', hsame⟩ := hround.shipping hship hrun hy hyz (hround.ready hs hready')
    refine ⟨c', ⟨hpath, hship', hround.front, hsame⟩, Or.inl ⟨?_, fun hnext ↦ ?_, ?_⟩⟩
    · exact (hround.ready hs hready').follower_log.trans hF.symm
    · rw [hnext, Nat.add_sub_cancel] at hdiffer
      exact hdiffer hready.agrees
    · rw [hF, List.tail_cons, hround.exchange_eq hs]
      exact hless hsorted
  · obtain ⟨hship', hsame⟩ := hround.shipping hship hrun hy hyz (hround.ready hs hready')
    refine ⟨c', ⟨hpath, hship', hround.front, hsame⟩, Or.inr ?_⟩
    rw [hround.exchange_eq hs]
    exact ⟨hmatched, hnext⟩

/-- From behind its match a replicator ships the rest. -/
theorem ship_rest (hship : Shipping M c z t L) (hy : y ∈ M) (hyz : y ≠ z)
    (hnext : (c.exchange z y).next y = (c.exchange z y).matched y + 1) :
    ∃ c', Ships M c c' z y t L ∧ (c'.raft z).matchIndex.getD y 0 = L.length := by
  induction hm : L.length - (c.exchange z y).matched y using Nat.strong_induction_on
    generalizing c with
  | _ m ih =>
      have hle : (c.exchange z y).matched y ≤ L.length := hship.matched_le y hy
      obtain ⟨c₁, hships, ⟨-, hne, -⟩ | ⟨hmatched, hnext₁⟩⟩ := hship.next_round hy hyz
      · exact absurd hnext hne
      · rw [hnext, Nat.add_sub_cancel, kMaxBatch] at hmatched
        by_cases hdone : (c₁.exchange z y).matched y = L.length
        · exact ⟨c₁, hships, hdone⟩
        · obtain ⟨c', hships', hall⟩ := ih _ (by omega) hships.ship hnext₁ rfl
          exact ⟨c', hships.trans hships', hall⟩

/-- After the refusals, as many as the backlog at most, the first request is accepted. -/
theorem catch_up (hship : Shipping M c z t L) (hy : y ∈ M) (hyz : y ≠ z) :
    ∃ c', Ships M c c' z y t L ∧ (c'.raft z).matchIndex.getD y 0 = L.length := by
  induction hm : backlog (c.raft y).log.tail ((c.exchange z y).next y - 1)
    using Nat.strong_induction_on generalizing c with
  | _ m ih =>
      obtain ⟨c₁, hships, ⟨hlog, -, hless⟩ | ⟨-, hnext⟩⟩ := hship.next_round hy hyz
      · rw [hm] at hless
        obtain ⟨c', hships', hall⟩ := ih _ hless hships.ship (by rw [hlog])
        exact ⟨c', hships.trans hships', hall⟩
      · obtain ⟨c', hships', hall⟩ := hships.ship.ship_rest hy hyz hnext
        exact ⟨c', hships.trans hships', hall⟩

/-- One node after the other catches up. -/
theorem ship_all (hship : Shipping M c z t L) {S : Finset (Fin N)} (hS : S ⊆ M) :
    ∃ c', Path M c c' ∧ Shipping M c' z t L ∧ SameFront c c' z ∧
      ∀ y ∈ S, (c'.raft z).matchIndex.getD y 0 = L.length := by
  induction S using Finset.induction_on with
  | empty => exact ⟨c, .refl, hship, .refl c z, by simp⟩
  | insert y S hy ih =>
      obtain ⟨hyM, hS⟩ := Finset.insert_subset_iff.mp hS
      obtain ⟨c₁, hpath, hship₁, hfront, hall⟩ := ih hS
      by_cases hyz : y = z
      · refine ⟨c₁, hpath, hship₁, hfront, fun x hx ↦ ?_⟩
        rcases Finset.mem_insert.mp hx with rfl | hx
        · rw [hyz]
          exact hship₁.self
        · exact hall x hx
      · obtain ⟨c', hships, hdone⟩ := hship₁.catch_up hyM hyz
        refine ⟨c', hpath.trans hships.path, hships.ship, hfront.trans hships.front,
          fun x hx ↦ ?_⟩
        rcases Finset.mem_insert.mp hx with rfl | hx
        · exact hdone
        · have hne : x ≠ y := fun heq ↦ hy (heq ▸ hx)
          rw [hships.same x hne]
          exact hall x hx

/-- What a majority has is committed, with an entry of the leader's term at its end. -/
theorem committed (hship : Shipping M c z t L) (hM : N < 2 * M.card)
    (hlast : (c.raft z).termAt L.length = t)
    (hall : ∀ y ∈ M, (c.raft z).matchIndex.getD y 0 = L.length) :
    (c.raft z).commitIndex = L.length := by
  obtain ⟨h, hsim⟩ := hship.run.exists_sim
  have hlength : (c.raft z).lastLogIndex = L.length := RaftNode.lastLogIndex_of_log hship.log
  have hle : (c.raft z).commitIndex ≤ L.length := hship.sound.commit_le.trans hlength.le
  by_contra hne
  refine hship.settled L.length ⟨hlength.ge, by omega, hlast.trans hship.term.symm, ?_⟩
  rw [RaftNode.majority, RaftNode.replicas, (hsim.tracks z).size, countP_range_eq_card]
  have hsub : M ⊆ Finset.univ.filter fun x : Fin N ↦
      decide (L.length ≤ (c.raft z).matchIndex.getD x 0) = true := by
    intro x hx
    rw [Finset.mem_filter, hall x hx]
    exact ⟨Finset.mem_univ x, decide_eq_true le_rfl⟩
  have hcard := Finset.card_le_card hsub
  omega

end Shipping

end Dkvs
