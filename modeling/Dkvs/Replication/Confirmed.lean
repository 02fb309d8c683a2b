import Dkvs.ReplicatedLog.Acknowledgement
import Dkvs.Replication.Peers
import Dkvs.Commitment.Safety

/-!
# What the answers of a peer are worth

A leader takes from a success that its peer holds everything the request
covered. The request may have been overtaken by others, its peer may crash and
come back, and replicators of earlier terms may still be at work; none of it
makes the conclusion wrong while the peer stays in the leader's term. From the
first success on, requests continue where the peer has acknowledged, and it can
refuse them only because of a later term.
-/

namespace Dkvs

open ReplicatedLog

variable {N : ℕ} {c c' : Cluster N} {h h' : History N} {i l p x : Fin N} {n : RaftNode} {t : ℕ}

/-- A request that continues what its addressee has acknowledged is accepted,
unless the addressee has gone on to a later term. -/
theorem Tracks.accepts (ht : Tracks h i n) (hr : ReachableHistory h) {src : Fin N}
    {args : AppendEntriesArgs} (hok : AppendRequestOk h src args)
    (hprev : args.prevLogIndex ≤ h.ack i args.term) :
    (n.onAppendEntries args).2.success = true ∨ (n.onAppendEntries args).2.term ≠ args.term := by
  rcases Nat.lt_or_ge args.term n.currentTerm with hlt | hle
  · right
    rw [RaftNode.onAppendEntries_stale hlt]
    exact hlt.ne'
  · left
    have hprevTerm := hok.prev_term
    cases hp : args.prevLogIndex with
    | zero =>
        refine RaftNode.onAppendEntries_success hle (by omega) ?_
        rw [hprevTerm, hp, RaftNode.termAt, ht.log]
        rfl
    | succ k =>
        rw [hp] at hprev hprevTerm
        have hinv := (Invariant.of_reachable hr).ack
        have hterm : h.term i = args.term := by
          have hreached := hinv.term_le (Nat.zero_lt_of_lt hprev)
          rw [ht.term] at hle
          omega
        have hagrees : Agrees h i := hr.agrees i
        have hlen := hinv.ack_le_log hagrees
        rw [Agrees, hterm] at hagrees
        rw [hterm] at hlen
        have hget := getElem?_eq_of_take_eq hagrees hprev
        have hlast : k < (h.log i).length := by omega
        rw [List.getElem?_eq_getElem hlast] at hget
        refine RaftNode.onAppendEntries_success hle ?_ ?_
        · rw [hp, ht.lastLogIndex]
          exact hlast
        · rw [hp, ht.termAt_succ (List.getElem?_eq_getElem hlast), hprevTerm,
            List.getD_cons_succ, List.getD_eq_getElem?_getD, ← hget, Option.getD_some]

/-- The call continues what its addressee has acknowledged and was not refused
in its own term. -/
structure Confirmed (c : Cluster N) (h : History N) (q : AppendCall N) : Prop where
  prev_le : q.args.prevLogIndex ≤ h.ack q.dst q.args.term
  replies : ∀ reply, (q, reply) ∈ c.appendReplies →
    reply.success = true ∨ reply.term ≠ q.args.term

theorem Confirmed.step {q : AppendCall N} (hq : Confirmed c h q) (hsim : Sim c h)
    (hext : Extends h h') (hcalls : CallsStep c c') : Confirmed c' h' q := by
  refine ⟨hq.prev_le.trans (hext.ack_le _ _), fun reply hreply ↦ ?_⟩
  rcases hcalls.replies _ hreply with hold | ⟨hreq, hanswer⟩
  · exact hq.replies reply hold
  · have hok := hsim.wire.appendRequests q hreq
    have haccepts := (hsim.tracks q.dst).accepts hsim.reach hok hq.prev_le
    have hreplied : reply = ((c.raft q.dst).onAppendEntries q.args).2 := hanswer
    rw [hreplied]
    exact haccepts

/-- Node `l` has processed a success of `p` as the leader of the term `t`. -/
structure Guard (c : Cluster N) (h : History N) (l p : Fin N) (t : ℕ) : Prop where
  leader : h.leader t = some l
  term_le : t ≤ (c.raft l).currentTerm
  next_le : (c.raft l).currentTerm = t → (c.raft l).nextIndex.getD p 0 ≤ h.ack p t + 1
  calls : ∀ r ∈ (c.processes l).replicators, r.key = (p, t) → ∀ q, r.waiting = some q →
    Confirmed c h q

namespace Guard

theorem getD_set_cases (next : List ℕ) (peer p : Fin N) (v : ℕ) :
    peer = p ∧ (next.set peer v).getD p 0 ≤ v ∨
      peer ≠ p ∧ (next.set peer v).getD p 0 = next.getD p 0 := by
  rw [List.getD_eq_getElem?_getD, List.getD_eq_getElem?_getD, List.getElem?_set]
  split_ifs with hpeer hlt
  · exact Or.inl ⟨Fin.ext hpeer, le_rfl⟩
  · exact Or.inl ⟨Fin.ext hpeer, Nat.zero_le v⟩
  · exact Or.inr ⟨fun heq ↦ hpeer (congrArg Fin.val heq), rfl⟩

/-- No operation moves the index of the peer beyond its acknowledgements, and
none moves it back. -/
theorem next_of_peerMove (hguard : Guard c h l p t) (hsim : Sim c h) (hmove : PeerMove c l n)
    (hle : (c.raft l).currentTerm ≤ n.currentTerm) (hterm : n.currentTerm = t) :
    n.nextIndex.getD p 0 ≤ h.ack p t + 1 := by
  have hcur : (c.raft l).currentTerm = t := Nat.le_antisymm (hterm ▸ hle) hguard.term_le
  have hnext := hguard.next_le hcur
  cases hmove with
  | keep hsame _ _ _ =>
      rw [hsame]
      exact hnext
  | office _ _ _ _ hfresh =>
      -- a node takes office once in a term
      rcases hfresh with ⟨hrole, -⟩ | hlt
      · have hstands := ((hsim.tracks l).stands hrole).2
        rw [← (hsim.tracks l).term] at hstands
        exact (hstands (hcur ▸ hguard.leader)).elim
      · omega
  | @confirm r q reply hr hq hreply hactive _ hsuccess hset _ _ =>
      have hack := hsim.confirmed_le_ack hr hq hreply hactive hsuccess
      rw [hset]
      rcases getD_set_cases (c.raft l).nextIndex r.peer p (max ((c.raft l).matchIndex.getD r.peer 0)
        (q.args.prevLogIndex + q.args.entries.length) + 1) with ⟨rfl, hnew⟩ | ⟨-, hold⟩
      · rw [hcur] at hack
        omega
      · rw [hold]
        exact hnext
  | @refuse r q reply hr hq hreply hactive hcurrent hfail hset _ _ =>
      rw [hset]
      rcases getD_set_cases (c.raft l).nextIndex r.peer p
        (min (max reply.conflictIndex 1) ((c.raft l).lastLogIndex + 1)) with ⟨hpeer, -⟩ | ⟨-, hold⟩
      · -- the only replicator for the peer waits for a call that is not refused
        obtain ⟨-, -, hoffice⟩ := RaftNode.active_iff.mp hactive
        have hkey : r.key = (p, t) := by rw [Replicator.key, hpeer, ← hoffice, hcur]
        have hargs := ((hsim.nodes l).calls r hr q hq).1
        rcases (hguard.calls r hr hkey q hq).replies reply hreply with hok | hne
        · rw [hfail] at hok
          exact Bool.noConfusion hok
        · exact (hne (by rw [hcurrent, hargs, hoffice])).elim
      · rw [hold]
        exact hnext

theorem calls_of_threads (hguard : Guard c h l p t) {q : AppendCall N}
    {new : List (Replicator N)} (hthreads : Threads (c.processes l).replicators new)
    {r : Replicator N} (hr : r ∈ new) (hkey : r.key = (p, t)) (hq : r.waiting = some q) :
    Confirmed c h q := by
  rcases hthreads.waiting r hr with hold | hnone
  · exact hguard.calls r hold hkey q hq
  · rw [hnone] at hq
    exact (Option.some_ne_none q hq.symm).elim

theorem calls_of_spawned (hguard : Guard c h l p t) {q : AppendCall N}
    {new : List (Replicator N)} (hthreads : Threads (c.processes l).replicators new)
    {es : List Effect} {r : Replicator N} (hr : r ∈ new ++ es.filterMap Cluster.replicatorOf)
    (hkey : r.key = (p, t)) (hq : r.waiting = some q) : Confirmed c h q := by
  rcases List.mem_append.mp hr with hr | hr
  · exact hguard.calls_of_threads hthreads hr hkey hq
  · obtain ⟨e, -, hof⟩ := List.mem_filterMap.mp hr
    rw [(Cluster.replicatorOf_eq_some hof).2] at hq
    exact (Option.some_ne_none q hq.symm).elim

/-- What a replicator sends for the peer continues what the peer has
acknowledged. -/
theorem sent (hguard : Guard c h l p t) (hcalls : CallsOk c) {k : ℕ} {r : Replicator N}
    {args : AppendEntriesArgs} (hsends : Sends c l k r args) (hkey : r.key = (p, t)) :
    Confirmed c h ⟨c.nextCall, l, r.peer, args⟩ := by
  obtain ⟨-, -, hoffice⟩ := RaftNode.active_iff.mp hsends.active
  obtain ⟨rfl, rfl⟩ : r.peer = p ∧ r.leaderTerm = t := Prod.ext_iff.mp hkey
  obtain ⟨hterm, -, hprev⟩ := RaftNode.buildAppendEntries_fields hsends.request
  refine ⟨?_, fun reply hreply ↦ ?_⟩
  · have hnext := hguard.next_le hoffice
    change args.prevLogIndex ≤ h.ack r.peer args.term
    rw [hterm]
    omega
  · exact (Nat.lt_irrefl _ (hcalls.replies _ hreply)).elim

/-- The step runs on the leader itself. -/
theorem move (hguard : Guard c h l p t) (hsim : Sim c h) (hb : c.TermsBounded) (hcalls : CallsOk c)
    {new : Process N} {events : List (Event N)} (hmove : Move c l new events)
    (hle : (c.raft l).currentTerm ≤ new.raft.currentTerm) :
    (new.raft.currentTerm = t → new.raft.nextIndex.getD p 0 ≤ h.ack p t + 1) ∧
      ∀ r ∈ new.replicators, r.key = (p, t) → ∀ q, r.waiting = some q → Confirmed c h q := by
  cases hmove with
  | operate hop _ hthreads _ _ =>
      have hnext := hguard.next_of_peerMove hsim (hop.peerMove hsim hb) hle
      refine ⟨hnext, ?_⟩
      intro r hr hkey q hq
      exact hguard.calls_of_spawned hthreads hr hkey hq
  | @park cmd _ _ _ _ =>
      have hnext := hguard.next_of_peerMove hsim (.submit hsim cmd.encode) hle
      refine ⟨hnext, ?_⟩
      intro r hr hkey q hq
      exact hguard.calls_of_spawned (.refl _) hr hkey hq
  | resume _ => exact ⟨hguard.next_le, hguard.calls⟩
  | threads _ hthreads =>
      refine ⟨hguard.next_le, ?_⟩
      intro r hr hkey q hq
      exact hguard.calls_of_threads hthreads hr hkey hq
  | @send k r args hsends =>
      refine ⟨hguard.next_le, fun r' hr' hkey q hq ↦ ?_⟩
      rcases List.mem_or_eq_of_mem_set hr' with hold | rfl
      · exact hguard.calls r' hold hkey q hq
      · obtain rfl : ⟨c.nextCall, l, r.peer, args⟩ = q := Option.some.inj hq
        exact hguard.sent hcalls hsends hkey
  | fetch _ => exact ⟨hguard.next_le, hguard.calls⟩
  | apply _ => exact ⟨hguard.next_le, hguard.calls⟩
  | stopServer => exact ⟨hguard.next_le, hguard.calls⟩
  | stopRaft => exact ⟨hguard.next_le, hguard.calls⟩
  | restart storage _ =>
      refine ⟨fun _ ↦ ?_, by simp [Process.boot]⟩
      simp [Process.boot, RaftNode.recover, List.getD_eq_getElem?_getD]

theorem step (hguard : Guard c h l p t) (hsim : Sim c h) (hb : c.TermsBounded) (hcalls : CallsOk c)
    (hsim' : Sim c' h') (hsteps : NodeSteps x h h') {a : Action N} (hs : c.step a = some c') :
    Guard c' h' l p t := by
  obtain ⟨-, hext, -⟩ := hsim.reach.steps_spec hsteps
  have hle := hsim.term_mono hsim' hsteps l
  have hcallsStep := Cluster.callsStep hs
  have hmoved : ((c'.raft l).currentTerm = t → (c'.raft l).nextIndex.getD p 0 ≤ h.ack p t + 1) ∧
      ∀ r ∈ (c'.processes l).replicators, r.key = (p, t) → ∀ q, r.waiting = some q →
        Confirmed c h q := by
    obtain ⟨i, events, hm⟩ := Cluster.exists_moves hs
    by_cases hl : l = i
    · subst hl
      exact hguard.move hsim hb hcalls hm.move hle
    · rw [Cluster.raft, hm.other hl]
      exact ⟨hguard.next_le, hguard.calls⟩
  refine ⟨hext.leader hguard.leader, hguard.term_le.trans hle, fun hterm ↦ ?_, ?_⟩
  · exact (hmoved.1 hterm).trans (Nat.succ_le_succ (hext.ack_le p t))
  · intro r hr hkey q hq
    exact (hmoved.2 r hr hkey q hq).step hsim hext hcallsStep

end Guard

/-- The `k`-th replicator of the leader `l` receives a success of `p`. -/
def Cluster.Confirms (c : Cluster N) (l p : Fin N) (k j : ℕ) : Prop :=
  ∃ r q reply, (c.processes l).replicators[k]? = some r ∧ r.peer = p ∧ r.waiting = some q ∧
    c.appendReplyTo q j = some reply ∧ ¬ (c.raft l).replicatorRetired r.leaderTerm ∧
      reply.term = (c.raft l).currentTerm ∧ reply.success = true

theorem Cluster.replicators_appendReplyStep {k j : ℕ} {r : Replicator N} {q : AppendCall N}
    {reply : AppendEntriesReply}
    (hgoes : ((c.raft l).onAppendReply r.peer r.leaderTerm q.args reply).2 = true) :
    ((c.appendReplyStep l k j r q reply).raft l).nextIndex =
        ((c.raft l).onAppendReply r.peer r.leaderTerm q.args reply).1.nextIndex ∧
      (c.processes l).replicators.set k { r with waiting := none } ⊆
        ((c.appendReplyStep l k j r q reply).processes l).replicators := by
  have hself : (c.appendReplyStep l k j r q reply).processes l =
      ((c.setReplicator l k { r with waiting := none }).settle l
        ((c.raft l).onAppendReply r.peer r.leaderTerm q.args reply).1).processes l := by
    unfold Cluster.appendReplyStep
    dsimp only
    rw [if_pos hgoes]
  rw [Cluster.raft, hself, Cluster.settle_self, Cluster.setReplicator, Cluster.updateProcess,
    Cluster.setProcess_self]
  exact ⟨rfl, List.subset_append_left _ _⟩

/-- A success sets the index of the peer behind what it has acknowledged, and
its replicator is between two calls. -/
theorem Guard.of_confirms (hsim : Sim c h) {k j : ℕ}
    (hconfirms : c.Confirms l p k j) (hs : c.step (.appendReply l k j) = some c')
    (hsim' : Sim c' h') (hsteps : NodeSteps x h h') (hbook' : Bookkept c') :
    Guard c' h' l p (c.raft l).currentTerm := by
  obtain ⟨r, q, reply, hr, rfl, hq, hreply, hactive, hterm, hsuccess⟩ := hconfirms
  obtain ⟨-, hrole, hoffice⟩ := RaftNode.active_iff.mp hactive
  obtain ⟨-, hext, -⟩ := hsim.reach.steps_spec hsteps
  obtain rfl : c.appendReplyStep l k j r q reply = c' := by
    simpa [Cluster.step, hr, hq, hreply] using hs
  have hgoes : ((c.raft l).onAppendReply r.peer r.leaderTerm q.args reply).2 = true :=
    RaftNode.onAppendReply_goes_on hactive hterm
  obtain ⟨hnext, hthreads⟩ := Cluster.replicators_appendReplyStep (k := k) (j := j) hgoes
  refine ⟨?_, hsim.term_mono hsim' hsteps l, fun _ ↦ ?_, ?_⟩
  · rw [(hsim.tracks l).term]
    exact hext.leader ((hsim.tracks l).leads hrole).1
  · have hack := hsim.confirmed_le_ack (List.mem_of_getElem? hr) hq
      (Cluster.appendReplyTo_mem hreply) hactive hsuccess
    have hle := hext.ack_le r.peer (c.raft l).currentTerm
    rw [hnext, RaftNode.onAppendReply_success hactive hterm hsuccess]
    rcases getD_set_cases (c.raft l).nextIndex r.peer r.peer (max
      ((c.raft l).matchIndex.getD r.peer 0) (q.args.prevLogIndex + q.args.entries.length) + 1) with
      ⟨-, hnew⟩ | ⟨hne, -⟩
    · omega
    · exact (hne rfl).elim
  · -- the replicator that received the answer is the only one for the peer
    intro r' hr' hkey q' hq'
    obtain ⟨hk, -⟩ := List.getElem?_eq_some_iff.mp hr
    have hmem := hthreads (List.mem_set hk { r with waiting := none })
    have hsame := List.inj_on_of_nodup_map (hbook'.peers l).keys.nodup hr' hmem
      (by rw [hkey, hoffice]; rfl)
    rw [hsame] at hq'
    exact (Option.some_ne_none q' hq'.symm).elim

/-- The request a replicator of the leader sends next is confirmed. -/
theorem Guard.of_sent (hguard : Guard c h l p t) (hcalls : CallsOk c) {k : ℕ}
    (hs : c.step (.send l k) = some c') {q : AppendCall N} (hq : q ∈ c'.appendRequests)
    (hcall : q.call = c.nextCall) (hdst : q.dst = p) (hargs : q.args.term = t) :
    Confirmed c h q := by
  have hnew : q ∉ c.appendRequests := by
    intro hold
    have hlt := (hcalls.requests q hold).1
    omega
  rcases Cluster.send_cases hs with rfl | ⟨r, args, hsends, rfl⟩
  · exact (hnew hq).elim
  · rcases List.mem_append.mp hq with hold | hmem
    · exact (hnew hold).elim
    · obtain rfl := List.mem_singleton.mp hmem
      have hterm := (RaftNode.buildAppendEntries_fields hsends.request).1
      exact hguard.sent hcalls hsends (Prod.ext hdst (hterm.symm.trans hargs))

theorem Continues.exists_guard {ok : Cluster N → Action N → Prop} (hc : Continues ok c c')
    (hrun : Run ok c) (hsim : Sim c h) (hguard : Guard c h l p t) :
    ∃ h', Sim c' h' ∧ Guard c' h' l p t := by
  refine Continues.exists_sim_of_step (P := fun c h ↦ Guard c h l p t) ?_ hrun hsim hguard hc
  intro c₁ c₂ h₁ h₂ a x hrun₁ hsim₁ hguard₁ hs hsim₂ hsteps
  obtain ⟨-, -, hbook⟩ := hrun₁.exists_bookkept
  exact hguard₁.step hsim₁ hrun₁.termsBounded hbook.calls hsim₂ hsteps hs

theorem Continues.exists_confirmed {ok : Cluster N → Action N → Prop} {q : AppendCall N}
    (hc : Continues ok c c') (hrun : Run ok c) (hsim : Sim c h) (hq : Confirmed c h q) :
    ∃ h', Sim c' h' ∧ Confirmed c' h' q := by
  refine Continues.exists_sim_of_step (P := fun c h ↦ Confirmed c h q) ?_ hrun hsim hq hc
  intro c₁ c₂ h₁ h₂ a x _ hsim₁ hconfirmed hs _ hsteps
  obtain ⟨-, hext, -⟩ := hsim₁.reach.steps_spec hsteps
  exact hconfirmed.step hsim₁ hext (Cluster.callsStep hs)

/-- The indices of a leader are in bounds, its peers hold what it believes them
to hold, and a peer that has confirmed once in a term never refuses again in
that term. -/
theorem match_index_sound (hrun : AnyRun c) :
    (∀ l, (c.raft l).role = .leader → ∀ p : Fin N,
      1 ≤ (c.raft l).nextIndex.getD p 0 ∧
        (c.raft l).nextIndex.getD p 0 ≤ (c.raft l).lastLogIndex + 1 ∧
        (c.raft l).matchIndex.getD p 0 ≤ (c.raft l).lastLogIndex ∧
        ((c.raft p).currentTerm = (c.raft l).currentTerm →
          (c.processes p).storage.entries.take ((c.raft l).matchIndex.getD p 0) =
            (c.raft l).log.tail.take ((c.raft l).matchIndex.getD p 0))) ∧
      ∀ {l p : Fin N} {k j k' : ℕ} {c₁ c₂ c₃ c₄ : Cluster N} {q : AppendCall N}
        {reply : AppendEntriesReply}, c.Confirms l p k j →
        c.step (.appendReply l k j) = some c₁ → c₁.TermsBounded →
        Continues (fun _ _ ↦ True) c₁ c₂ → c₂.step (.send l k') = some c₃ → c₃.TermsBounded →
        q ∈ c₃.appendRequests → q.call = c₂.nextCall → q.dst = p →
        q.args.term = (c.raft l).currentTerm → Continues (fun _ _ ↦ True) c₃ c₄ →
        (q, reply) ∈ c₄.appendReplies →
        ¬ (reply.success = false ∧ reply.term = (c.raft l).currentTerm) := by
  obtain ⟨h, hsim, hbook⟩ := hrun.exists_bookkept
  refine ⟨fun l hrole p ↦ ?_, ?_⟩
  · obtain ⟨-, hlog, hmatch⟩ := (hsim.tracks l).leads hrole
    have hack := hmatch p
    have hlast := hsim.ack_le_last hrole p
    have hnext := (hbook.peers l).next
    rw [(hsim.tracks l).term] at hlast
    refine ⟨hnext.one_le p, ?_, hack.trans hlast, fun hterm ↦ ?_⟩
    · rw [(hsim.tracks l).lastLogIndex, ← (hsim.tracks l).log_length]
      exact hnext.le hrole p
    · have hagrees : Agrees h p := hsim.reach.agrees p
      rw [(hsim.tracks p).term, (hsim.tracks l).term] at hterm
      rw [Agrees, hterm] at hagrees
      rw [(hsim.nodes p).disk, (hsim.tracks l).log, List.tail_cons, hlog]
      exact take_eq_of_le hagrees hack
  · rintro l p k j k' c₁ c₂ c₃ c₄ q reply hconfirms hs₁ hb₁ hc₁ hs₃ hb₃ hq hcall hdst hargs hc₃
      hreply ⟨hfail, hterm⟩
    have hrun₁ : AnyRun c₁ := .step hrun trivial hs₁ hb₁
    have hrun₂ := hrun₁.continues hc₁
    have hrun₃ : AnyRun c₃ := .step hrun₂ trivial hs₃ hb₃
    obtain ⟨h₁, hsim₁, x, hsteps⟩ := hsim.step hrun.size hrun.termsBounded hs₁
    have hguard := Guard.of_confirms hsim hconfirms hs₁ hsim₁ hsteps
      (hbook.step hsim hrun.termsBounded hsim₁ hsteps hs₁)
    obtain ⟨h₂, hsim₂, hguard₂⟩ := hc₁.exists_guard hrun₁ hsim₁ hguard
    obtain ⟨-, -, hbook₂⟩ := hrun₂.exists_bookkept
    have hsent := hguard₂.of_sent hbook₂.calls hs₃ hq hcall hdst hargs
    obtain ⟨h₃, hsim₃, y, hsteps₃⟩ := hsim₂.step hrun₂.size hrun₂.termsBounded hs₃
    obtain ⟨-, hext₃, -⟩ := hsim₂.reach.steps_spec hsteps₃
    obtain ⟨h₄, -, hconfirmed⟩ := hc₃.exists_confirmed hrun₃ hsim₃
      (hsent.step hsim₂ hext₃ (Cluster.callsStep hs₃))
    rcases hconfirmed.replies reply hreply with hok | hne
    · rw [hfail] at hok
      exact Bool.noConfusion hok
    · exact hne (hterm.trans hargs.symm)

/-- The first request of a leader that stood with an empty log, and the one that
follows its success. -/
def openingCall : AppendCall 2 := ⟨0, 0, 1, ⟨1, 0, 0, 0, 0, [⟨1, []⟩]⟩⟩

def followingCall : AppendCall 2 := ⟨1, 0, 1, ⟨1, 0, 1, 1, 1, []⟩⟩

theorem match_index_sound_pair : ∃ c c₁ c₃ c₄ : Cluster 2, AnyRun c ∧ (c.raft 0).role = .leader ∧
    c.Confirms 0 1 0 0 ∧ c.step (.appendReply 0 0 0) = some c₁ ∧
    c₁.step (.send 0 0) = some c₃ ∧ followingCall ∈ c₃.appendRequests ∧
    c₃.step (.deliverAppend 0) = some c₄ ∧ (followingCall, ⟨1, true, 0⟩) ∈ c₄.appendReplies ∧
    (c.raft 0).nextIndex.getD 1 0 ≤ (c.raft 0).lastLogIndex + 1 ∧
    ¬ ((true : Bool) = false ∧ 1 = (c.raft 0).currentTerm) := by
  have hplay : ∃ c : Cluster 2, AnyRun c ∧ (c.raft 0).role = .leader ∧
      (c.raft 0).stopping = false ∧ (c.raft 0).currentTerm = 1 ∧
      (c.processes 0).replicators = [⟨1, 1, some openingCall⟩] ∧
      c.appendReplies = [(openingCall, ⟨1, true, 0⟩)] ∧
      (c.step (.appendReply 0 0 0)).any (fun c₁ ↦ c₁.TermsBounded ∧ c₁.nextCall = 1 ∧
        (c₁.step (.send 0 0)).any (fun c₃ ↦ c₃.TermsBounded ∧ followingCall ∈ c₃.appendRequests ∧
          (c₃.step (.deliverAppend 0)).any (fun c₄ ↦ c₄.TermsBounded ∧
            (followingCall, ⟨1, true, 0⟩) ∈ c₄.appendReplies) = true) = true) = true :=
    exists_run_of_play (by decide) (by decide)
      [.timeout 0, .deliverVote 0, .voteReply 0 0 0, .send 0 0, .deliverAppend 0]
      (by decide +kernel)
  obtain ⟨c, hrun, hrole, hstop, hterm, hthreads, hreplies, hrest⟩ := hplay
  simp only [Option.any_eq_true_iff_get, decide_eq_true_eq] at hrest
  obtain ⟨hsome₁, hb₁, hcall, hsome₃, hb₃, hmem, hsome₄, hb₄, hreply⟩ := hrest
  have hs₁ := (Option.some_get hsome₁).symm
  have hs₃ := (Option.some_get hsome₃).symm
  have hs₄ := (Option.some_get hsome₄).symm
  have hconfirms : c.Confirms 0 1 0 0 := by
    refine ⟨⟨1, 1, some openingCall⟩, openingCall, ⟨1, true, 0⟩, ?_, rfl, rfl, ?_, ?_, hterm.symm,
      rfl⟩
    · rw [hthreads]
      rfl
    · rw [Cluster.appendReplyTo, hreplies]
      rfl
    · exact RaftNode.active_iff.mpr ⟨hstop, hrole, hterm⟩
  obtain ⟨hindices, hrefuse⟩ := match_index_sound hrun
  refine ⟨c, _, _, _, hrun, hrole, hconfirms, hs₁, hs₃, hmem, hs₄, hreply,
    (hindices 0 hrole 1).2.1, ?_⟩
  exact hrefuse hconfirms hs₁ hb₁ .refl hs₃ hb₃ hmem hcall.symm rfl hterm.symm
    (.step .refl trivial hs₄ hb₄) hreply

end Dkvs
