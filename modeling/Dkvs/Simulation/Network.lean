import Dkvs.Simulation.Tally

/-!
# The simulation invariant

A cluster is related to a history when every process agrees with it, every
message in flight tells the truth about it, and every recorded election and
commit is part of it. Each action of the cluster extends the history.
-/

namespace Dkvs

open ReplicatedLog

variable {N : ℕ} {h h' : History N} {i : Fin N} {c c' : Cluster N}

/-- The command of a parked handler sits where `submit` said. -/
def HandlerOk (h : History N) (handler : Handler) : Prop :=
  0 < handler.index ∧ (∃ x, h.leader handler.term = some x) ∧
    (h.chronicle handler.term)[handler.index - 1]? = some ⟨handler.term, handler.cmd.encode⟩

structure NodeSim (h : History N) (i : Fin N) (p : Process N) : Prop where
  tracks : Tracks h i p.raft
  disk : p.storage = durable h i
  idle : p.raft.effects = []
  senders : ∀ q ∈ p.voteSenders, q.src = i ∧ VoteRequestOk h i q.args
  distinct : Distinct p.voteSenders
  tally : Tally h i p.raft p.voteSenders
  calls : ∀ r ∈ p.replicators, ∀ q, r.waiting = some q →
    q.args.term = r.leaderTerm ∧ q.dst = r.peer
  handlers : ∀ handler ∈ p.handlers, HandlerOk h handler

structure WireSim (h : History N) (c : Cluster N) : Prop where
  voteRequests : ∀ q ∈ c.voteRequests, VoteRequestOk h q.src q.args
  voteReplies : ∀ r ∈ c.voteReplies, r.2.voteGranted = true →
    h.vote r.1.dst r.1.args.term = some r.1.src
  appendRequests : ∀ q ∈ c.appendRequests, AppendRequestOk h q.src q.args
  appendReplies : ∀ r ∈ c.appendReplies, r.2.success = true →
    r.1.args.prevLogIndex + r.1.args.entries.length ≤ h.ack r.1.dst r.1.args.term

def EventOk (h : History N) : Event N → Prop
  | .becomeLeader node term log => Witnessed h node (.becomeLeader term log)
  | .advanceCommit node term index log => Witnessed h node (.advanceCommit term index log)
  | _ => True

/-- The terms in which some node entered `becomeLeader`, in order. -/
def elections (trace : List (Event N)) : List ℕ :=
  trace.filterMap fun
    | .becomeLeader _ term _ => some term
    | _ => none

@[simp] theorem elections_append (trace events : List (Event N)) :
    elections (trace ++ events) = elections trace ++ elections events := by
  simp [elections]

structure TraceSim (h : History N) (trace : List (Event N)) : Prop where
  events : ∀ e ∈ trace, EventOk h e
  once : (elections trace).Nodup

structure Sim (c : Cluster N) (h : History N) : Prop where
  reach : ReachableHistory h
  nodes : ∀ i, NodeSim h i (c.processes i)
  wire : WireSim h c
  trace : TraceSim h c.trace

theorem HandlerOk.mono {handler : Handler} (hok : HandlerOk h handler) (hext : Extends h h') :
    HandlerOk h' handler := by
  obtain ⟨hpos, ⟨x, hx⟩, hget⟩ := hok
  exact ⟨hpos, ⟨x, hext.leader hx⟩, getElem?_of_isPrefix (hext.chronicle hx) hget⟩

theorem NodeSim.frame {j : Fin N} {p : Process N} (hp : NodeSim h i p) (hne : i ≠ j)
    (hf : Frame j h h') (hext : Extends h h') : NodeSim h' i p where
  tracks := hp.tracks.frame hne hf hext
  disk := by rw [hp.disk, durable, durable, hf.term hne, hf.vote hne, hf.log hne]
  idle := hp.idle
  senders q hq := ⟨(hp.senders q hq).1, (hp.senders q hq).2.mono hext⟩
  distinct := hp.distinct
  tally := hp.tally.mono hext (hf.term hne) (List.Subset.refl _)
  calls := hp.calls
  handlers handler hmem := (hp.handlers handler hmem).mono hext

theorem WireSim.mono (hw : WireSim h c) (hext : Extends h h') : WireSim h' c where
  voteRequests q hq := (hw.voteRequests q hq).mono hext
  voteReplies r hr hgranted := hext.vote (hw.voteReplies r hr hgranted)
  appendRequests q hq := (hw.appendRequests q hq).mono hext
  appendReplies r hr hsuccess := (hw.appendReplies r hr hsuccess).trans (hext.ack_le _ _)

theorem EventOk.mono {e : Event N} (hr : ReachableHistory h) (hok : EventOk h e)
    (hext : Extends h h') : EventOk h' e := by
  cases e with
  | becomeLeader node term log =>
      exact Witnessed.mono (i := node) (e := .becomeLeader term log) hr hext hok
  | advanceCommit node term index log =>
      exact Witnessed.mono (i := node) (e := .advanceCommit term index log) hr hext hok
  | submitted node index term command => trivial
  | applied node index term command => trivial
  | answered node handler response => trivial
  | refused node cmd response => trivial

/-- An event that is no election and no commit says nothing about the history. -/
theorem TraceSim.record {trace events : List (Event N)} (ht : TraceSim h trace)
    (hevents : ∀ e ∈ events, EventOk h e) (hnone : elections events = []) :
    TraceSim h (trace ++ events) := by
  refine ⟨fun e he ↦ ?_, ?_⟩
  · rcases List.mem_append.mp he with he | he
    · exact ht.events e he
    · exact hevents e he
  · rw [elections_append, hnone, List.append_nil]
    exact ht.once

/-! ## The events of one operation -/

theorem Permits.eventOk {es : List Effect} (hr : ReachableHistory h) (hp : Permits i h es h') :
    ∀ e ∈ es.filterMap (Cluster.eventOf i), EventOk h' e := by
  intro e he
  obtain ⟨effect, hmem, heq⟩ := List.mem_filterMap.mp he
  have hw := hp.witnessed hr effect hmem
  cases effect with
  | becomeLeader term log =>
      obtain rfl : Event.becomeLeader i term log = e := by simpa [Cluster.eventOf] using heq
      exact hw
  | advanceCommit term index log =>
      obtain rfl : Event.advanceCommit i term index log = e := by
        simpa [Cluster.eventOf] using heq
      exact hw
  | saveMeta currentTerm votedFor => simp [Cluster.eventOf] at heq
  | append entry => simp [Cluster.eventOf] at heq
  | truncateFrom fromIndex => simp [Cluster.eventOf] at heq
  | voteSender peer args => simp [Cluster.eventOf] at heq
  | replicator peer leaderTerm => simp [Cluster.eventOf] at heq
  | notify cv => simp [Cluster.eventOf] at heq

/-- An operation takes office only in terms that had no leader, and in each of
them once. -/
theorem Permits.elections_fresh {es : List Effect} (hr : ReachableHistory h)
    (hp : Permits i h es h') :
    (elections (es.filterMap (Cluster.eventOf i))).Nodup ∧
      ∀ t ∈ elections (es.filterMap (Cluster.eventOf i)), h.leader t = none := by
  induction hp with
  | done _ _ => simp [elections]
  | @cons h g _ e es ha hp ih =>
      have hrg := hr.steps ha.steps
      obtain ⟨hnodup, hfresh⟩ := ih hrg
      obtain ⟨-, hext, -⟩ := hr.steps_spec ha.steps
      have hold : ∀ t, g.leader t = none → h.leader t = none := by
        intro t hnone
        cases hl : h.leader t with
        | none => rfl
        | some x => rw [hext.leader hl] at hnone; exact hnone
      by_cases hlead : ∃ term log, e = .becomeLeader term log
      · obtain ⟨term, log, rfl⟩ := hlead
        have hcons : elections ((Effect.becomeLeader term log :: es).filterMap
            (Cluster.eventOf i)) = term :: elections (es.filterMap (Cluster.eventOf i)) := rfl
        rw [hcons]
        refine ⟨List.nodup_cons.mpr ⟨fun hmem ↦ ?_, hnodup⟩, ?_⟩
        · have hnone := hfresh term hmem
          rw [ha.witnessed.1] at hnone
          exact Option.some_ne_none i hnone
        · intro t ht
          rcases List.mem_cons.mp ht with rfl | ht
          · exact ha.fresh rfl
          · exact hold t (hfresh t ht)
      · have hskip : elections ((e :: es).filterMap (Cluster.eventOf i)) =
            elections (es.filterMap (Cluster.eventOf i)) := by
          cases e with
          | becomeLeader term log => exact (hlead ⟨term, log, rfl⟩).elim
          | _ => rfl
        rw [hskip]
        exact ⟨hnodup, fun t ht ↦ hold t (hfresh t ht)⟩

theorem TraceSim.advance {trace : List (Event N)} {es : List Effect} (ht : TraceSim h trace)
    (hr : ReachableHistory h) (hp : Permits i h es h') :
    TraceSim h' (trace ++ es.filterMap (Cluster.eventOf i)) := by
  obtain ⟨-, hext, -⟩ := hp.spec hr
  obtain ⟨hnodup, hfresh⟩ := hp.elections_fresh hr
  refine ⟨fun e he ↦ ?_, ?_⟩
  · rcases List.mem_append.mp he with he | he
    · exact (ht.events e he).mono hr hext
    · exact hp.eventOk hr e he
  · rw [elections_append]
    refine ht.once.append hnodup fun t hold hnew ↦ ?_
    obtain ⟨e, he, heq⟩ := List.mem_filterMap.mp hold
    have hok := ht.events e he
    cases e with
    | becomeLeader node term log =>
        obtain rfl : term = t := by simpa using heq
        have hnone := hfresh term hnew
        rw [hok.1] at hnone
        exact Option.some_ne_none node hnone
    | _ => simp at heq

end Dkvs
