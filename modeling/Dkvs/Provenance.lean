import Dkvs.Moves
import Dkvs.Replication.Merge
import Dkvs.Storage.Node

/-!
# Where the entries of a log come from

Entries are written by leaders only: the no-op of a new term, and the commands that are
submitted to a leader. Followers and requests carry them on at the same index. What holds
of every entry when it is written therefore holds of every entry on a disk, in memory and
on the wire, also when a process dies between two writes of one operation.
-/

namespace Dkvs

open ReplicatedLog

variable {N : ℕ} {c c' : Cluster N} {h : History N} {i : Fin N} {P P' : ℕ → LogEntry → Prop}
  {l : List LogEntry} {es fs : List Effect} {d : DurableState} {n : RaftNode}

/-- Every entry of a log without sentinel satisfies `P` at its index. -/
def Holds (P : ℕ → LogEntry → Prop) (l : List LogEntry) : Prop :=
  ∀ ⦃k e⦄, l[k]? = some e → P (k + 1) e

namespace Holds

theorem mono (hl : Holds P l) (hP : ∀ k e, P k e → P' k e) : Holds P' l :=
  fun _ _ hget ↦ hP _ _ (hl hget)

theorem append {l' : List LogEntry} (hl : Holds P l)
    (hl' : ∀ ⦃k e⦄, l'[k]? = some e → P (l.length + k + 1) e) : Holds P (l ++ l') := by
  intro k e hget
  rcases Nat.lt_or_ge k l.length with hk | hk
  · rw [List.getElem?_append_left hk] at hget
    exact hl hget
  · rw [List.getElem?_append_right hk] at hget
    have hnew := hl' hget
    rwa [Nat.add_sub_cancel' hk] at hnew

theorem concat (hl : Holds P l) {e : LogEntry} (he : P (l.length + 1) e) : Holds P (l ++ [e]) := by
  refine hl.append fun k e' hget ↦ ?_
  cases k with
  | zero => exact Option.some.inj hget ▸ he
  | succ k => simp at hget

end Holds

/-! ## Operations that write at most one entry -/

/-- The one entry, if any, that the effects write. -/
inductive Writes : List Effect → Option LogEntry → Prop
  | nothing {es : List Effect} (hes : Unwritten es) : Writes es none
  | entry {es fs : List Effect} (hes : Unwritten es) (e : LogEntry) (hfs : Unwritten fs) :
      Writes (es ++ .append e :: fs) (some e)

namespace Writes

variable {written : Option LogEntry}

theorem prepend (hes : Unwritten es) (hfs : Writes fs written) : Writes (es ++ fs) written := by
  cases hfs with
  | nothing hfs => exact .nothing (hes.append hfs)
  | entry hfront e hback =>
      rw [← List.append_assoc]
      exact .entry (hes.append hfront) e hback

theorem append (hes : Writes es written) (hfs : Unwritten fs) : Writes (es ++ fs) written := by
  cases hes with
  | nothing hes => exact .nothing (hes.append hfs)
  | entry hfront e hback =>
      rw [List.append_assoc, List.cons_append]
      exact .entry hfront e (hback.append hfs)

/-- Whatever part of the effects reaches the disk, the entries there are the old ones or
the old ones and the new one. -/
theorem holds (hes : Writes es written) (hd : Holds P d.entries)
    (hnew : ∀ e ∈ written, P (d.entries.length + 1) e) (m : ℕ) :
    Holds P (d.performAll (es.take m)).entries := by
  cases hes with
  | nothing hes =>
      rw [(hes.take m).entries]
      exact hd
  | @entry front back hfront e hback =>
      rw [List.take_append, DurableState.performAll_append]
      have hkept := (hfront.take m).entries d
      rcases Nat.eq_zero_or_pos (m - front.length) with hzero | hpos
      · rw [hzero, List.take_zero]
        exact hkept.symm ▸ hd
      · obtain ⟨j, hj⟩ := Nat.exists_eq_succ_of_ne_zero hpos.ne'
        rw [hj, List.take_succ_cons]
        have hrest := (hback.take j).entries
          ((d.performAll (front.take m)).perform (.append e))
        have hlast : ((d.performAll (front.take m)).perform (.append e)).entries =
            d.entries ++ [e] := by
          rw [DurableState.perform, hkept]
        rw [hlast] at hrest
        rw [DurableState.performAll, List.foldl_cons, ← DurableState.performAll, hrest]
        exact hd.concat (hnew e rfl)

end Writes

namespace RaftNode

theorem writes_advanceCommit (n : RaftNode) : ∃ es, n.advanceCommit.effects = n.effects ++ es ∧
    Unwritten es := by
  rcases n.advanceCommit_cases with hsame | ⟨-, k, -, -, -, -, hmove⟩
  · exact ⟨[], by rw [hsame, List.append_nil], .nil⟩
  · exact ⟨_, by rw [hmove], by simp [Unwritten, DurableState.perform]⟩

/-- A leader writes an entry of its own. -/
theorem writes_appendOwn (n : RaftNode) (e : LogEntry) :
    ∃ es, (n.push e).countSelf.advanceCommit.effects = n.effects ++ es ∧ Writes es (some e) := by
  obtain ⟨es, hes, hquiet⟩ := (n.push e).countSelf.writes_advanceCommit
  refine ⟨.append e :: es, ?_, .entry .nil e hquiet⟩
  rw [hes]
  simp [countSelf, push, emit]

theorem writes_becomeLeader (n : RaftNode) :
    ∃ es, n.becomeLeader.effects = n.effects ++ es ∧ Writes es (some ⟨n.currentTerm, []⟩) := by
  obtain ⟨es, hes, hwrites⟩ := n.takeOffice.writes_appendOwn ⟨n.currentTerm, []⟩
  have hoffice : Unwritten [.becomeLeader n.currentTerm n.log.tail] := by
    simp [Unwritten, DurableState.perform]
  have hthreads := Unwritten.threads
    (.replicator · (n.takeOffice.push ⟨n.currentTerm, []⟩).countSelf.advanceCommit.currentTerm)
    (fun _ _ ↦ rfl) (n.takeOffice.push ⟨n.currentTerm, []⟩).countSelf.advanceCommit.peers
  refine ⟨_, ?_, (Writes.prepend hoffice hwrites).append hthreads⟩
  rw [becomeLeader, spawn, hes]
  simp [takeOffice, emit]

theorem writes_startElection (n : RaftNode) :
    ∃ es written, n.startElection.effects = n.effects ++ es ∧ Writes es written ∧
      ∀ e ∈ written, e.command = [] := by
  have hsave : Unwritten [.saveMeta n.stand.currentTerm n.stand.votedFor] := by
    simp [Unwritten, DurableState.perform]
  have hstand : n.stand.effects =
      n.effects ++ [.saveMeta n.stand.currentTerm n.stand.votedFor] := rfl
  rcases n.startElection_cases with hwon | hasks
  · obtain ⟨es, hes, hwrites⟩ := n.stand.writes_becomeLeader
    refine ⟨_, _, ?_, hwrites.prepend hsave, by simp⟩
    rw [hwon, hes, hstand, List.append_assoc]
  · have hthreads := Unwritten.threads (.voteSender · n.stand.voteRequest) (fun _ _ ↦ rfl)
      n.stand.peers
    refine ⟨_, none, ?_, .nothing (hsave.append hthreads), by simp⟩
    rw [hasks, spawn, hstand, List.append_assoc]

theorem writes_becomeFollower (n : RaftNode) (t : ℕ) :
    ∃ es, (n.becomeFollower t).effects = n.effects ++ es ∧ Unwritten es := by
  have hnotices := n.notices_retirement.unwritten
  rcases Nat.lt_or_ge n.currentTerm t with ht | ht
  · have hsave : Unwritten [.saveMeta t (-1)] := by simp [Unwritten, DurableState.perform]
    exact ⟨_, by simp [becomeFollower_of_lt ht], hsave.append hnotices⟩
  · exact ⟨_, by rw [becomeFollower_of_le ht], hnotices⟩

theorem writes_onVoteReply (n : RaftNode) (args : RequestVoteArgs) (reply : RequestVoteReply) :
    ∃ es written, (n.onVoteReply args reply).effects = n.effects ++ es ∧ Writes es written ∧
      ∀ e ∈ written, e.command = [] := by
  have hnothing : ∀ {m : RaftNode}, (∃ es, m.effects = n.effects ++ es ∧ Unwritten es) →
      ∃ es written, m.effects = n.effects ++ es ∧ Writes es written ∧
        ∀ e ∈ written, e.command = [] := by
    rintro m ⟨es, hes, hquiet⟩
    exact ⟨es, none, hes, .nothing hquiet, by simp⟩
  rcases n.onVoteReply_cases args reply with hnode | ⟨-, hnode⟩ |
    ⟨-, -, -, ⟨-, hnode⟩ | ⟨-, hnode⟩⟩
  · rw [hnode]
    exact hnothing ⟨[], by simp, .nil⟩
  · rw [hnode]
    exact hnothing (n.writes_becomeFollower reply.term)
  · rw [hnode]
    exact hnothing ⟨[], by simp, .nil⟩
  · rw [hnode]
    obtain ⟨es, hes, hwrites⟩ :=
      { n with votesReceived := n.votesReceived + 1 }.writes_becomeLeader
    exact ⟨es, _, hes, hwrites, by simp⟩

theorem writes_onRequestVote (n : RaftNode) (args : RequestVoteArgs) :
    ∃ es, (n.onRequestVote args).1.effects = n.effects ++ es ∧ Unwritten es := by
  rcases n.onRequestVote_cases args with ⟨-, hsame, -⟩ | ⟨-, m, hm, hcases⟩
  · exact ⟨[], by rw [hsame, List.append_nil], .nil⟩
  · obtain ⟨es, hes, hquiet⟩ : ∃ es, m.effects = n.effects ++ es ∧ Unwritten es := by
      rw [hm]
      split_ifs with hlt
      · exact n.writes_becomeFollower args.term
      · exact ⟨[], by simp, .nil⟩
    rcases hcases with ⟨hnode, -⟩ | ⟨-, -, hnode⟩
    · exact ⟨es, by rw [hnode, hes], hquiet⟩
    · have hvote : Unwritten [.saveMeta m.currentTerm (toInt32 args.candidateId)] := by
        simp [Unwritten, DurableState.perform]
      refine ⟨_, ?_, hquiet.append hvote⟩
      rw [hnode]
      simp [hes]

theorem writes_onAppendReply (n : RaftNode) (peer leaderTerm : ℕ) (args : AppendEntriesArgs)
    (reply : AppendEntriesReply) :
    ∃ es, (n.onAppendReply peer leaderTerm args reply).1.effects = n.effects ++ es ∧
      Unwritten es := by
  rcases n.onAppendReply_cases peer leaderTerm args reply with hnode | ⟨-, hnode⟩ |
    ⟨-, -, ⟨-, next, hnode⟩ | ⟨next, hnode⟩⟩
  · exact ⟨[], by rw [hnode, List.append_nil], .nil⟩
  · rw [hnode]
    exact n.writes_becomeFollower reply.term
  · rw [hnode]
    exact writes_advanceCommit _
  · exact ⟨[], by rw [hnode, List.append_nil], .nil⟩

theorem writes_submit (n : RaftNode) (command : Bytes) :
    ∃ es written, (n.submit command).1.effects = n.effects ++ es ∧ Writes es written ∧
      ∀ e ∈ written, n.role = .leader ∧ (n.submit command).2.isLeader = true ∧
        e = ⟨n.currentTerm, command⟩ := by
  rw [submit]
  split_ifs with hrefuse
  · exact ⟨[], none, by simp, .nothing .nil, by simp⟩
  · obtain ⟨es, hes, hwrites⟩ := n.writes_appendOwn ⟨n.currentTerm, command⟩
    simp only [not_or, not_not] at hrefuse
    refine ⟨_, _, ?_, hwrites.append (Notices.single .replCv).unwritten, by simp [hrefuse.2]⟩
    simp [emit, hes]

end RaftNode

/-! ## Requests -/

theorem agreement_le {log : List LogEntry} {pos : ℕ} (hpos : pos ≤ log.length)
    (entries : List LogEntry) : pos + agreement log pos entries ≤ log.length := by
  induction entries generalizing pos with
  | nil => exact hpos
  | cons e entries ih =>
      rw [agreement]
      split_ifs with hmatch
      · have hnext := @ih (pos + 1) hmatch.1
        omega
      · exact hpos

/-- The entries that a request leaves on disk, complete or not, are old ones or those of
the request at their indices. -/
theorem holds_onAppendEntries (hn : n.Ranged) (hidle : n.effects = [])
    (hlog : Holds P n.log.tail) {args : AppendEntriesArgs}
    (hargs : ∀ ⦃k e⦄, args.entries[k]? = some e → P (args.prevLogIndex + k + 1) e) (m : ℕ) :
    Holds P (n.durable.performAll ((n.onAppendEntries args).1.effects.take m)).entries := by
  have hrefused : ∀ {saves : List Effect}, Unwritten saves →
      (n.onAppendEntries args).1.effects = n.effects ++ saves →
      Holds P (n.durable.performAll ((n.onAppendEntries args).1.effects.take m)).entries := by
    intro saves hsaves heffects
    rw [heffects, hidle, List.nil_append, (hsaves.take m).entries]
    exact hlog
  obtain ⟨saves, hsaves, hheed⟩ := heed_effects n args
  rcases n.onAppendEntries_cases args with ⟨-, hsame, -⟩ | ⟨-, ⟨hnode, -⟩ | ⟨hprev, -, -⟩⟩
  · exact hrefused .nil (by rw [hsame, List.append_nil])
  · exact hrefused hsaves (by rw [hnode, hheed])
  · set pos := args.prevLogIndex + 1 with hpos
    have hin : pos ≤ n.log.length := by
      have hne := List.length_pos_of_ne_nil (show n.log ≠ [] by rw [hn.log_eq]; simp)
      rw [RaftNode.lastLogIndex] at hprev
      omega
    intro k e hget
    rw [← List.getElem?_cons_succ (a := sentinel)] at hget
    rcases onAppendEntries_take hn hidle args m rfl with heq | ⟨j, heq⟩
    · rw [heq, hn.log_eq, List.getElem?_cons_succ] at hget
      exact hlog hget
    · rw [heq, ← hpos] at hget
      by_cases hall : agreement n.log pos args.entries = args.entries.length
      · rw [hall, List.drop_length, List.take_nil, List.append_nil, cutLog, if_pos hall,
          hn.log_eq, List.getElem?_cons_succ] at hget
        exact hlog hget
      · rw [cutLog, if_neg hall] at hget
        have hcut := agreement_le hin args.entries
        have hlen : (n.log.take (pos + agreement n.log pos args.entries)).length =
            pos + agreement n.log pos args.entries := List.length_take_of_le hcut
        rcases Nat.lt_or_ge (k + 1) (pos + agreement n.log pos args.entries) with hk | hk
        · rw [List.getElem?_append_left (by omega), List.getElem?_take_of_lt hk, hn.log_eq,
            List.getElem?_cons_succ] at hget
          exact hlog hget
        · -- a new entry stands as far behind `prevLogIndex` as in the request
          rw [List.getElem?_append_right (by omega), hlen] at hget
          have hold := getElem?_of_isPrefix (List.take_prefix _ _) hget
          rw [List.getElem?_drop] at hold
          have hnew := hargs hold
          rwa [show args.prevLogIndex + (agreement n.log pos args.entries +
            (k + 1 - (pos + agreement n.log pos args.entries))) + 1 = k + 1 by omega] at hnew

/-! ## The cluster -/

/-- The node and the command that an action hands to `submit`. -/
def Action.offer : Action N → Option (Fin N × Bytes)
  | .submit i command => some (i, command)
  | .execute i cmd => some (i, cmd.encode)
  | .crashDuring a _ => a.offer
  | _ => none

/-- All entries on disk and on the wire satisfy `P` at their index. -/
structure Carries (P : ℕ → LogEntry → Prop) (c : Cluster N) : Prop where
  disks : ∀ i, Holds P (c.processes i).storage.entries
  requests : ∀ q ∈ c.appendRequests, ∀ ⦃k e⦄, q.args.entries[k]? = some e →
    P (q.args.prevLogIndex + k + 1) e

/-- Commands that a leader takes satisfy `P` where it puts them. -/
def Offers (P : ℕ → LogEntry → Prop) (c : Cluster N) (a : Action N) : Prop :=
  ∀ ⦃i command⦄, a.offer = some (i, command) → ((c.raft i).submit command).2.isLeader = true →
    P (c.raft i).log.length ⟨(c.raft i).currentTerm, command⟩

theorem Sim.storage_eq (hsim : Sim c h) (i : Fin N) :
    (c.processes i).storage = (c.raft i).durable := by
  have htracks := hsim.tracks i
  rw [(hsim.nodes i).disk, RaftNode.durable, htracks.term, htracks.vote, htracks.log]
  rfl

theorem Sim.ranged (hsim : Sim c h) (hb : c.TermsBounded) (i : Fin N) : (c.raft i).Ranged := by
  have hterm := hb i
  exact ⟨by omega, by rw [(hsim.tracks i).log]; rfl⟩

theorem Sim.log_length (hsim : Sim c h) (i : Fin N) :
    (c.processes i).storage.entries.length + 1 = (c.raft i).log.length := by
  rw [hsim.storage_eq i, RaftNode.durable, (hsim.tracks i).log]
  simp

namespace Carries

theorem mono (hc : Carries P c) (hP : ∀ k e, P k e → P' k e) : Carries P' c :=
  ⟨fun i ↦ (hc.disks i).mono hP, fun q hq _ _ hget ↦ hP _ _ (hc.requests q hq hget)⟩

theorem log (hc : Carries P c) (hsim : Sim c h) (i : Fin N) : Holds P (c.raft i).log.tail := by
  have hdisk := hc.disks i
  rwa [hsim.storage_eq i] at hdisk

/-- What an operation has written when it ends or is cut off. -/
theorem operation (hc : Carries P c) (hsim : Sim c h) (hb : c.TermsBounded)
    (hnoop : ∀ k t, P k ⟨t, []⟩) {a : Action N} (hoffers : Offers P c a)
    (hop : c.operation a = some (i, n)) (m : ℕ) :
    Holds P ((c.processes i).storage.performAll (n.effects.take m)).entries := by
  have hidle : ∀ j, (c.raft j).effects = [] := fun j ↦ (hsim.nodes j).idle
  -- all operations but `onAppendEntries` write one entry at most
  have hone : (∃ es written, n.effects = (c.raft i).effects ++ es ∧ Writes es written ∧
      ∀ e ∈ written, P (c.raft i).log.length e) →
      Holds P ((c.processes i).storage.performAll (n.effects.take m)).entries := by
    rintro ⟨es, written, hes, hwrites, hnew⟩
    rw [hidle i, List.nil_append] at hes
    rw [hes]
    refine hwrites.holds (hc.disks i) (fun e he ↦ ?_) m
    rw [hsim.log_length i]
    exact hnew e he
  have hempty : ∀ e : LogEntry, e.command = [] → P (c.raft i).log.length e := by
    rintro ⟨t, command⟩ rfl
    exact hnoop _ t
  have hsubmit : ∀ {command : Bytes}, a.offer = some (i, command) →
      n = ((c.raft i).submit command).1 →
      Holds P ((c.processes i).storage.performAll (n.effects.take m)).entries := by
    rintro command hoffer rfl
    obtain ⟨es, written, hes, hwrites, hnew⟩ := (c.raft i).writes_submit command
    refine hone ⟨es, written, hes, hwrites, fun e he ↦ ?_⟩
    obtain ⟨-, hleader, rfl⟩ := hnew e he
    exact hoffers hoffer hleader
  cases Cluster.criticalSection hop with
  | timeout _ =>
      obtain ⟨es, written, hes, hwrites, hnew⟩ := (c.raft i).writes_startElection
      exact hone ⟨es, written, hes, hwrites, fun e he ↦ hempty e (hnew e he)⟩
  | submit _ command => exact hsubmit rfl rfl
  | execute _ cmd => exact hsubmit rfl rfl
  | @deliverVote k q hq =>
      obtain ⟨es, hes, hquiet⟩ := (c.raft q.dst).writes_onRequestVote q.args
      exact hone ⟨es, none, hes, .nothing hquiet, by simp⟩
  | @deliverAppend k q hq =>
      rw [hsim.storage_eq q.dst]
      exact holds_onAppendEntries (hsim.ranged hb q.dst) (hidle q.dst) (hc.log hsim q.dst)
        (hc.requests q (List.mem_of_getElem? hq)) m
  | @voteReply _ k j q reply hq hreply =>
      obtain ⟨es, written, hes, hwrites, hnew⟩ := (c.raft i).writes_onVoteReply q.args reply
      exact hone ⟨es, written, hes, hwrites, fun e he ↦ hempty e (hnew e he)⟩
  | @appendReply _ k j r q reply hr hq hreply =>
      obtain ⟨es, hes, hquiet⟩ :=
        (c.raft i).writes_onAppendReply r.peer r.leaderTerm q.args reply
      exact hone ⟨es, none, hes, .nothing hquiet, by simp⟩

end Carries

/-- The disks after a step: one of them has all effects of an operation, or the first of
them if the process dies in it, and the others are as before. -/
def Cluster.Wrote (c : Cluster N) (a : Action N) (c' : Cluster N) : Prop :=
  ∃ b i n m, c.operation b = some (i, n) ∧
    (b = a ∧ m = n.effects.length ∨ a = .crashDuring b m) ∧
    (c'.processes i).storage = (c.processes i).storage.performAll (n.effects.take m) ∧
    ∀ j ≠ i, (c'.processes j).storage = (c.processes j).storage

theorem Cluster.Wrote.all {a : Action N} (hop : c.operation a = some (i, n))
    (hself : (c'.processes i).storage = (c.processes i).storage.performAll n.effects)
    (hother : ∀ j ≠ i, (c'.processes j).storage = (c.processes j).storage) : c.Wrote a c' :=
  ⟨a, i, n, n.effects.length, hop, Or.inl ⟨rfl, rfl⟩, by rw [List.take_length, hself], hother⟩

theorem Cluster.Wrote.of_settle {a : Action N} (hop : c.operation a = some (i, n))
    (hsame : ∀ j, (c'.processes j).storage = ((c.settle i n).processes j).storage) :
    c.Wrote a c' := by
  refine .all hop ?_ fun j hj ↦ ?_
  · rw [hsame, Cluster.settle_self]
  · rw [hsame, Cluster.settle_of_ne c hj]

theorem Cluster.storage_submitStep (c : Cluster N) (i : Fin N) (command : Bytes) (j : Fin N) :
    ((c.submitStep i command).processes j).storage =
      ((c.settle i ((c.raft i).submit command).1).processes j).storage := by
  obtain ⟨-, -, -, hprocesses, -⟩ := Moves.submitStep c i command
  rw [hprocesses]

theorem Cluster.storage_setProcess (c : Cluster N) {p : Process N}
    (hp : p.storage = (c.processes i).storage) (j : Fin N) :
    ((c.setProcess i p).processes j).storage = (c.processes j).storage := by
  by_cases hj : j = i
  · rw [hj, setProcess_self, hp]
  · rw [setProcess_of_ne c hj]

/-- A step writes to one disk at most, and to none if it runs no operation. -/
theorem Cluster.storage_step {a : Action N} (hs : c.step a = some c') :
    c.operation a = none ∧ (∀ j, (c'.processes j).storage = (c.processes j).storage) ∨
      c.Wrote a c' := by
  cases Cluster.outcome hs with
  | timeout i =>
      obtain ⟨⟨x, n⟩, hop, heq⟩ := Option.map_eq_some_iff.mp hs
      exact Or.inr (.of_settle hop fun j ↦ by rw [← heq])
  | submit i command => exact Or.inr (.of_settle rfl (c.storage_submitStep i command))
  | execute i cmd =>
      refine Or.inr (.of_settle rfl fun j ↦ ?_)
      rw [← c.storage_submitStep i cmd.encode]
      unfold Cluster.executeStep
      dsimp only
      split_ifs with hleader
      · refine Cluster.storage_setProcess _ ?_ j
        rfl
      · rfl
  | @deliverVote k q hq =>
      exact Or.inr (.of_settle (by simp [Cluster.operation, hq]) fun j ↦ rfl)
  | @deliverAppend k q hq =>
      exact Or.inr (.of_settle (by simp [Cluster.operation, hq]) fun j ↦ rfl)
  | @voteReply i k j q reply hq hreply =>
      have hop : c.operation (.voteReply i k j) =
          some (i, (c.raft i).onVoteReply q.args reply) := by
        simp [Cluster.operation, hq, hreply]
      refine Or.inr (.all hop ?_ fun x hx ↦ ?_)
      · simp [Cluster.voteReplyStep, Cluster.settle_self, Cluster.dropVoteSender,
          Cluster.updateProcess]
      · simp [Cluster.voteReplyStep, Cluster.settle_of_ne _ hx, Cluster.dropVoteSender,
          Cluster.updateProcess, hx]
  | @appendReply i k j r q reply hr hq hreply =>
      have hop : c.operation (.appendReply i k j) =
          some (i, ((c.raft i).onAppendReply r.peer r.leaderTerm q.args reply).1) := by
        simp [Cluster.operation, hr, hq, hreply]
      refine Or.inr (.all hop ?_ fun x hx ↦ ?_)
      · unfold Cluster.appendReplyStep
        dsimp only
        split_ifs with hgoes
        · simp [Cluster.settle_self, Cluster.setReplicator, Cluster.updateProcess]
        · simp [Cluster.settle_self, Cluster.dropReplicator, Cluster.updateProcess]
      · unfold Cluster.appendReplyStep
        dsimp only
        split_ifs with hgoes
        · simp [Cluster.settle_of_ne _ hx, Cluster.setReplicator, Cluster.updateProcess, hx]
        · simp [Cluster.settle_of_ne _ hx, Cluster.dropReplicator, Cluster.updateProcess, hx]
  | appendFailed i k r =>
      refine Or.inl ⟨rfl, ?_⟩
      unfold Cluster.appendFailedStep
      split_ifs with hretired
      · exact Cluster.storage_setProcess _ rfl
      · exact Cluster.storage_setProcess _ rfl
  | crash i => exact Or.inl ⟨rfl, Cluster.storage_setProcess c rfl⟩
  | @crashDuring b i n m hop =>
      have hprocesses : ((c.restart i (n.effects.take m)).consume b).processes =
          (c.restart i (n.effects.take m)).processes := by
        cases b with
        | _ => rfl
      refine Or.inr ⟨b, i, n, m, hop, Or.inr rfl, ?_, fun j hj ↦ ?_⟩
      · rw [hprocesses]
        simp [Cluster.restart, Cluster.record, Process.boot]
      · rw [hprocesses]
        simp [Cluster.restart, Cluster.record, hj]
  | _ => exact Or.inl ⟨rfl, Cluster.storage_setProcess c rfl⟩

namespace Carries

/-- What holds of the commands that an action offers holds of all entries after it. -/
theorem step (hc : Carries P c) (hsim : Sim c h) (hb : c.TermsBounded)
    (hnoop : ∀ k t, P k ⟨t, []⟩) {a : Action N} (hoffers : Offers P c a)
    (hs : c.step a = some c') : Carries P c' := by
  refine ⟨fun i ↦ ?_, fun q hq k e hget ↦ ?_⟩
  · rcases Cluster.storage_step hs with ⟨-, hsame⟩ | ⟨b, x, n, m, hop, hpart, hwrote, hother⟩
    · rw [hsame]
      exact hc.disks i
    · by_cases hi : i = x
      · have hoffer : b.offer = a.offer := by
          rcases hpart with ⟨rfl, -⟩ | rfl
          · rfl
          · rfl
        subst hi
        rw [hwrote]
        exact hc.operation hsim hb hnoop (fun _ _ hb' ↦ hoffers (hoffer ▸ hb')) hop m
      · rw [hother i hi]
        exact hc.disks i
  · rcases (Cluster.callsStep hs).requests q hq with hold | ⟨-, x, j, r, args, hsends, rfl⟩
    · exact hc.requests q hold hget
    · -- a new request quotes the leader's log
      have hlog := hsim.ranged hb x
      have hquotes := RaftNode.buildAppendEntries_quotes hlog.log_eq hsends.request
      have hentry := getElem?_of_isPrefix hquotes.entries_isPrefix hget
      rw [List.getElem?_drop] at hentry
      exact hc.log hsim x hentry

theorem initial (P : ℕ → LogEntry → Prop) : Carries P (Cluster.initial N) :=
  ⟨fun _ _ _ hget ↦ by simp [Cluster.initial, Process.boot, DurableState.empty] at hget,
    fun q hq ↦ by simp [Cluster.initial] at hq⟩

end Carries

/-- If leaders are only offered what satisfies `P`, then all entries do, in every state of
a run. -/
theorem Run.carries {ok : Cluster N → Action N → Prop} (hrun : Run ok c)
    (hnoop : ∀ k t, P k ⟨t, []⟩) (hok : ∀ {c a}, ok c a → Offers P c a) : Carries P c := by
  induction hrun with
  | initial _ _ => exact .initial P
  | step hrun hstep hs _ ih =>
      obtain ⟨h, hsim⟩ := hrun.exists_sim
      exact ih.step hsim hrun.termsBounded hnoop (hok hstep) hs

end Dkvs
