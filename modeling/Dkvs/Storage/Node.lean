import Dkvs.Grammar
import Dkvs.Storage.Persists

/-!
# A node and its storage

A node performs operations on messages that it received, may die between two of
them or at any write of one of them, and starts again from its files. In memory
and on disk it always holds the same term, vote and log.
-/

namespace Dkvs

namespace Storage

def durable (s : Storage) : DurableState := ⟨s.currentTerm, s.votedFor, s.entries⟩

/-- The storage call in an effect. -/
def perform (s : Storage) : Effect → Storage
  | .saveMeta currentTerm votedFor => s.saveMeta currentTerm votedFor
  | .append entry => s.append entry
  | .truncateFrom fromIndex => s.truncateFrom fromIndex
  | .becomeLeader _ _ | .advanceCommit _ _ _ | .voteSender _ _ | .replicator _ _
  | .notify _ => s

def performAll (s : Storage) (effects : List Effect) : Storage := effects.foldl perform s

theorem durable_perform (s : Storage) (e : Effect) :
    (s.perform e).durable = s.durable.perform e := by
  cases e with
  | truncateFrom fromIndex =>
      by_cases hout : fromIndex < 1 ∨ s.entries.length < fromIndex
      · simp only [perform, truncateFrom, if_pos hout]
        exact (if_pos hout).symm
      · simp only [perform, truncateFrom, if_neg hout]
        exact (if_neg hout).symm
  | _ => rfl

/-- The storage object refines the durable state of the cluster model. -/
theorem durable_performAll (s : Storage) (es : List Effect) :
    (s.performAll es).durable = s.durable.performAll es := by
  induction es generalizing s with
  | nil => rfl
  | cons e es ih =>
      rw [performAll, List.foldl_cons, DurableState.performAll, List.foldl_cons,
        ← durable_perform]
      exact ih (s.perform e)

theorem performAll_notices (s : Storage) {es : List Effect} (hes : Notices es) :
    s.performAll es = s := by
  induction es with
  | nil => rfl
  | cons e es ih =>
      obtain ⟨cv, rfl⟩ := hes e List.mem_cons_self
      exact ih fun x hx ↦ hes x (List.mem_cons_of_mem _ hx)

theorem WellFormed.perform {s : Storage} (hs : s.WellFormed) {e : Effect} (he : e.Fits) :
    (s.perform e).WellFormed := by
  cases e with
  | saveMeta currentTerm votedFor => exact hs.saveMeta he.1 he.2.1 he.2.2
  | append entry => exact hs.append he
  | truncateFrom fromIndex => exact hs.truncateFrom fromIndex
  | _ => exact hs

theorem WellFormed.performAll {s : Storage} (hs : s.WellFormed) {es : List Effect}
    (hes : ∀ e ∈ es, e.Fits) : (s.performAll es).WellFormed := by
  induction es generalizing s with
  | nil => exact hs
  | cons e es ih =>
      exact ih (hs.perform (hes e (by simp))) fun x hx ↦ hes x (by simp [hx])

end Storage

/-! ## Operations and their arguments -/

/-- The value was decoded from a frame that the peer's limit lets through. -/
def Received {α : Type} (decode : Bytes → Option α) (x : α) : Prop :=
  ∃ frame : Bytes, frame.length ≤ kMaxFrameBytes ∧ decode frame = some x

theorem Received.appendEntries_spec {args : AppendEntriesArgs}
    (hargs : Received AppendEntriesArgs.decode args) :
    args.term < 2 ^ 64 ∧ ∀ e ∈ args.entries, e.Fits := by
  obtain ⟨frame, hsize, hdecode⟩ := hargs
  obtain ⟨hterm, hentries⟩ := AppendEntriesArgs.decode_spec hdecode
  refine ⟨hterm, fun e he ↦ ⟨(hentries e he).1, ?_⟩⟩
  have hlen := (hentries e he).2
  unfold kMaxFrameBytes at hsize
  omega

/-- The command of a client's line fits into a record. -/
theorem Deliverable.command_fits {line : Bytes} (hline : Deliverable line) {cmd : Command}
    (hcmd : commandOf line = some cmd) : cmd.encode.length < 2 ^ 32 - 20 := by
  obtain ⟨chunks, -, hdelivers⟩ := hline
  have hsize := Delivers.length_le (by simp) hdelivers
  have hlen := commandOf_length hcmd
  rw [Command.length_encode]
  unfold kMaxFrameBytes at hsize
  omega

/-- One critical section of a node. -/
inductive NodeOp where
  | startElection
  | becomeFollower (term : ℕ)
  | becomeLeader
  | submit (command : Bytes)
  | onRequestVote (args : RequestVoteArgs)
  | onAppendEntries (args : AppendEntriesArgs)
  | onVoteReply (args : RequestVoteArgs) (reply : RequestVoteReply)
  | onAppendReply (peer leaderTerm : ℕ) (args : AppendEntriesArgs) (reply : AppendEntriesReply)
  deriving DecidableEq, Repr

inductive NodeReply where
  | submit (result : SubmitResult)
  | requestVote (reply : RequestVoteReply)
  | appendEntries (reply : AppendEntriesReply)
  deriving DecidableEq, Repr

namespace NodeOp

/-- Terms are 64-bit numbers, messages were received, and a command is no longer
than `Deliverable.command_fits` allows. -/
def Admissible : NodeOp → Prop
  | .startElection | .becomeLeader => True
  | .becomeFollower term => term < 2 ^ 64
  | .submit command => command.length < 2 ^ 32 - 20
  | .onRequestVote args => Received RequestVoteArgs.decode args
  | .onAppendEntries args => Received AppendEntriesArgs.decode args
  | .onVoteReply _ reply => Received RequestVoteReply.decode reply
  | .onAppendReply _ _ _ reply => Received AppendEntriesReply.decode reply

/-- The node after the operation, and what it answers to a caller. -/
def run (n : RaftNode) : NodeOp → RaftNode × Option NodeReply
  | .startElection => (n.startElection, none)
  | .becomeFollower term => (n.becomeFollower term, none)
  | .becomeLeader => (n.becomeLeader, none)
  | .submit command => ((n.submit command).1, some (.submit (n.submit command).2))
  | .onRequestVote args => ((n.onRequestVote args).1, some (.requestVote (n.onRequestVote args).2))
  | .onAppendEntries args =>
      ((n.onAppendEntries args).1, some (.appendEntries (n.onAppendEntries args).2))
  | .onVoteReply args reply => (n.onVoteReply args reply, none)
  | .onAppendReply peer leaderTerm args reply =>
      ((n.onAppendReply peer leaderTerm args reply).1, none)

theorem persists {n : RaftNode} (hn : n.Ranged) {op : NodeOp} (hop : op.Admissible) :
    Persists n (op.run n).1 := by
  cases op with
  | startElection => exact .startElection hn
  | becomeFollower term => exact .becomeFollower hn hop
  | becomeLeader => exact .becomeLeader hn
  | submit command => exact .submit hn hop
  | onRequestVote args =>
      obtain ⟨frame, -, hdecode⟩ := hop
      exact .onRequestVote hn (RequestVoteArgs.decode_eq_some.mp hdecode).2.1
  | onAppendEntries args =>
      obtain ⟨hterm, hentries⟩ := Received.appendEntries_spec hop
      exact .onAppendEntries hn hterm hentries
  | onVoteReply args reply =>
      obtain ⟨frame, -, hdecode⟩ := hop
      exact .onVoteReply hn args (RequestVoteReply.decode_eq_some.mp hdecode).1
  | onAppendReply peer leaderTerm args reply =>
      obtain ⟨frame, -, hdecode⟩ := hop
      exact .onAppendReply hn peer leaderTerm args
        (AppendEntriesReply.decode_eq_some.mp hdecode).1.1

end NodeOp

/-! ## A node on its files -/

/-- The consensus core and the storage object of one process, and the replies it
has sent so far, in this life or an earlier one. -/
structure Node where
  raft : RaftNode
  storage : Storage
  replies : List NodeReply

namespace Node

/-- A process that has loaded its storage. -/
def boot (id clusterSize : ℕ) (storage : Storage) (replies : List NodeReply) : Node where
  raft := RaftNode.recover id clusterSize storage.currentTerm storage.votedFor storage.entries
  storage := storage
  replies := replies

/-- The operation with its writes; the reply leaves after the last of them. -/
def perform (x : Node) (op : NodeOp) : Node where
  raft := { (op.run x.raft).1 with effects := [] }
  storage := x.storage.performAll (op.run x.raft).1.effects
  replies := x.replies ++ (op.run x.raft).2.toList

/-- The process is gone and starts again on the given files. -/
def restart (x : Node) (dir : Directory) : Option Node :=
  match Storage.load dir with
  | .ok s => some (boot x.raft.id x.raft.clusterSize s x.replies)
  | .failed | .outOfRange | .outOfFuel => none

/-- The files of a process that died in the operation when `m` of its effects
were done, and `k` bytes of the next one if that is an `append`. -/
def filesAt (x : Node) (op : NodeOp) (m k : ℕ) : Directory :=
  let effects := (op.run x.raft).1.effects
  let s := x.storage.performAll (effects.take m)
  match effects[m]? with
  | some (.append e) => s.written e k
  | _ => s.dir

/-- What is in memory is what is in the storage object and on disk. -/
structure InStep (x : Node) : Prop where
  wellFormed : x.storage.WellFormed
  durable : x.storage.durable = x.raft.durable
  ranged : x.raft.Ranged
  effects : x.raft.effects = []

theorem InStep.boot {s : Storage} (hs : s.WellFormed) (id clusterSize : ℕ)
    (replies : List NodeReply) : (boot id clusterSize s replies).InStep :=
  ⟨hs, rfl, ⟨hs.term, rfl⟩, rfl⟩

namespace InStep

variable {x : Node} {op : NodeOp}

theorem effects_spec (hx : x.InStep) (hop : op.Admissible) :
    (∀ e ∈ (op.run x.raft).1.effects, e.Fits) ∧
      (op.run x.raft).1.durable = x.raft.durable.performAll (op.run x.raft).1.effects := by
  obtain ⟨es, hes, hfits, hdurable⟩ := (NodeOp.persists hx.ranged hop).effects
  rw [hx.effects, List.nil_append] at hes
  exact ⟨hes ▸ hfits, hes ▸ hdurable⟩

theorem perform (hx : x.InStep) (hop : op.Admissible) : (x.perform op).InStep := by
  obtain ⟨hfits, hdurable⟩ := hx.effects_spec hop
  have hranged := (NodeOp.persists hx.ranged hop).ranged
  refine ⟨hx.wellFormed.performAll hfits, ?_, ⟨hranged.term, hranged.log⟩, rfl⟩
  rw [Node.perform, Storage.durable_performAll, hx.durable, ← hdurable]
  rfl

/-- Wherever a process dies, its successor finds the first writes of the
operation done and nothing else. -/
theorem load_filesAt (hx : x.InStep) (hop : op.Admissible) (m k : ℕ) :
    ∃ j, Storage.load (x.filesAt op m k) =
        .ok (x.storage.performAll ((op.run x.raft).1.effects.take j)) ∧
      (x.storage.performAll ((op.run x.raft).1.effects.take j)).WellFormed := by
  obtain ⟨hfits, -⟩ := hx.effects_spec hop
  have hsome : ∀ j, (x.storage.performAll ((op.run x.raft).1.effects.take j)).WellFormed :=
    fun j ↦ hx.wellFormed.performAll fun e he ↦ hfits e (List.mem_of_mem_take he)
  unfold filesAt
  dsimp only
  split
  · rename_i e he
    have hmem := List.mem_of_getElem? he
    rcases Nat.lt_or_ge k e.record.length with hk | hk
    · exact ⟨m, (hsome m).load_written (hfits _ hmem) hk, hsome m⟩
    · -- the whole record is there: the `append` is done
      have hnext : x.storage.performAll ((op.run x.raft).1.effects.take (m + 1)) =
          (x.storage.performAll ((op.run x.raft).1.effects.take m)).append e := by
        rw [List.take_add_one, he, Storage.performAll, List.foldl_append]
        rfl
      have hwhole : (x.storage.performAll ((op.run x.raft).1.effects.take m)).written e k =
          ((x.storage.performAll ((op.run x.raft).1.effects.take m)).append e).dir := by
        rw [Storage.append, Storage.written, Storage.written, List.take_of_length_le hk,
          List.take_length]
      refine ⟨m + 1, ?_, hsome (m + 1)⟩
      rw [hwhole, ← hnext]
      exact (hsome (m + 1)).load
  · exact ⟨m, (hsome m).load, hsome m⟩

/-- A successor of a process that died in an operation is in step again. -/
theorem restart_filesAt (hx : x.InStep) (hop : op.Admissible) (m k : ℕ) :
    ∃ y j, x.restart (x.filesAt op m k) = some y ∧ y.InStep ∧ y.replies = x.replies ∧
      y.raft.log = sentinel ::
        (x.raft.durable.performAll ((op.run x.raft).1.effects.take j)).entries := by
  obtain ⟨j, hload, hs⟩ := hx.load_filesAt hop m k
  refine ⟨_, j, ?_, InStep.boot hs x.raft.id x.raft.clusterSize x.replies, rfl, ?_⟩
  · rw [restart, hload]
  · rw [← hx.durable, ← Storage.durable_performAll]
    rfl

theorem restart_dir (hx : x.InStep) :
    x.restart x.storage.dir =
      some (Node.boot x.raft.id x.raft.clusterSize x.storage x.replies) := by
  rw [restart, hx.wellFormed.load]

theorem log_eq (hx : x.InStep) : x.raft.log = sentinel :: x.storage.entries := by
  have hentries : x.storage.entries = x.raft.log.tail := congrArg DurableState.entries hx.durable
  rw [hentries]
  exact hx.ranged.log_eq

end InStep

/-- The lives of one process, from an empty directory on. -/
inductive Run (id clusterSize : ℕ) : Node → Prop
  | boot {s : Storage} (hload : Storage.load Directory.empty = .ok s) :
      Run id clusterSize (Node.boot id clusterSize s [])
  | perform {x : Node} {op : NodeOp} (hx : Run id clusterSize x) (hop : op.Admissible) :
      Run id clusterSize (x.perform op)
  | restart {x y : Node} (hx : Run id clusterSize x) (hy : x.restart x.storage.dir = some y) :
      Run id clusterSize y
  | interrupt {x y : Node} {op : NodeOp} {m k : ℕ} (hx : Run id clusterSize x)
      (hop : op.Admissible) (hy : x.restart (x.filesAt op m k) = some y) : Run id clusterSize y

theorem Run.inStep {id clusterSize : ℕ} {x : Node} (hx : Run id clusterSize x) : x.InStep := by
  induction hx with
  | boot hload =>
      obtain ⟨s, hs, -, hwell⟩ := Storage.exists_load_empty
      obtain rfl := LoadResult.ok.inj (hs.symm.trans hload)
      exact InStep.boot hwell id clusterSize []
  | perform _ hop ih => exact ih.perform hop
  | restart _ hy ih =>
      obtain rfl := Option.some.inj (ih.restart_dir.symm.trans hy)
      exact InStep.boot ih.wellFormed _ _ _
  | interrupt _ hop hy ih =>
      obtain ⟨y, -, hy', hstep, -⟩ := ih.restart_filesAt hop _ _
      obtain rfl := Option.some.inj (hy'.symm.trans hy)
      exact hstep

end Node

/-! ## A death in the middle of a request -/

/-- How many entries of a request match the log by term, from index `pos` on. -/
def agreement (log : List LogEntry) (pos : ℕ) : List LogEntry → ℕ
  | [] => 0
  | e :: es =>
      if pos < log.length ∧ (log.getD pos sentinel).term = e.term then
        agreement log (pos + 1) es + 1
      else 0

/-- The log cut at its first divergence from a request whose entries start at
index `pos`, uncut if there is none. -/
def cutLog (log : List LogEntry) (pos : ℕ) (es : List LogEntry) : List LogEntry :=
  if agreement log pos es = es.length then log else log.take (pos + agreement log pos es)

/-- The writes that turn a log into its cut. -/
inductive Cuts (log : List LogEntry) : List Effect → List LogEntry → Prop
  | none : Cuts log [] log
  | truncate {pos : ℕ} (hpos : 0 < pos) (hlt : pos < log.length) :
      Cuts log [.truncateFrom pos] (log.take pos)

theorem mergeEntries_effects (n : RaftNode) {pos : ℕ} (hpos : 0 < pos) (es : List LogEntry) :
    ∃ cut, Cuts n.log cut (cutLog n.log pos es) ∧
      (n.mergeEntries pos es).effects =
        n.effects ++ (cut ++ (es.drop (agreement n.log pos es)).map .append) := by
  induction es generalizing pos with
  | nil => exact ⟨[], .none, by simp [RaftNode.mergeEntries]⟩
  | cons e es ih =>
      rw [RaftNode.mergeEntries]
      split_ifs with hend hconflict
      · have hpast : ¬ pos < n.log.length := by
          rw [RaftNode.lastLogIndex] at hend
          omega
        have hcut : cutLog n.log pos (e :: es) = n.log := by
          simp [cutLog, agreement, hpast, Nat.not_lt.mp hpast]
        refine ⟨[], ?_, ?_⟩
        · rw [hcut]
          exact .none
        · simp [RaftNode.appendAll_eq, agreement, hpast]
      · have hin : pos < n.log.length := by
          rw [RaftNode.lastLogIndex] at hend
          omega
        have hagree : agreement n.log pos (e :: es) = 0 := by
          rw [agreement, if_neg fun hboth ↦ hconflict hboth.2]
        have hcut : cutLog n.log pos (e :: es) = n.log.take pos := by
          simp [cutLog, hagree]
        refine ⟨[.truncateFrom pos], hcut ▸ .truncate hpos hin, ?_⟩
        simp [RaftNode.appendAll_eq, hagree, RaftNode.truncateLog, RaftNode.emit]
      · have hin : pos < n.log.length := by
          rw [RaftNode.lastLogIndex] at hend
          omega
        have hagree : agreement n.log pos (e :: es) = agreement n.log (pos + 1) es + 1 := by
          rw [agreement, if_pos ⟨hin, not_not.mp hconflict⟩]
        obtain ⟨cut, hcuts, heffects⟩ := ih (Nat.succ_pos pos)
        have hcut : cutLog n.log pos (e :: es) = cutLog n.log (pos + 1) es := by
          simp only [cutLog, hagree, List.length_cons, Nat.add_right_cancel_iff]
          rw [show pos + (agreement n.log (pos + 1) es + 1) =
            pos + 1 + agreement n.log (pos + 1) es by omega]
        refine ⟨cut, hcut ▸ hcuts, ?_⟩
        rw [heffects, hagree, List.drop_succ_cons]

theorem DurableState.entries_appends (d : DurableState) (es : List LogEntry) :
    (d.performAll (es.map .append)).entries = d.entries ++ es := by
  induction es generalizing d with
  | nil => simp [performAll]
  | cons e es ih =>
      have hrest := ih (d.perform (.append e))
      rw [performAll, List.map_cons, List.foldl_cons]
      rw [performAll] at hrest
      rw [hrest, perform, List.append_assoc, List.singleton_append]

/-- Some of the writes that cut a log and append to it. -/
theorem Cuts.take {log log' : List LogEntry} {cut : List Effect} (hcuts : Cuts log cut log')
    (hlog : log = sentinel :: log.tail) {d : DurableState} (hd : d.entries = log.tail)
    (es : List LogEntry) (j : ℕ) :
    sentinel :: (d.performAll ((cut ++ es.map Effect.append).take j)).entries = log ∨
      ∃ i, sentinel :: (d.performAll ((cut ++ es.map Effect.append).take j)).entries =
        log' ++ es.take i := by
  cases hcuts with
  | none =>
      right
      refine ⟨j, ?_⟩
      rw [List.nil_append, ← List.map_take, DurableState.entries_appends, hd, ← List.cons_append,
        ← hlog]
  | @truncate pos hpos hlt =>
      cases j with
      | zero =>
          left
          rw [List.take_zero, DurableState.performAll, List.foldl_nil, hd, ← hlog]
      | succ j =>
          right
          refine ⟨j, ?_⟩
          have hcut : (d.perform (.truncateFrom pos)).entries = log.tail.take (pos - 1) := by
            have hin : ¬ (pos < 1 ∨ d.entries.length < pos) := by
              rw [hd, List.length_tail]
              omega
            rw [DurableState.perform, if_neg hin, hd]
          have hfront : sentinel :: log.tail.take (pos - 1) = log.take pos := by
            rw [← List.take_succ_cons, ← hlog, Nat.sub_add_cancel hpos]
          rw [List.singleton_append, List.take_succ_cons, DurableState.performAll,
            List.foldl_cons, ← DurableState.performAll, ← List.map_take,
            DurableState.entries_appends, hcut, ← List.cons_append, hfront]

theorem heed_effects (n : RaftNode) (args : AppendEntriesArgs) :
    ∃ saves, Unwritten saves ∧ (n.heed args).effects = n.effects ++ saves := by
  have hnotices := n.notices_retirement.unwritten
  unfold RaftNode.heed
  split_ifs with hcond
  · rcases Nat.lt_or_ge n.currentTerm args.term with hlt | hle
    · have hsave : Unwritten [.saveMeta args.term (-1)] := by
        simp [Unwritten, DurableState.perform]
      exact ⟨_, hsave.append hnotices, by simp [RaftNode.becomeFollower_of_lt hlt]⟩
    · exact ⟨_, hnotices, by simp [RaftNode.becomeFollower_of_le hle]⟩
  · exact ⟨[], .nil, by simp⟩

/-- A request that is refused writes no entry. One that is accepted cuts the log
and appends what is left of the request. -/
theorem onAppendEntries_effects (n : RaftNode) (args : AppendEntriesArgs) :
    ∃ saves, Unwritten saves ∧
      ((n.onAppendEntries args).1.effects = n.effects ++ saves ∨
        ∃ cut notified, Cuts n.log cut (cutLog n.log (args.prevLogIndex + 1) args.entries) ∧
          Unwritten notified ∧
          (n.onAppendEntries args).1.effects = n.effects ++ (saves ++ (cut ++
            (args.entries.drop
              (agreement n.log (args.prevLogIndex + 1) args.entries)).map .append)) ++
              notified) := by
  obtain ⟨saves, hsaves, hheed⟩ := heed_effects n args
  rcases n.onAppendEntries_cases args with ⟨-, hsame, -⟩ | ⟨-, ⟨hnode, -⟩ | ⟨-, -, hnode⟩⟩
  · refine ⟨[], .nil, Or.inl ?_⟩
    rw [hsame, List.append_nil]
  · refine ⟨saves, hsaves, Or.inl ?_⟩
    rw [hnode, hheed]
  · obtain ⟨cut, hcuts, hmerge⟩ :=
      mergeEntries_effects (n.heed args) (Nat.succ_pos args.prevLogIndex) args.entries
    rw [RaftNode.heed_log] at hcuts hmerge
    obtain ⟨commit, notified, hnotified, hfollow⟩ := ((n.heed args).mergeEntries
      (args.prevLogIndex + 1) args.entries).followCommit_frame args.leaderCommit
    refine ⟨saves, hsaves, Or.inr ⟨cut, notified, hcuts, hnotified.unwritten, ?_⟩⟩
    rw [hnode, hfollow, hmerge, hheed, List.append_assoc n.effects]

/-- The log that the first writes of a request leave on disk. -/
theorem onAppendEntries_take {n : RaftNode} (hn : n.Ranged) (hnil : n.effects = [])
    (args : AppendEntriesArgs) (j : ℕ) {log : List LogEntry}
    (hlog : log = sentinel ::
      (n.durable.performAll ((n.onAppendEntries args).1.effects.take j)).entries) :
    log = n.log ∨ ∃ i, log = cutLog n.log (args.prevLogIndex + 1) args.entries ++
      (args.entries.drop (agreement n.log (args.prevLogIndex + 1) args.entries)).take i := by
  subst hlog
  obtain ⟨saves, hsaves, hrefused | ⟨cut, notified, hcuts, hnotified, hmerged⟩⟩ :=
    onAppendEntries_effects n args
  · left
    rw [hrefused, hnil, List.nil_append, (hsaves.take j).entries]
    exact hn.log_eq.symm
  · rw [hmerged, hnil, List.nil_append, List.take_append, DurableState.performAll_append,
      (hnotified.take _).entries, List.take_append, DurableState.performAll_append]
    exact hcuts.take hn.log_eq ((hsaves.take j).entries n.durable) _ _

/-- In every life of a node, memory and storage hold the same term, vote and log
whenever no operation is in progress, and a restart finds them again. A node that
dies in the middle of a request from a leader has sent no reply to it and finds its
old log, or that log cut at its first divergence from the request and followed by
some of the request's entries. -/
theorem memory_matches_storage {id clusterSize : ℕ} {x : Node} (hx : x.Run id clusterSize) :
    (x.storage.currentTerm = x.raft.currentTerm ∧ x.storage.votedFor = x.raft.votedFor ∧
        x.raft.log = sentinel :: x.storage.entries) ∧
      (∃ y, x.restart x.storage.dir = some y ∧ y.raft.currentTerm = x.raft.currentTerm ∧
        y.raft.votedFor = x.raft.votedFor ∧ y.raft.log = x.raft.log) ∧
      ∀ {args : AppendEntriesArgs}, Received AppendEntriesArgs.decode args → ∀ m k,
        ∃ y, x.restart (x.filesAt (.onAppendEntries args) m k) = some y ∧
          y.replies = x.replies ∧
          (y.raft.log = x.raft.log ∨ ∃ i,
            y.raft.log = cutLog x.raft.log (args.prevLogIndex + 1) args.entries ++
              (args.entries.drop
                (agreement x.raft.log (args.prevLogIndex + 1) args.entries)).take i) := by
  have hstep := hx.inStep
  have hterm := congrArg DurableState.currentTerm hstep.durable
  have hvote := congrArg DurableState.votedFor hstep.durable
  refine ⟨⟨hterm, hvote, hstep.log_eq⟩, ?_, fun {args} hargs m k ↦ ?_⟩
  · exact ⟨_, hstep.restart_dir, hterm, hvote, hstep.log_eq.symm⟩
  · have hop : (NodeOp.onAppendEntries args).Admissible := hargs
    obtain ⟨y, j, hy, -, hreplies, hlog⟩ := hstep.restart_filesAt hop m k
    exact ⟨y, hy, hreplies, onAppendEntries_take hstep.ranged hstep.effects args j hlog⟩

/-- Two entries from the leader of term 1. -/
def firstBatch : AppendEntriesArgs := ⟨1, 1, 0, 0, 0, [⟨1, [7]⟩, ⟨1, [8]⟩]⟩

/-- Two entries from the leader of term 2, in conflict with the second of them. -/
def secondBatch : AppendEntriesArgs := ⟨2, 2, 1, 1, 0, [⟨2, [9]⟩, ⟨2, [10]⟩]⟩

/-- A death in the second of the two `append` calls that follow a cut. -/
theorem memory_matches_storage_conflict :
    ∃ x : Node, x.Run 0 3 ∧ x.storage.entries = [⟨1, [7]⟩, ⟨1, [8]⟩] ∧
      x.raft.log = sentinel :: x.storage.entries ∧
      ∃ y, x.restart (x.filesAt (.onAppendEntries secondBatch) 3 5) = some y ∧
        y.replies = x.replies ∧ (y.raft.log = x.raft.log ∨ ∃ i,
          y.raft.log = [sentinel, ⟨1, [7]⟩] ++ [⟨2, [9]⟩, ⟨2, [10]⟩].take i) := by
  have hfirst : Received AppendEntriesArgs.decode firstBatch :=
    ⟨firstBatch.encode, by decide, by decide⟩
  have hsecond : Received AppendEntriesArgs.decode secondBatch :=
    ⟨secondBatch.encode, by decide, by decide⟩
  have hboot : Node.Run 0 3 _ := .boot rfl
  have hrun : Node.Run 0 3 (Node.perform _ (.onAppendEntries firstBatch)) :=
    hboot.perform hfirst
  obtain ⟨⟨-, -, hlog⟩, -, hdeath⟩ := memory_matches_storage hrun
  exact ⟨_, hrun, by decide, hlog, hdeath hsecond 3 5⟩

end Dkvs
