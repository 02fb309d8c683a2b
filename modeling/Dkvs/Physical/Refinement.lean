import Dkvs.FrameLimit
import Dkvs.Physical.Wire
import Dkvs.Provenance
import Dkvs.Storage.Ballots

/-!
# The cluster and its bytes

In the physical cluster a message is the frame its sender writes, and a receiver acts on
what it decodes. A process keeps its term, vote and log in files; when it dies, at any byte
of any write, its successor starts from what it loads. The physical cluster takes the steps
of the cluster model and no others, except that a request over the frame limit never
arrives.
-/

namespace Dkvs

open ReplicatedLog

variable {N : ℕ} {c c₁ c' : Cluster N} {h : History N} {i : Fin N} {a : Action N}

/-! ## Messages -/

/-- What the receiver reads off a connection on which `message` was sent. -/
def transmit {α : Type} (decode : Bytes → Option α) (message : Bytes) : Option α :=
  match recvFrame (sendFrame message) with
  | .payload bytes _ => decode bytes
  | .tooLong | .closed => none

theorem transmit_of_le {α : Type} (decode : Bytes → Option α) {message : Bytes}
    (hsize : message.length ≤ kMaxFrameBytes) : transmit decode message = decode message := by
  have hframe := recvFrame_sendFrame hsize []
  rw [List.append_nil] at hframe
  rw [transmit, hframe]

/-- The length of a message over `2 ^ 32` bytes wraps in its header, and the receiver takes
the first bytes of it for the message. -/
theorem transmit_eq_some {α : Type} {decode : Bytes → Option α} {message : Bytes} {x : α}
    (hx : transmit decode message = some x) :
    ∃ bytes, bytes <+: message ∧ bytes.length ≤ kMaxFrameBytes ∧ decode bytes = some x := by
  unfold transmit at hx
  split at hx
  · rename_i bytes rest hframe
    obtain ⟨hsplit, hsize⟩ := recvFrame_eq_payload hframe
    rw [sendFrame, sendFrame, List.append_assoc] at hsplit
    obtain ⟨-, hbytes⟩ := List.append_inj hsplit (by rw [Encoder.length_u32, Encoder.length_u32])
    exact ⟨bytes, ⟨rest, hbytes.symm⟩, hsize, hx⟩
  · simp at hx
  · simp at hx

/-- The header of a request says how many entries follow, so no request begins with
another one. -/
theorem AppendEntriesArgs.eq_of_isPrefix {args args' : AppendEntriesArgs} (hargs : args.Ranged)
    (hargs' : args'.Ranged) (hpre : args'.encode <+: args.encode) : args' = args := by
  have hencode : ∀ {b : AppendEntriesArgs}, b.Ranged →
      b.encode = b.encodeHeader b.entries.length ++ b.entries.flatMap LogEntry.encode := by
    intro b hb
    rw [encode, encodeHeader, Nat.mod_eq_of_lt hb.2.2.2.2.2.1]
  have hheader : ∀ {b : AppendEntriesArgs}, b.Ranged → ∀ rest,
      decodeHeader (b.encode ++ rest) = some ({ b with entries := [] }, b.entries.length,
        ⟨b.entries.flatMap LogEntry.encode ++ rest⟩) := by
    intro b hb rest
    have hsplit := hencode hb
    obtain ⟨hterm, hleader, hindex, hprev, hcommit, hcount, -⟩ := hb
    refine decodeHeader_eq_some.mpr ⟨?_, rfl, ?_, hcount⟩
    · rw [hsplit, List.append_assoc]
      rfl
    · exact ⟨hterm, hleader, hindex, hprev, hcommit, by simp, by simp⟩
  obtain ⟨rest, hrest⟩ := hpre
  have hread := hheader hargs []
  rw [List.append_nil, ← hrest, hheader hargs' rest] at hread
  simp only [List.append_nil, Option.some.injEq, Prod.mk.injEq, AppendEntriesArgs.mk.injEq,
    Decoder.mk.injEq] at hread
  obtain ⟨⟨hterm, hleader, hindex, hprev, hcommit, -⟩, hcount, hbytes⟩ := hread
  -- the entries behind equal headers are read one by one
  have hdecode' : decodeEntries args.entries.length ⟨args.entries.flatMap LogEntry.encode⟩ =
      some (args'.entries, ⟨rest⟩) :=
    decodeEntries_eq_some.mpr ⟨hcount, hbytes.symm, hargs'.2.2.2.2.2.2⟩
  have hdecode : decodeEntries args.entries.length ⟨args.entries.flatMap LogEntry.encode⟩ =
      some (args.entries, ⟨[]⟩) :=
    decodeEntries_eq_some.mpr ⟨rfl, (List.append_nil _).symm, hargs.2.2.2.2.2.2⟩
  rw [hdecode'] at hdecode
  obtain ⟨hentries, -⟩ := Prod.mk.inj (Option.some.inj hdecode)
  cases args
  cases args'
  simp_all

namespace Cluster

/-- The message that an action delivers, as its receiver decodes it. -/
def receive (c : Cluster N) : Action N → Option (Cluster N)
  | .deliverVote k => do
      let q ← c.voteRequests[k]?
      let args ← transmit RequestVoteArgs.decode q.args.encode
      some { c with voteRequests := c.voteRequests.set k { q with args } }
  | .deliverAppend k => do
      let q ← c.appendRequests[k]?
      let args ← transmit AppendEntriesArgs.decode q.args.encode
      some { c with appendRequests := c.appendRequests.set k { q with args } }
  | .voteReply _ _ j => do
      let (q, reply) ← c.voteReplies[j]?
      let reply ← transmit RequestVoteReply.decode reply.encode
      some { c with voteReplies := c.voteReplies.set j (q, reply) }
  | .appendReply _ _ j => do
      let (q, reply) ← c.appendReplies[j]?
      let reply ← transmit AppendEntriesReply.decode reply.encode
      some { c with appendReplies := c.appendReplies.set j (q, reply) }
  | .crashDuring a _ => c.receive a
  | _ => some c

/-- The node that an action runs on and its critical section there. -/
def nodeOp (c : Cluster N) : Action N → Option (Fin N × NodeOp)
  | .timeout i =>
      if (c.raft i).stopping ∨ (c.raft i).role = .leader then none else some (i, .startElection)
  | .submit i command => some (i, .submit command)
  | .execute i cmd => some (i, .submit cmd.encode)
  | .deliverVote k => do
      let q ← c.voteRequests[k]?
      some (q.dst, .onRequestVote q.args)
  | .deliverAppend k => do
      let q ← c.appendRequests[k]?
      some (q.dst, .onAppendEntries q.args)
  | .voteReply i k j => do
      let q ← (c.processes i).voteSenders[k]?
      let reply ← c.voteReplyTo q j
      some (i, .onVoteReply q.args reply)
  | .appendReply i k j => do
      let r ← (c.processes i).replicators[k]?
      let q ← r.waiting
      let reply ← c.appendReplyTo q j
      some (i, .onAppendReply r.peer r.leaderTerm q.args reply)
  | _ => none

theorem operation_eq (c : Cluster N) (a : Action N) :
    c.operation a = (c.nodeOp a).map fun x ↦ (x.1, (x.2.run (c.raft x.1)).1) := by
  cases a with
  | timeout i =>
      rw [operation, nodeOp]
      split_ifs with hidle
      · rfl
      · rfl
  | deliverVote k =>
      rw [operation, nodeOp]
      cases c.voteRequests[k]? with
      | none => rfl
      | some q => rfl
  | deliverAppend k =>
      rw [operation, nodeOp]
      cases c.appendRequests[k]? with
      | none => rfl
      | some q => rfl
  | voteReply i k j =>
      simp only [operation, nodeOp, Option.bind_eq_bind, Option.map_bind, Function.comp_def,
        Option.map_some, NodeOp.run]
  | appendReply i k j =>
      simp only [operation, nodeOp, Option.bind_eq_bind, Option.map_bind, Function.comp_def,
        Option.map_some, NodeOp.run]
  | _ => rfl

theorem nodeOp_eq_none (hop : c.operation a = none) : c.nodeOp a = none := by
  rw [operation_eq, Option.map_eq_none_iff] at hop
  exact hop

end Cluster

theorem RequestVoteArgs.length_encode (args : RequestVoteArgs) :
    args.encode.length ≤ kMaxFrameBytes := by
  have hu8 : ∀ v, (Encoder.u8 v).length = 1 := fun _ ↦ rfl
  have hlimit : 29 ≤ kMaxFrameBytes := by decide
  simp only [encode, List.length_append, hu8, Encoder.length_u64, Encoder.length_u32]
  omega

theorem transmit_requestVote {args : RequestVoteArgs} (hargs : args.Ranged) :
    transmit RequestVoteArgs.decode args.encode = some args := by
  rw [transmit_of_le _ args.length_encode]
  exact RequestVoteArgs.decode_eq_some.mpr ⟨rfl, hargs⟩

theorem transmit_requestVoteReply {reply : RequestVoteReply} (hreply : reply.term < 2 ^ 64) :
    transmit RequestVoteReply.decode reply.encode = some reply := by
  refine (transmit_of_le _ (RpcReply.length_encode (.requestVote reply))).trans ?_
  exact RequestVoteReply.decode_eq_some.mpr ⟨hreply, _, flag_written _, reply.encode_eq⟩

theorem transmit_appendEntriesReply {reply : AppendEntriesReply} (hreply : reply.Ranged) :
    transmit AppendEntriesReply.decode reply.encode = some reply := by
  refine (transmit_of_le _ (RpcReply.length_encode (.appendEntries reply))).trans ?_
  exact AppendEntriesReply.decode_eq_some.mpr ⟨hreply, _, flag_written _, reply.encode_eq⟩

theorem transmit_appendEntries {args args' : AppendEntriesArgs} (hargs : args.Ranged)
    (hsent : transmit AppendEntriesArgs.decode args.encode = some args') :
    args' = args ∧ Received AppendEntriesArgs.decode args := by
  obtain ⟨bytes, hpre, hsize, hdecode⟩ := transmit_eq_some hsent
  obtain ⟨rfl, hargs'⟩ := AppendEntriesArgs.decode_eq_some.mp hdecode
  obtain rfl := AppendEntriesArgs.eq_of_isPrefix hargs hargs' hpre
  exact ⟨rfl, _, hsize, hdecode⟩

theorem Received.of_decode {α : Type} {decode : Bytes → Option α} {x : α} {message : Bytes}
    (hsent : transmit decode message = some x) : Received decode x := by
  obtain ⟨bytes, -, hsize, hdecode⟩ := transmit_eq_some hsent
  exact ⟨bytes, hsize, hdecode⟩

namespace Cluster

/-- Commands that are submitted come from lines that were received. -/
def Fits (a : Action N) : Prop :=
  ∀ ⦃i command⦄, a.offer = some (i, command) → command.length < 2 ^ 32 - 20

instance (a : Action N) : Decidable (Fits a) :=
  decidable_of_iff (∀ x ∈ a.offer, x.2.length < 2 ^ 32 - 20)
    ⟨fun h _ _ hx ↦ h _ hx, fun h _ hx ↦ h hx⟩

theorem set_eq_self {α : Type} {l : List α} {k : ℕ} {x : α} (hx : l[k]? = some x) :
    l.set k x = l := by
  obtain ⟨hlt, rfl⟩ := List.getElem?_eq_some_iff.mp hx
  exact List.set_getElem_self hlt

/-- A receiver decodes what was sent. -/
theorem receive_eq (hrange : c.InRange) (hc : c.receive a = some c₁) : c₁ = c := by
  induction a with
  | deliverVote k =>
      simp only [receive, Option.bind_eq_bind, Option.bind_eq_some_iff, Option.some.injEq] at hc
      obtain ⟨q, hq, args, hargs, rfl⟩ := hc
      rw [transmit_requestVote (hrange.voteRequests q (List.mem_of_getElem? hq))] at hargs
      obtain rfl := Option.some.inj hargs
      show { c with voteRequests := c.voteRequests.set k q } = c
      rw [set_eq_self hq]
  | deliverAppend k =>
      simp only [receive, Option.bind_eq_bind, Option.bind_eq_some_iff, Option.some.injEq] at hc
      obtain ⟨q, hq, args, hargs, rfl⟩ := hc
      obtain ⟨rfl, -⟩ := transmit_appendEntries
        (hrange.appendRequests q (List.mem_of_getElem? hq)) hargs
      show { c with appendRequests := c.appendRequests.set k q } = c
      rw [set_eq_self hq]
  | voteReply i k j =>
      simp only [receive, Option.bind_eq_bind, Option.bind_eq_some_iff, Option.some.injEq] at hc
      obtain ⟨⟨q, reply⟩, hq, reply', hreply, rfl⟩ := hc
      rw [transmit_requestVoteReply (hrange.voteReplies _ (List.mem_of_getElem? hq))] at hreply
      obtain rfl := Option.some.inj hreply
      rw [set_eq_self hq]
  | appendReply i k j =>
      simp only [receive, Option.bind_eq_bind, Option.bind_eq_some_iff, Option.some.injEq] at hc
      obtain ⟨⟨q, reply⟩, hq, reply', hreply, rfl⟩ := hc
      rw [transmit_appendEntriesReply (hrange.appendReplies _ (List.mem_of_getElem? hq))] at hreply
      obtain rfl := Option.some.inj hreply
      rw [set_eq_self hq]
  | crashDuring b m ih => exact ih hc
  | _ => exact (Option.some.inj hc).symm

/-- The request for entries that an action delivers, to completion or not. -/
def carried (c : Cluster N) : Action N → Option (AppendCall N)
  | .deliverAppend k => c.appendRequests[k]?
  | .crashDuring a _ => c.carried a
  | _ => none

theorem receive_of_operation (hrange : c.InRange) {x : Fin N × RaftNode}
    (hop : c.operation a = some x) (hcarried : ∀ q ∈ c.carried a, q.args.Sendable) :
    c.receive a = some c := by
  have hsome : (c.receive a).isSome := by
    cases a with
    | deliverVote k =>
        simp only [operation, Option.bind_eq_bind, Option.bind_eq_some_iff] at hop
        obtain ⟨q, hq, -⟩ := hop
        have hsent := transmit_requestVote (hrange.voteRequests q (List.mem_of_getElem? hq))
        simp [receive, hq, hsent]
    | deliverAppend k =>
        simp only [operation, Option.bind_eq_bind, Option.bind_eq_some_iff] at hop
        obtain ⟨q, hq, -⟩ := hop
        have hsent := transmit_of_le AppendEntriesArgs.decode (hcarried q hq).1
        rw [AppendEntriesArgs.decode_eq_some.mpr
          ⟨rfl, hrange.appendRequests q (List.mem_of_getElem? hq)⟩] at hsent
        simp [receive, hq, hsent]
    | voteReply i k j =>
        simp only [operation, Option.bind_eq_bind, Option.bind_eq_some_iff] at hop
        obtain ⟨q, -, reply, hreply, -⟩ := hop
        cases hget : c.voteReplies[j]? with
        | none => simp [voteReplyTo, hget] at hreply
        | some r =>
            have hsent := transmit_requestVoteReply
              (hrange.voteReplies r (List.mem_of_getElem? hget))
            simp [receive, hget, hsent]
    | appendReply i k j =>
        simp only [operation, Option.bind_eq_bind, Option.bind_eq_some_iff] at hop
        obtain ⟨r, -, q, -, reply, hreply, -⟩ := hop
        cases hget : c.appendReplies[j]? with
        | none => simp [appendReplyTo, hget] at hreply
        | some r =>
            have hsent := transmit_appendEntriesReply
              (hrange.appendReplies r (List.mem_of_getElem? hget))
            simp [receive, hget, hsent]
    | crashDuring b m => simp [operation] at hop
    | _ => rfl
  obtain ⟨c₁, hc₁⟩ := Option.isSome_iff_exists.mp hsome
  rw [hc₁, receive_eq hrange hc₁]

/-- Only a request over the frame limit is not received. -/
theorem receive_of_step (hrange : c.InRange) (hs : c.step a = some c')
    (hcarried : ∀ q ∈ c.carried a, q.args.Sendable) : c.receive a = some c := by
  cases hop : c.operation a with
  | some x => exact receive_of_operation hrange hop hcarried
  | none =>
      cases a with
      | deliverVote k =>
          obtain ⟨q, hq, -⟩ := Option.map_eq_some_iff.mp hs
          simp [operation, hq] at hop
      | deliverAppend k =>
          obtain ⟨q, hq, -⟩ := Option.map_eq_some_iff.mp hs
          simp [operation, hq] at hop
      | voteReply i k j =>
          simp only [step, Option.bind_eq_bind, Option.bind_eq_some_iff] at hs
          obtain ⟨q, hq, reply, hreply, -⟩ := hs
          simp [operation, hq, hreply] at hop
      | appendReply i k j =>
          simp only [step, Option.bind_eq_bind, Option.bind_eq_some_iff] at hs
          obtain ⟨r, hr, q, hq, reply, hreply, -⟩ := hs
          simp [operation, hr, hq, hreply] at hop
      | crashDuring b m =>
          obtain ⟨x, hop', -⟩ := Option.map_eq_some_iff.mp hs
          exact receive_of_operation (a := b) hrange hop' hcarried
      | _ => rfl

/-- What a node is given to do comes from messages it received. -/
theorem admissible_of_receive (hrange : c.InRange) (hc : (c.receive a).isSome) (hfits : Fits a)
    {op : NodeOp} (hop : c.nodeOp a = some (i, op)) : op.Admissible := by
  cases a with
  | timeout x =>
      simp only [nodeOp, Option.ite_none_left_eq_some, Option.some.injEq, Prod.mk.injEq] at hop
      obtain ⟨-, -, rfl⟩ := hop
      trivial
  | submit x command =>
      simp only [nodeOp, Option.some.injEq, Prod.mk.injEq] at hop
      obtain ⟨-, rfl⟩ := hop
      exact hfits rfl
  | execute x cmd =>
      simp only [nodeOp, Option.some.injEq, Prod.mk.injEq] at hop
      obtain ⟨-, rfl⟩ := hop
      exact hfits rfl
  | deliverVote k =>
      simp only [nodeOp, Option.bind_eq_bind, Option.bind_eq_some_iff, Option.some.injEq,
        Prod.mk.injEq] at hop
      obtain ⟨q, hq, -, rfl⟩ := hop
      exact .of_decode (transmit_requestVote (hrange.voteRequests q (List.mem_of_getElem? hq)))
  | deliverAppend k =>
      simp only [nodeOp, Option.bind_eq_bind, Option.bind_eq_some_iff, Option.some.injEq,
        Prod.mk.injEq] at hop
      obtain ⟨q, hq, -, rfl⟩ := hop
      obtain ⟨c₁, hc₁⟩ := Option.isSome_iff_exists.mp hc
      simp only [receive, hq, Option.bind_eq_bind, Option.bind_some, Option.bind_eq_some_iff,
        Option.some.injEq] at hc₁
      obtain ⟨args, hargs, -⟩ := hc₁
      exact (transmit_appendEntries (hrange.appendRequests q (List.mem_of_getElem? hq)) hargs).2
  | voteReply x k j =>
      simp only [nodeOp, Option.bind_eq_bind, Option.bind_eq_some_iff, Option.some.injEq,
        Prod.mk.injEq] at hop
      obtain ⟨q, -, reply, hreply, -, rfl⟩ := hop
      exact .of_decode (transmit_requestVoteReply (hrange.voteReplies _ (voteReplyTo_mem hreply)))
  | appendReply x k j =>
      simp only [nodeOp, Option.bind_eq_bind, Option.bind_eq_some_iff, Option.some.injEq,
        Prod.mk.injEq] at hop
      obtain ⟨r, -, q, -, reply, hreply, -, rfl⟩ := hop
      exact .of_decode
        (transmit_appendEntriesReply (hrange.appendReplies _ (appendReplyTo_mem hreply)))
  | _ => simp [nodeOp] at hop

end Cluster

/-! ## Files -/

namespace Node.InStep

variable {x : Node} {op : NodeOp}

/-- A write that the process did not survive is complete or has not happened. -/
theorem load_cut (hx : x.InStep) (hop : op.Admissible) (m k : ℕ) :
    ∃ j, Storage.load (x.filesAt op m k) =
        .ok (x.storage.performAll ((op.run x.raft).1.effects.take j)) ∧
      (x.storage.performAll ((op.run x.raft).1.effects.take j)).WellFormed ∧
      (k = 0 → j = m) ∧ ((op.run x.raft).1.effects.take j).filterMap (Cluster.eventOf i) =
        ((op.run x.raft).1.effects.take m).filterMap (Cluster.eventOf i) := by
  obtain ⟨hfits, -⟩ := hx.effects_spec hop
  have hsome : ∀ j, (x.storage.performAll ((op.run x.raft).1.effects.take j)).WellFormed :=
    fun j ↦ hx.wellFormed.performAll fun e he ↦ hfits e (List.mem_of_mem_take he)
  unfold filesAt
  dsimp only
  split
  · rename_i e he
    rcases Nat.lt_or_ge k e.record.length with hk | hk
    · exact ⟨m, (hsome m).load_written (hfits _ (List.mem_of_getElem? he)) hk, hsome m,
        fun _ ↦ rfl, rfl⟩
    · have htake : (op.run x.raft).1.effects.take (m + 1) =
          (op.run x.raft).1.effects.take m ++ [.append e] := by
        rw [List.take_add_one, he, Option.toList_some]
      refine ⟨m + 1, ?_, hsome (m + 1), fun hzero ↦ ?_, ?_⟩
      · have hnext : x.storage.performAll ((op.run x.raft).1.effects.take (m + 1)) =
            (x.storage.performAll ((op.run x.raft).1.effects.take m)).append e := by
          rw [htake, Storage.performAll, List.foldl_append]
          rfl
        have hwhole : (x.storage.performAll ((op.run x.raft).1.effects.take m)).written e k =
            ((x.storage.performAll ((op.run x.raft).1.effects.take m)).append e).dir := by
          rw [Storage.append, Storage.written, Storage.written, List.take_of_length_le hk,
            List.take_length]
        rw [hwhole, ← hnext]
        exact (hsome (m + 1)).load
      · rw [hzero, LogEntry.record, List.length_append, Encoder.length_u32] at hk
        omega
      · rw [htake, List.filterMap_append]
        simp [Cluster.eventOf]
  · exact ⟨m, (hsome m).load, hsome m, fun _ ↦ rfl, rfl⟩

end Node.InStep

/-! ## The physical cluster -/

/-- A cluster with the storage object and the files of each process. The durable states in
`cluster` say what should be in the files; no physical step reads them. -/
structure Physical (N : ℕ) where
  cluster : Cluster N
  disks : Fin N → Storage

namespace Physical

variable {p p' : Physical N}

/-- The consensus core of process `i` on its storage object. -/
def node (p : Physical N) (i : Fin N) : Node := ⟨p.cluster.raft i, p.disks i, []⟩

/-- Process `i` is gone and starts again on the given files. -/
def reboot (p : Physical N) (i : Fin N) (dir : Directory) (events : List (Event N)) :
    Option (Physical N) :=
  match Storage.load dir with
  | .ok s => some ⟨(p.cluster.setProcess i (.boot i s.durable)).record events,
      Function.update p.disks i s⟩
  | .failed | .outOfRange | .outOfFuel => none

/-- An action in which no process dies. -/
def run (p : Physical N) (a : Action N) : Option (Physical N) :=
  (p.cluster.step a).map fun c ↦
    match p.cluster.nodeOp a with
    | some (i, op) => ⟨c, Function.update p.disks i ((p.node i).perform op).storage⟩
    | none => ⟨c, p.disks⟩

/-- An action on what its receiver decodes. Of a record that is being written when the
process dies, `torn` bytes are in the file. -/
def step (p : Physical N) (a : Action N) (torn : ℕ) : Option (Physical N) :=
  (p.cluster.receive a).bind fun c ↦
    let p : Physical N := { p with cluster := c }
    match a with
    | .crash i => p.reboot i (p.disks i).dir []
    | .crashDuring b m =>
        (c.nodeOp b).bind fun (i, op) ↦
          (p.reboot i ((p.node i).filesAt op m torn)
            (((op.run (c.raft i)).1.effects.take m).filterMap (Cluster.eventOf i))).map
            fun p ↦ { p with cluster := p.cluster.consume b }
    | a => p.run a

/-- Perform a list of actions, each with the bytes it leaves of a torn record, as long as
they are enabled and in range. -/
def play (p : Physical N) : List (Action N × ℕ) → Option (Physical N)
  | [] => some p
  | (a, torn) :: actions =>
      (p.step a torn).bind fun p' ↦
        if Cluster.Fits a ∧ p'.cluster.TermsBounded ∧ p'.cluster.LogsBounded then
          p'.play actions
        else none

/-- The files are in order and hold what they should. -/
structure Faithful (p : Physical N) : Prop where
  wellFormed : ∀ i, (p.disks i).WellFormed
  durable : ∀ i, (p.disks i).durable = (p.cluster.processes i).storage
  range : p.cluster.InRange

theorem Faithful.inStep (hp : p.Faithful) (hsim : Sim p.cluster h) (hb : p.cluster.TermsBounded)
    (i : Fin N) : (p.node i).InStep :=
  ⟨hp.wellFormed i, (hp.durable i).trans (hsim.storage_eq i), hsim.ranged hb i,
    (hsim.nodes i).idle⟩

/-- The entries of a log are those of its disk. -/
theorem Faithful.log_ranged (hp : p.Faithful) (hsim : Sim p.cluster h)
    (hb : p.cluster.TermsBounded) (i : Fin N) : ∀ e ∈ (p.cluster.raft i).log, e.Ranged := by
  intro e he
  rw [show (p.cluster.raft i).log = _ from (hp.inStep hsim hb i).log_eq] at he
  rcases List.mem_cons.mp he with rfl | hmem
  · exact ⟨Nat.two_pow_pos 64, Nat.two_pow_pos 32⟩
  · obtain ⟨hterm, hlen⟩ := (hp.wellFormed i).fits e hmem
    exact ⟨hterm, by omega⟩

/-- The disks that a step has written to, and those it has not. -/
theorem disks_update {i : Fin N} {s : Storage} (hs : s.WellFormed)
    (hwell : ∀ j, (p.disks j).WellFormed) (hself : s.durable = (c.processes i).storage)
    (hother : ∀ j ≠ i, (p.disks j).durable = (c.processes j).storage) (j : Fin N) :
    (Function.update p.disks i s j).WellFormed ∧
      (Function.update p.disks i s j).durable = (c.processes j).storage := by
  by_cases hj : j = i
  · subst hj
    rw [Function.update_self]
    exact ⟨hs, hself⟩
  · rw [Function.update_of_ne hj]
    exact ⟨hwell j, hother j hj⟩

/-- The action of the cluster model that a physical one is: a process that leaves bytes of
a record behind may have died one write later. -/
def Counterpart (torn : ℕ) (a b : Action N) : Prop :=
  b = a ∨ 0 < torn ∧ ∃ a₀ m m', a = .crashDuring a₀ m ∧ b = .crashDuring a₀ m'

/-- What is to be shown of every physical step. -/
def Mirrors (p : Physical N) (a : Action N) (torn : ℕ) (p' : Physical N) : Prop :=
  p.step a torn = some p' ∧ (∃ b, Counterpart torn a b ∧ p.cluster.step b = some p'.cluster) ∧
    ∀ j, (p'.disks j).WellFormed ∧ (p'.disks j).durable = (p'.cluster.processes j).storage

theorem mirrors_run (hp : p.Faithful) (hsim : Sim p.cluster h) (hb : p.cluster.TermsBounded)
    (hc : p.cluster.receive a = some p.cluster) (hfits : Cluster.Fits a)
    (hs : p.cluster.step a = some c') (ha : ∀ b m, a ≠ .crashDuring b m) :
    ∃ p', p.run a = some p' ∧ p'.cluster = c' ∧
      ∀ j, (p'.disks j).WellFormed ∧ (p'.disks j).durable = (c'.processes j).storage := by
  rcases Cluster.storage_step hs with ⟨hnone, hsame⟩ |
    ⟨b, i, n, m, hop, ⟨rfl, rfl⟩ | hcrash, hself, hother⟩
  · refine ⟨⟨c', p.disks⟩, ?_, rfl, fun j ↦ ⟨hp.wellFormed j, ?_⟩⟩
    · simp [run, hs, Cluster.nodeOp_eq_none hnone]
    · rw [hsame]
      exact hp.durable j
  · rw [Cluster.operation_eq] at hop
    obtain ⟨⟨x, op⟩, hnode, heq⟩ := Option.map_eq_some_iff.mp hop
    obtain ⟨rfl, rfl⟩ := Prod.mk.inj heq
    have hadm := Cluster.admissible_of_receive hp.range (by rw [hc]; rfl) hfits hnode
    have hstep := (hp.inStep hsim hb x).perform hadm
    refine ⟨⟨c', Function.update p.disks x ((p.node x).perform op).storage⟩, ?_, rfl, ?_⟩
    · simp [run, hs, hnode]
    · refine disks_update hstep.wellFormed hp.wellFormed ?_ fun j hj ↦ ?_
      · rw [hself, List.take_length, ← hp.durable x, ← Storage.durable_performAll]
        rfl
      · rw [hother j hj]
        exact hp.durable j
  · exact absurd hcrash (ha b m)

theorem mirrors_crash (hp : p.Faithful) (i : Fin N) (torn : ℕ) :
    ∃ p', p.Mirrors (.crash i) torn p' := by
  have hboot : p.step (.crash i) torn = some ⟨p.cluster.restart i [],
      Function.update p.disks i (p.disks i)⟩ := by
    show p.reboot i (p.disks i).dir [] = _
    rw [reboot, (hp.wellFormed i).load]
    simp only [hp.durable i]
    rfl
  refine ⟨_, hboot, ⟨.crash i, Or.inl rfl, rfl⟩, ?_⟩
  refine disks_update (hp.wellFormed i) hp.wellFormed ?_ fun j hj ↦ ?_
  · rw [hp.durable i]
    simp [Cluster.restart, Cluster.record, Process.boot, DurableState.performAll]
  · rw [hp.durable j]
    simp [Cluster.restart, Cluster.record, hj]

theorem mirrors_crashDuring (hp : p.Faithful) (hsim : Sim p.cluster h)
    (hb : p.cluster.TermsBounded) (hc : p.cluster.receive a = some p.cluster)
    (hfits : Cluster.Fits a) {op : NodeOp} (hop : p.cluster.nodeOp a = some (i, op))
    (m torn : ℕ) : ∃ p', p.Mirrors (.crashDuring a m) torn p' := by
  have hadm := Cluster.admissible_of_receive hp.range (by rw [hc]; rfl) hfits hop
  obtain ⟨j, hload, hwell, hzero, hevents⟩ := (hp.inStep hsim hb i).load_cut (i := i) hadm m torn
  set es := (op.run (p.cluster.raft i)).1.effects with hes
  set s := (p.disks i).performAll (es.take j) with hs
  have hdurable : s.durable = (p.cluster.processes i).storage.performAll (es.take j) := by
    rw [hs, Storage.durable_performAll, hp.durable i]
  have hprocesses : ((p.cluster.restart i (es.take j)).consume a).processes =
      (p.cluster.restart i (es.take j)).processes := by
    cases a with
    | _ => rfl
  have hboot : p.reboot i ((p.node i).filesAt op m torn)
      ((es.take m).filterMap (Cluster.eventOf i)) =
      some ⟨p.cluster.restart i (es.take j), Function.update p.disks i s⟩ := by
    change (es.take j).filterMap _ = (es.take m).filterMap _ at hevents
    rw [reboot, hload, ← hevents, Cluster.restart, ← hdurable]
    rfl
  refine ⟨⟨(p.cluster.restart i (es.take j)).consume a, Function.update p.disks i s⟩, ?_,
    ⟨.crashDuring a j, ?_, ?_⟩, ?_⟩
  · have hreceive : p.cluster.receive (.crashDuring a m) = some p.cluster := hc
    simp only [step, hreceive, Option.bind_some, hop]
    exact congrArg (Option.map _) hboot
  · rcases Nat.eq_zero_or_pos torn with htorn | htorn
    · exact Or.inl (by rw [hzero htorn])
    · exact Or.inr ⟨htorn, a, m, j, rfl, rfl⟩
  · rw [Cluster.step, Cluster.operation_eq, hop]
    rfl
  · refine disks_update hwell hp.wellFormed ?_ fun x hx ↦ ?_
    · rw [hprocesses, hdurable]
      simp [Cluster.restart, Cluster.record, Process.boot]
    · rw [hprocesses, hp.durable x]
      simp [Cluster.restart, Cluster.record, hx]

/-- A step of the model on messages that arrive is a physical step, whatever is left of
the record under way. -/
theorem exists_mirrors (hp : p.Faithful) (hsim : Sim p.cluster h) (hb : p.cluster.TermsBounded)
    (hc : p.cluster.receive a = some p.cluster) (hfits : Cluster.Fits a)
    (hs : p.cluster.step a = some c') (torn : ℕ) : ∃ p', p.Mirrors a torn p' := by
  by_cases hcrash : ∃ b m, a = .crashDuring b m
  · obtain ⟨b, m, rfl⟩ := hcrash
    obtain ⟨x, hop, -⟩ := Option.map_eq_some_iff.mp hs
    rw [Cluster.operation_eq] at hop
    obtain ⟨⟨i, op⟩, hnode, -⟩ := Option.map_eq_some_iff.mp hop
    exact mirrors_crashDuring (a := b) hp hsim hb hc hfits hnode m torn
  · simp only [not_exists] at hcrash
    obtain ⟨p', hrun, rfl, hdisks⟩ := mirrors_run hp hsim hb hc hfits hs hcrash
    cases a with
    | crash i => exact mirrors_crash hp i torn
    | crashDuring b m => exact absurd rfl (hcrash b m)
    | _ =>
        refine ⟨p', ?_, ⟨_, Or.inl rfl, hs⟩, hdisks⟩
        simp only [step, hc, Option.bind_some]
        exact hrun

/-- A physical step is a step of the model. -/
theorem Faithful.mirrors (hp : p.Faithful) (hsim : Sim p.cluster h) (hb : p.cluster.TermsBounded)
    (hfits : Cluster.Fits a) {torn : ℕ} (hs : p.step a torn = some p') : p.Mirrors a torn p' := by
  obtain ⟨c₁, hc, hrest⟩ := Option.bind_eq_some_iff.mp hs
  obtain rfl := Cluster.receive_eq hp.range hc
  have henabled : ∃ c', p.cluster.step a = some c' := by
    cases a with
    | crash i => exact ⟨_, rfl⟩
    | crashDuring b m =>
        obtain ⟨⟨i, op⟩, hop, -⟩ := Option.bind_eq_some_iff.mp hrest
        exact ⟨_, by rw [Cluster.step, Cluster.operation_eq, hop]; rfl⟩
    | _ =>
        obtain ⟨c', hc', -⟩ := Option.map_eq_some_iff.mp hrest
        exact ⟨c', hc'⟩
  obtain ⟨c', hs'⟩ := henabled
  obtain ⟨p'', hmirrors⟩ := exists_mirrors hp hsim hb hc hfits hs' torn
  obtain rfl := Option.some.inj (hmirrors.1.symm.trans hs)
  exact hmirrors

end Physical

/-- The physical clusters that start from empty directories and take actions that satisfy
`ok`. Term counters and log indices stay below their width, and commands are no longer than
a line that a server accepts. -/
inductive PhysicalRun (ok : Cluster N → Action N → Prop) : Physical N → Prop
  | initial (hpos : 0 < N) (hsize : N < 2 ^ 32) {s : Storage}
      (hload : Storage.load Directory.empty = .ok s) :
      PhysicalRun ok ⟨Cluster.initial N, fun _ ↦ s⟩
  | step {p p' : Physical N} {a : Action N} {torn : ℕ} (h : PhysicalRun ok p)
      (hok : ok p.cluster a) (hfits : Cluster.Fits a) (hs : p.step a torn = some p')
      (hb : p'.cluster.TermsBounded) (hlogs : p'.cluster.LogsBounded) : PhysicalRun ok p'

namespace PhysicalRun

variable {ok : Cluster N → Action N → Prop} {p : Physical N}

/-- The invariant of a physical run. -/
theorem faithful (hcrash : ∀ {c b m m'}, ok c (.crashDuring b m) → ok c (.crashDuring b m'))
    (hrun : PhysicalRun ok p) : Run ok p.cluster ∧ p.Faithful ∧ p.cluster.LogsBounded := by
  induction hrun with
  | initial hpos hsize hload =>
      obtain ⟨s, hs, -, hwell⟩ := Storage.exists_load_empty
      obtain rfl := LoadResult.ok.inj (hs.symm.trans hload)
      have hempty := LoadResult.ok.inj (Node.load_emptyStorage.symm.trans hload)
      refine ⟨.initial hpos hsize, ⟨fun _ ↦ hwell, fun _ ↦ ?_, .initial N⟩, fun _ ↦ ?_⟩
      · show Storage.durable _ = _
        rw [← hempty]
        rfl
      · show 1 < 2 ^ 64
        decide
  | @step p p' a torn _ hok hfits hs hb hlogs ih =>
      obtain ⟨hrun, hp, hlogs₀⟩ := ih
      obtain ⟨h, hsim⟩ := hrun.exists_sim
      have hb₀ := hrun.termsBounded
      obtain ⟨-, ⟨b, hcounter, hstep⟩, hdisks⟩ := hp.mirrors hsim hb₀ hfits hs
      have hokb : ok p.cluster b := by
        rcases hcounter with rfl | ⟨-, a₀, m, m', rfl, rfl⟩
        · exact hok
        · exact hcrash hok
      have hrange := hp.range.step hsim hrun.size hb₀ hlogs₀ (hp.log_ranged hsim hb₀) hstep hlogs
      exact ⟨.step hrun hokb hstep hb,
        ⟨fun j ↦ (hdisks j).1, fun j ↦ (hdisks j).2, hrange⟩, hlogs⟩

theorem play {p' : Physical N} {actions : List (Action N × ℕ)}
    (hrun : PhysicalRun (fun _ _ ↦ True) p) (hplay : p.play actions = some p') :
    PhysicalRun (fun _ _ ↦ True) p' := by
  induction actions generalizing p with
  | nil =>
      obtain rfl := Option.some.inj hplay
      exact hrun
  | cons x actions ih =>
      simp only [Physical.play, Option.bind_eq_some_iff] at hplay
      obtain ⟨p₁, hs, hplay⟩ := hplay
      split_ifs at hplay with hok
      exact ih (.step hrun trivial hok.1 hs hok.2.1 hok.2.2) hplay

theorem exists_of_play (hpos : 0 < N) (hsize : N < 2 ^ 32) (actions : List (Action N × ℕ))
    {P : Physical N → Prop} [DecidablePred P]
    (hplay : (Physical.play ⟨Cluster.initial N, fun _ ↦ Node.emptyStorage⟩ actions).any
      (fun p ↦ P p) = true) : ∃ p, PhysicalRun (fun _ _ ↦ True) p ∧ P p := by
  simp only [Option.any_eq_true, decide_eq_true_eq] at hplay
  obtain ⟨p, hplay, hp⟩ := hplay
  exact ⟨p, play (.initial hpos hsize Node.load_emptyStorage) hplay, hp⟩

end PhysicalRun

/-- Bytes on the wire and in the files change nothing: a physical run is a run of the
cluster model, and each directory loads to the durable state that the model says. -/
theorem physical_refines {ok : Cluster N → Action N → Prop}
    (hcrash : ∀ {c b m m'}, ok c (.crashDuring b m) → ok c (.crashDuring b m'))
    {p : Physical N} (hrun : PhysicalRun ok p) :
    Run ok p.cluster ∧ ∀ i, Storage.load (p.disks i).dir = .ok (p.disks i) ∧
      (p.disks i).durable = (p.cluster.processes i).storage := by
  obtain ⟨hmodel, hp, -⟩ := hrun.faithful hcrash
  exact ⟨hmodel, fun i ↦ ⟨(hp.wellFormed i).load, hp.durable i⟩⟩

/-- A node on its own is elected and dies in a submission, five bytes into the record. -/
theorem physical_refines_torn : ∃ p : Physical 1,
    (AnyRun p.cluster ∧ ∀ i, Storage.load (p.disks i).dir = .ok (p.disks i) ∧
      (p.disks i).durable = (p.cluster.processes i).storage) ∧
    (p.disks 0).entries = [⟨1, []⟩] ∧ (p.cluster.raft 0).role = .follower ∧
    .becomeLeader 0 1 [] ∈ p.cluster.trace := by
  obtain ⟨p, hrun, hend⟩ : ∃ p : Physical 1, PhysicalRun (fun _ _ ↦ True) p ∧
      (p.disks 0).entries = [⟨1, []⟩] ∧ (p.cluster.raft 0).role = .follower ∧
      .becomeLeader 0 1 [] ∈ p.cluster.trace :=
    PhysicalRun.exists_of_play (by decide) (by decide)
      [(.timeout 0, 0), (.crashDuring (.submit 0 [7]) 0, 5)] (by decide +kernel)
  exact ⟨p, physical_refines (fun _ ↦ trivial) hrun, hend⟩

/-- Nothing that the model allows is lost but requests over the frame limit: every enabled
action is a physical one, with the same outcome, and a process that dies at any byte of any
write starts again. -/
theorem physical_complete {p : Physical N} (hrun : PhysicalRun (fun _ _ ↦ True) p)
    (hfits : Cluster.Fits a) (hcarried : ∀ q ∈ p.cluster.carried a, q.args.Sendable)
    (hs : p.cluster.step a = some c') :
    (∃ p', p.step a 0 = some p' ∧ p'.cluster = c') ∧ ∀ torn, ∃ p', p.step a torn = some p' := by
  obtain ⟨hmodel, hp, -⟩ := hrun.faithful fun _ ↦ trivial
  obtain ⟨h, hsim⟩ := hmodel.exists_sim
  have hc := Cluster.receive_of_step hp.range hs hcarried
  have hexists := Physical.exists_mirrors hp hsim hmodel.termsBounded hc hfits hs
  refine ⟨?_, fun torn ↦ ?_⟩
  · obtain ⟨p', hstep, ⟨b, rfl | ⟨hpos, -⟩, hb⟩, -⟩ := hexists 0
    · exact ⟨p', hstep, Option.some.inj (hb.symm.trans hs)⟩
    · simp at hpos
  · obtain ⟨p', hstep, -⟩ := hexists torn
    exact ⟨p', hstep⟩

/-- Node 1 of two is sent two entries. It takes them, or it dies five bytes into the
record of the second one and is left with the first; and the leader may die as far into
the record of its next command. -/
theorem physical_complete_delivery : ∃ p : Physical 2, PhysicalRun (fun _ _ ↦ True) p ∧
    p.cluster.appendRequests.map (·.args.entries) = [[⟨1, []⟩, ⟨1, [7]⟩]] ∧
    (∃ p', p.step (.deliverAppend 0) 0 = some p' ∧
      p.cluster.step (.deliverAppend 0) = some p'.cluster ∧
      (p'.disks 1).entries = [⟨1, []⟩, ⟨1, [7]⟩]) ∧
    (∃ p', p.step (.crashDuring (.deliverAppend 0) 1) 5 = some p' ∧
      (p'.disks 1).entries = [⟨1, []⟩]) ∧
    ∃ p', p.step (.crashDuring (.submit 0 [8]) 0) 5 = some p' ∧
      (p'.disks 0).entries = [⟨1, []⟩, ⟨1, [7]⟩] := by
  obtain ⟨p, hrun, hsent, hwhole, hcut, htorn⟩ : ∃ p : Physical 2,
      PhysicalRun (fun _ _ ↦ True) p ∧
      p.cluster.appendRequests.map (·.args) = [⟨1, 0, 0, 0, 0, [⟨1, []⟩, ⟨1, [7]⟩]⟩] ∧
      ((p.cluster.step (.deliverAppend 0)).isSome ∧ ∀ p' ∈ p.step (.deliverAppend 0) 0,
        (p'.disks 1).entries = [⟨1, []⟩, ⟨1, [7]⟩]) ∧
      ((p.cluster.step (.crashDuring (.deliverAppend 0) 1)).isSome ∧
        ∀ p' ∈ p.step (.crashDuring (.deliverAppend 0) 1) 5, (p'.disks 1).entries = [⟨1, []⟩]) ∧
      (p.cluster.step (.crashDuring (.submit 0 [8]) 0)).isSome ∧
        ∀ p' ∈ p.step (.crashDuring (.submit 0 [8]) 0) 5,
          (p'.disks 0).entries = [⟨1, []⟩, ⟨1, [7]⟩] :=
    PhysicalRun.exists_of_play (by decide) (by decide)
      [(.timeout 0, 0), (.deliverVote 0, 0), (.voteReply 0 0 0, 0), (.submit 0 [7], 0),
        (.send 0 0, 0)] (by decide +kernel)
  have hcarried : ∀ q ∈ p.cluster.carried (.deliverAppend 0), q.args.Sendable := by
    intro q hq
    have hmem := List.mem_map_of_mem (f := (·.args)) (List.mem_of_getElem? hq)
    rw [hsent, List.mem_singleton] at hmem
    rw [hmem, AppendEntriesArgs.sendable_iff]
    decide
  obtain ⟨c₁, hs₁⟩ := Option.isSome_iff_exists.mp hwhole.1
  obtain ⟨c₂, hs₂⟩ := Option.isSome_iff_exists.mp hcut.1
  obtain ⟨c₃, hs₃⟩ := Option.isSome_iff_exists.mp htorn.1
  obtain ⟨p₁, hp₁, rfl⟩ := (physical_complete hrun (by decide) hcarried hs₁).1
  obtain ⟨p₂, hp₂⟩ := (physical_complete hrun (a := .crashDuring (.deliverAppend 0) 1)
    (by decide) hcarried hs₂).2 5
  obtain ⟨p₃, hp₃⟩ := (physical_complete hrun (by decide) (by simp [Cluster.carried]) hs₃).2 5
  exact ⟨p, hrun, by simpa using congrArg (List.map (·.entries)) hsent,
    ⟨p₁, hp₁, hs₁, hwhole.2 p₁ hp₁⟩, ⟨p₂, hp₂, hcut.2 p₂ hp₂⟩, p₃, hp₃, htorn.2 p₃ hp₃⟩

end Dkvs
