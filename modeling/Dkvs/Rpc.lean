import Dkvs.Framing
import Dkvs.Frames
import Dkvs.Storage.Persists

/-!
# Remote calls over connections

A caller opens a connection, sends one frame and reads one frame back. The server reads
frames as long as it can decode and answer them. Either stream may end at any byte and
arrive in any segments. Whatever happens to a connection, the callee has executed the call
as it was made or has not noticed it, and a caller that gets a reply gets the callee's.
-/

namespace Dkvs

/-- The two calls between nodes. -/
inductive Rpc where
  | requestVote (args : RequestVoteArgs)
  | appendEntries (args : AppendEntriesArgs)
  deriving DecidableEq, Repr

inductive RpcReply where
  | requestVote (reply : RequestVoteReply)
  | appendEntries (reply : AppendEntriesReply)
  deriving DecidableEq, Repr

namespace Rpc

def encode : Rpc → Bytes
  | .requestVote args => args.encode
  | .appendEntries args => args.encode

def Ranged : Rpc → Prop
  | .requestVote args => args.Ranged
  | .appendEntries args => args.Ranged

/-- What the caller makes of the frame it gets back. -/
def decodeReply : Rpc → Bytes → Option RpcReply
  | .requestVote _, raw => (RequestVoteReply.decode raw).map .requestVote
  | .appendEntries _, raw => (AppendEntriesReply.decode raw).map .appendEntries

end Rpc

def RpcReply.encode : RpcReply → Bytes
  | .requestVote reply => reply.encode
  | .appendEntries reply => reply.encode

/-! ## The callee -/

namespace RaftNode

/-- The node after a call, and its reply. -/
def onRpc (n : RaftNode) : Rpc → RaftNode × RpcReply
  | .requestVote args => ((n.onRequestVote args).1, .requestVote (n.onRequestVote args).2)
  | .appendEntries args => ((n.onAppendEntries args).1, .appendEntries (n.onAppendEntries args).2)

/-- One round of `handleRaftConnection`: the frame selects the decoder by its first byte.
Without a reply the connection is closed. -/
def onFrame (n : RaftNode) (frame : Bytes) : Option (RaftNode × Bytes) :=
  match frame with
  | [] => none
  | tag :: _ =>
      if tag.toNat = MsgType.requestVoteArgs.toByte then
        (RequestVoteArgs.decode frame).map fun args ↦
          ((n.onRequestVote args).1, (n.onRequestVote args).2.encode)
      else if tag.toNat = MsgType.appendEntriesArgs.toByte then
        (AppendEntriesArgs.decode frame).map fun args ↦
          ((n.onAppendEntries args).1, (n.onAppendEntries args).2.encode)
      else none

/-- The loop over the frames of a connection. It ends after `rounds` rounds when the server
is told to stop, and in the round in which a reply cannot be sent; `writable` replies can. -/
def serveFrames (n : RaftNode) : List Bytes → ℕ → ℕ → RaftNode × List Bytes
  | [], _, _ => (n, [])
  | _ :: _, 0, _ => (n, [])
  | frame :: frames, rounds + 1, writable =>
      match n.onFrame frame with
      | none => (n, [])
      | some (n', reply) =>
          match writable with
          | 0 => (n', [reply])
          | writable + 1 =>
              let rest := n'.serveFrames frames rounds writable
              (rest.1, reply :: rest.2)

/-- The node when the connection is closed, and the replies that were written to it. -/
def handleRaftConnection (n : RaftNode) (s : Socket) (rounds writable : ℕ) :
    RaftNode × List Bytes :=
  n.serveFrames s.recvFrames rounds writable

end RaftNode

/-! ## The caller -/

/-- `TcpTransport::call` once the connection is open: the reply is only read if the whole
request could be sent. -/
def TcpTransport.call (sent : Bool) (answer : Socket) : Option Bytes :=
  if sent then answer.recvFrame.map Prod.fst else none

/-- `TcpTransport::requestVote` and `TcpTransport::appendEntries`. -/
def TcpTransport.request (call : Rpc) (sent : Bool) (answer : Socket) : Option RpcReply :=
  (TcpTransport.call sent answer).bind call.decodeReply

/-- What becomes of one connection. -/
structure Connection where
  /-- The caller could send all of its request. -/
  sent : Bool
  /-- What the callee receives. -/
  request : Socket
  rounds : ℕ
  writable : ℕ
  /-- What the caller receives. -/
  answer : Socket

/-- The callee receives an initial part of the request, and the caller an initial part of
what the callee wrote, both cut into segments in any way. -/
structure Connection.Carries (conn : Connection) (n : RaftNode) (call : Rpc) : Prop where
  request_proper : conn.request.Proper
  request : conn.request.bytes <+: sendFrame call.encode
  answer_proper : conn.answer.Proper
  answer : conn.answer.bytes <+:
    (n.handleRaftConnection conn.request conn.rounds conn.writable).2.flatMap sendFrame

/-! ## Frames of a connection -/

/-- A connection that carries a part of one frame delivers its payload or nothing. -/
theorem Socket.recvFrames_of_isPrefix {s : Socket} (hs : s.Proper) {payload : Bytes}
    (hsize : payload.length ≤ kMaxFrameBytes) (hbytes : s.bytes <+: sendFrame payload) :
    s.recvFrames = [] ∨ s.recvFrames = [payload] ∧ s.bytes = sendFrame payload := by
  have hvalid : ∀ p ∈ [payload], frameCode.Valid p := List.forall_mem_singleton.mpr hsize
  have hone : frameCode.concat [payload] = sendFrame payload := List.append_nil _
  have hlongest := recvFrames_longest hs
  have hpre := (RecordLog.PrefixCode.Longest.concat hvalid).maximal hlongest.valid
    (hlongest.isPrefix.trans (hone ▸ hbytes))
  rcases List.prefix_cons_iff.mp hpre with hnil | ⟨rest, hcons, hrest⟩
  · exact Or.inl hnil
  · rw [List.prefix_nil.mp hrest] at hcons
    refine Or.inr ⟨hcons, hbytes.eq_of_length_le ?_⟩
    have hle := hlongest.isPrefix.length_le
    rwa [hcons, hone] at hle

/-- A frame over the limit is not received, and nothing behind it. -/
theorem Socket.recvFrames_of_tooLong {s : Socket} (hs : s.Proper) {payload : Bytes}
    (hsize : kMaxFrameBytes < payload.length) (hwidth : payload.length < 2 ^ 32)
    (hbytes : s.bytes <+: sendFrame payload) : s.recvFrames = [] := by
  rw [recvFrames]
  split
  · rfl
  · rename_i first s' hframe
    rcases recvFrame_eq hs with ⟨first', s'', hframe', -, hread⟩ | ⟨hnone, -⟩
    · -- both frames begin with the length that is announced
      obtain ⟨hsplit, hfirst⟩ := recvFrame_eq_payload hread
      have hpre : sendFrame first' <+: sendFrame payload :=
        (hsplit ▸ List.prefix_append _ _ : sendFrame first' <+: s.bytes).trans hbytes
      have hwidth' : first'.length < 2 ^ 32 := by
        unfold kMaxFrameBytes at hfirst
        omega
      have hlength : Encoder.u32 first'.length = Encoder.u32 payload.length := by
        rw [sendFrame, sendFrame, Nat.mod_eq_of_lt hwidth, Nat.mod_eq_of_lt hwidth'] at hpre
        obtain ⟨rest, hrest⟩ := hpre
        rw [List.append_assoc] at hrest
        exact (List.append_inj hrest (by rw [Encoder.length_u32, Encoder.length_u32])).1
      have hsame := Encoder.u32_injective hwidth' hwidth hlength
      omega
    · simp [hframe] at hnone

/-- A caller reads the one reply that was written, or nothing. -/
theorem Socket.recvFrame_of_isPrefix {s : Socket} (hs : s.Proper) {reply : Bytes}
    (hsize : reply.length ≤ kMaxFrameBytes) (hbytes : s.bytes <+: sendFrame reply) :
    s.recvFrame.map Prod.fst = none ∨ s.recvFrame.map Prod.fst = some reply := by
  rcases recvFrame_eq hs with ⟨first, s', hframe, -, hread⟩ | ⟨hnone, -⟩
  · obtain ⟨hsplit, hfirst⟩ := recvFrame_eq_payload hread
    have hpre : sendFrame first <+: sendFrame reply :=
      (hsplit ▸ List.prefix_append _ _ : sendFrame first <+: s.bytes).trans hbytes
    right
    rw [hframe, Option.map_some, frameCode.prefix_free hfirst hsize hpre]
  · exact Or.inl (by rw [hnone, Option.map_none])

theorem Socket.recvFrame_nil {s : Socket} (hs : s.Proper) (hbytes : s.bytes = []) :
    s.recvFrame.map Prod.fst = none := by
  rcases recvFrame_eq hs with ⟨first, s', -, -, hread⟩ | ⟨hnone, -⟩
  · have hlen := congrArg List.length (recvFrame_eq_payload hread).1
    rw [hbytes, sendFrame, List.length_append, List.length_append, Encoder.length_u32] at hlen
    simp at hlen
    omega
  · rw [hnone, Option.map_none]

/-! ## Replies -/

namespace RaftNode

theorem conflictScan_le (n : RaftNode) (t i : ℕ) : n.conflictScan t i ≤ i := by
  induction i with
  | zero => exact le_rfl
  | succ i ih =>
      cases i with
      | zero => exact le_rfl
      | succ i =>
          rw [conflictScan]
          split_ifs with hterm
          · exact ih.trans (Nat.le_succ _)
          · exact le_rfl

theorem onRequestVote_reply_term (n : RaftNode) (args : RequestVoteArgs) :
    (n.onRequestVote args).2.term ≤ max n.currentTerm args.term := by
  unfold onRequestVote
  dsimp only
  split_ifs with hstale hlater hgrant hgrant
  · exact le_max_left _ _
  · simp [becomeFollower_currentTerm hlater.le]
  · simp [becomeFollower_currentTerm hlater.le]
  · exact le_max_left _ _
  · exact le_max_left _ _

/-- The numbers in a reply are bounded by those of the node and of the request. -/
theorem onAppendEntries_reply {n : RaftNode} (hlog : n.log ≠ []) (args : AppendEntriesArgs) :
    (n.onAppendEntries args).2.term ≤ max n.currentTerm args.term ∧
      (n.onAppendEntries args).2.conflictIndex ≤ args.prevLogIndex := by
  refine ⟨?_, ?_⟩
  · rw [onAppendEntries_term]
    rcases Nat.lt_or_ge args.term n.currentTerm with hstale | hle
    · rw [onAppendEntries, if_pos hstale]
      exact le_max_left _ _
    · rw [onAppendEntries_currentTerm hlog hle]
      exact le_max_right _ _
  · unfold onAppendEntries
    dsimp only
    split_ifs with hstale hprev hmatch
    · exact Nat.zero_le _
    · exact hprev
    · exact conflictScan_le _ _ _
    · exact Nat.zero_le _

/-- The caller decodes what the callee encodes. -/
theorem decodeReply_onRpc {n : RaftNode} (hn : n.Ranged) {call : Rpc} (hcall : call.Ranged) :
    call.decodeReply (n.onRpc call).2.encode = some (n.onRpc call).2 := by
  have hnode := hn.term
  cases call with
  | requestVote args =>
      have hterm := n.onRequestVote_reply_term args
      have hargs := hcall.1
      have hdecode : RequestVoteReply.decode (n.onRequestVote args).2.encode =
          some (n.onRequestVote args).2 :=
        RequestVoteReply.decode_eq_some.mpr
          ⟨by omega, _, flag_written _, RequestVoteReply.encode_eq _⟩
      simp [onRpc, RpcReply.encode, Rpc.decodeReply, hdecode]
  | appendEntries args =>
      obtain ⟨hterm, hindex⟩ := onAppendEntries_reply (by rw [hn.log_eq]; simp) args
      have hargs := hcall.1
      have hprev := hcall.2.2.1
      have hdecode : AppendEntriesReply.decode (n.onAppendEntries args).2.encode =
          some (n.onAppendEntries args).2 :=
        AppendEntriesReply.decode_eq_some.mpr
          ⟨⟨by omega, by omega⟩, _, flag_written _, AppendEntriesReply.encode_eq _⟩
      simp [onRpc, RpcReply.encode, Rpc.decodeReply, hdecode]

theorem onFrame_encode (n : RaftNode) {call : Rpc} (hcall : call.Ranged) :
    n.onFrame call.encode = some ((n.onRpc call).1, (n.onRpc call).2.encode) := by
  cases call with
  | requestVote args =>
      have hdecode := RequestVoteArgs.decode_eq_some.mpr ⟨rfl, hcall⟩
      obtain ⟨rest, hrest⟩ : ∃ rest, args.encode = 1 :: rest := ⟨_, rfl⟩
      rw [hrest] at hdecode
      simp [Rpc.encode, hrest, onFrame, hdecode, MsgType.toByte, onRpc, RpcReply.encode]
  | appendEntries args =>
      have hdecode := AppendEntriesArgs.decode_eq_some.mpr ⟨rfl, hcall⟩
      obtain ⟨rest, hrest⟩ : ∃ rest, args.encode = 3 :: rest := ⟨_, rfl⟩
      rw [hrest] at hdecode
      simp [Rpc.encode, hrest, onFrame, hdecode, MsgType.toByte, onRpc, RpcReply.encode]

/-- A connection on which one call arrives. -/
theorem serveFrames_call (n : RaftNode) {call : Rpc} (hcall : call.Ranged) (rounds writable : ℕ) :
    n.serveFrames [call.encode] (rounds + 1) writable =
      ((n.onRpc call).1, [(n.onRpc call).2.encode]) := by
  rw [serveFrames, onFrame_encode n hcall]
  cases writable with
  | zero => rfl
  | succ writable => simp [serveFrames]

end RaftNode

theorem RpcReply.length_encode (reply : RpcReply) : reply.encode.length ≤ kMaxFrameBytes := by
  have hu8 : ∀ v, (Encoder.u8 v).length = 1 := fun _ ↦ rfl
  have hlimit : 18 ≤ kMaxFrameBytes := by decide
  cases reply with
  | requestVote reply =>
      simp only [encode, RequestVoteReply.encode, List.length_append, hu8, Encoder.length_u64]
      omega
  | appendEntries reply =>
      simp only [encode, AppendEntriesReply.encode, List.length_append, hu8, Encoder.length_u64]
      omega

section Exactness

variable {n : RaftNode} {call : Rpc} {conn : Connection}

/-- The callee has not noticed the call, or it has executed it. -/
theorem Connection.Carries.served (hconn : conn.Carries n call) (hcall : call.Ranged)
    (hwidth : call.encode.length < 2 ^ 32) :
    n.handleRaftConnection conn.request conn.rounds conn.writable = (n, []) ∨
      n.handleRaftConnection conn.request conn.rounds conn.writable =
        ((n.onRpc call).1, [(n.onRpc call).2.encode]) := by
  unfold RaftNode.handleRaftConnection
  have hframes : conn.request.recvFrames = [] ∨ conn.request.recvFrames = [call.encode] := by
    rcases Nat.lt_or_ge kMaxFrameBytes call.encode.length with hlong | hsize
    · exact Or.inl (Socket.recvFrames_of_tooLong hconn.request_proper hlong hwidth hconn.request)
    · exact (Socket.recvFrames_of_isPrefix hconn.request_proper hsize hconn.request).imp_right
        And.left
  rcases hframes with hnone | hone
  · exact Or.inl (by rw [hnone, RaftNode.serveFrames])
  · rw [hone]
    cases conn.rounds with
    | zero => exact Or.inl (by rw [RaftNode.serveFrames])
    | succ rounds => exact Or.inr (n.serveFrames_call hcall rounds conn.writable)

theorem Connection.Carries.answered (hconn : conn.Carries n call) (hn : n.Ranged)
    (hcall : call.Ranged)
    (hserved : n.handleRaftConnection conn.request conn.rounds conn.writable =
      ((n.onRpc call).1, [(n.onRpc call).2.encode])) :
    TcpTransport.request call conn.sent conn.answer = none ∨
      TcpTransport.request call conn.sent conn.answer = some (n.onRpc call).2 := by
  have hanswer := hconn.answer
  rw [hserved, List.flatMap_singleton] at hanswer
  unfold TcpTransport.request TcpTransport.call
  split_ifs with hsent
  · rcases Socket.recvFrame_of_isPrefix hconn.answer_proper (RpcReply.length_encode _) hanswer with
      hnone | hsome
    · exact Or.inl (by rw [hnone, Option.bind_none])
    · exact Or.inr (by rw [hsome, Option.bind_some, RaftNode.decodeReply_onRpc hn hcall])
  · exact Or.inl rfl

end Exactness

/-- A call is executed as it was made or not at all, and a reply is the callee's, however the
connection is cut and segmented. A connection that is not cut delivers the reply. -/
theorem rpc_exact {n : RaftNode} (hn : n.Ranged) {call : Rpc} (hcall : call.Ranged)
    (hwidth : call.encode.length < 2 ^ 32) {conn : Connection} (hconn : conn.Carries n call) :
    ((n.handleRaftConnection conn.request conn.rounds conn.writable).1 = n ∧
        TcpTransport.request call conn.sent conn.answer = none ∨
      (n.handleRaftConnection conn.request conn.rounds conn.writable).1 = (n.onRpc call).1 ∧
        (TcpTransport.request call conn.sent conn.answer = none ∨
          TcpTransport.request call conn.sent conn.answer = some (n.onRpc call).2)) ∧
      (call.encode.length ≤ kMaxFrameBytes → conn.sent = true → 0 < conn.rounds →
        conn.request.bytes = sendFrame call.encode →
        conn.answer.bytes = (n.handleRaftConnection conn.request conn.rounds
          conn.writable).2.flatMap sendFrame →
        TcpTransport.request call conn.sent conn.answer = some (n.onRpc call).2) := by
  refine ⟨?_, fun hsize hsent hrounds hrequest hanswer ↦ ?_⟩
  · rcases hconn.served hcall hwidth with hidle | hserved
    · refine Or.inl ⟨by rw [hidle], ?_⟩
      have hempty := hconn.answer
      rw [hidle] at hempty
      unfold TcpTransport.request TcpTransport.call
      split_ifs with hsent
      · rw [Socket.recvFrame_nil hconn.answer_proper (List.prefix_nil.mp hempty), Option.bind_none]
      · rfl
    · exact Or.inr ⟨by rw [hserved], hconn.answered hn hcall hserved⟩
  · -- the whole frame arrives, and so does the whole reply
    have hframes : conn.request.recvFrames = [call.encode] := by
      have hlongest := Socket.recvFrames_longest hconn.request_proper
      rw [hrequest] at hlongest
      have hone : sendFrame call.encode = frameCode.concat [call.encode] :=
        (List.append_nil _).symm
      rw [hone] at hlongest
      exact hlongest.unique (.concat (List.forall_mem_singleton.mpr hsize))
    obtain ⟨rounds, hr⟩ := Nat.exists_eq_succ_of_ne_zero hrounds.ne'
    have hserved : n.handleRaftConnection conn.request conn.rounds conn.writable =
        ((n.onRpc call).1, [(n.onRpc call).2.encode]) := by
      rw [RaftNode.handleRaftConnection, hframes, hr, n.serveFrames_call hcall]
    rw [hserved, List.flatMap_singleton] at hanswer
    have hread := recvFrame_sendFrame (RpcReply.length_encode (n.onRpc call).2) []
    rw [List.append_nil, ← hanswer] at hread
    rcases Socket.recvFrame_eq hconn.answer_proper with ⟨reply, s', hframe, -, hbytes⟩ |
      ⟨-, hstuck⟩
    · obtain ⟨rfl, -⟩ : reply = (n.onRpc call).2.encode ∧ s'.bytes = [] := by
        simpa [hbytes] using hread
      rw [TcpTransport.request, TcpTransport.call, if_pos hsent, hframe, Option.map_some,
        Option.bind_some, RaftNode.decodeReply_onRpc hn hcall]
    · exact absurd hread (hstuck _ _)

/-- A candidate's first request, on a connection that splits it and interrupts its reader. -/
def sampleCall : Rpc := .requestVote ⟨1, 1, 0, 0⟩

def sampleConnection : Connection where
  sent := true
  request := [.segment ((sendFrame sampleCall.encode).take 7), .interrupted,
    .segment ((sendFrame sampleCall.encode).drop 7)]
  rounds := 1
  writable := 1
  answer := [.segment (sendFrame (RequestVoteReply.encode ⟨1, true⟩))]

theorem rpc_exact_split :
    ((RaftNode.recover 0 3 0 (-1) []).handleRaftConnection sampleConnection.request
      1 1).1.votedFor = 1 ∧
    TcpTransport.request sampleCall true sampleConnection.answer =
      some (.requestVote ⟨1, true⟩) := by
  have hn : (RaftNode.recover 0 3 0 (-1) []).Ranged := ⟨by decide, rfl⟩
  have hcall : sampleCall.Ranged := by simp [sampleCall, Rpc.Ranged, RequestVoteArgs.Ranged]
  have hconn : sampleConnection.Carries (RaftNode.recover 0 3 0 (-1) []) sampleCall :=
    ⟨by unfold Socket.Proper; decide +kernel, by decide +kernel,
      by unfold Socket.Proper; decide +kernel, by decide +kernel⟩
  refine ⟨by decide +kernel, ?_⟩
  exact (rpc_exact hn hcall (by decide) hconn).2 (by decide) rfl (by decide) (by decide +kernel)
    (by decide +kernel)

end Dkvs
