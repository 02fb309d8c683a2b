import Dkvs.RecordLog
import Dkvs.Transport

/-!
# Frames on a segmented connection

A connection delivers its bytes in segments of any size, and a call of `recv` may
be interrupted. `readExact` collects as many bytes as it was asked for, whatever
the segments are, so that a connection is read as the sequence of bytes it
carries. Frames are a prefix code, and the payloads received are the longest
sequence of payloads whose frames are an initial part of these bytes.
-/

namespace Dkvs

/-- What one call of `recv` meets. -/
inductive Arrival where
  | segment (bytes : Bytes)
  /-- The call fails with `EINTR`. -/
  | interrupted
  deriving DecidableEq, Repr

def Arrival.bytes : Arrival → Bytes
  | .segment bytes => bytes
  | .interrupted => []

/-- What is still to come on a connection before the peer closes it. -/
abbrev Socket := List Arrival

inductive RecvResult where
  | received (bytes : Bytes)
  | interrupted
  | closed
  deriving DecidableEq, Repr

namespace Socket

def bytes (s : Socket) : Bytes := s.flatMap Arrival.bytes

/-- No segment is empty. -/
def Proper (s : Socket) : Prop := Arrival.segment [] ∉ s

/-- `recv` with room for `room` bytes; what does not fit stays for the next call. -/
def recv (s : Socket) (room : ℕ) : RecvResult × Socket :=
  match s with
  | [] => (.closed, [])
  | .interrupted :: s => (.interrupted, s)
  | .segment bytes :: s =>
      (.received (bytes.take room),
        if bytes.length ≤ room then s else .segment (bytes.drop room) :: s)

/-- A bound on the number of calls of `recv` that return. -/
def weight (s : Socket) : ℕ := s.length + s.bytes.length

theorem recv_interrupted {s s' : Socket} {room : ℕ} (hr : s.recv room = (.interrupted, s')) :
    s = .interrupted :: s' := by
  cases s with
  | nil => simp [recv] at hr
  | cons a s =>
      cases a with
      | segment bytes => simp [recv] at hr
      | interrupted => simpa [recv] using hr

theorem recv_closed {s s' : Socket} {room : ℕ} (hr : s.recv room = (.closed, s')) : s = [] := by
  cases s with
  | nil => rfl
  | cons a s =>
      cases a with
      | segment bytes => simp [recv] at hr
      | interrupted => simp [recv] at hr

theorem recv_received {s s' : Socket} {room : ℕ} {new : Bytes}
    (hr : s.recv room = (.received new, s')) :
    ∃ bytes rest, s = .segment bytes :: rest ∧ new = bytes.take room ∧
      s' = if bytes.length ≤ room then rest else .segment (bytes.drop room) :: rest := by
  cases s with
  | nil => simp [recv] at hr
  | cons a s =>
      cases a with
      | segment bytes =>
          simp only [recv, Prod.mk.injEq, RecvResult.received.injEq] at hr
          exact ⟨bytes, s, rfl, hr.1.symm, hr.2.symm⟩
      | interrupted => simp [recv] at hr

/-- A call takes the bytes it returns off the connection. -/
theorem recv_bytes {s s' : Socket} {room : ℕ} {new : Bytes}
    (hr : s.recv room = (.received new, s')) :
    s.bytes = new ++ s'.bytes ∧ new.length ≤ room ∧ (s.Proper → s'.Proper) ∧
      (s.Proper → 0 < room → new ≠ []) ∧ (new ≠ [] → s'.weight < s.weight) := by
  obtain ⟨bytes, rest, rfl, rfl, rfl⟩ := recv_received hr
  have hsplit := List.take_append_drop room bytes
  have hroom := List.length_take_le room bytes
  split_ifs with hle
  · refine ⟨?_, hroom, ?_, ?_, ?_⟩
    · simp [Socket.bytes, Arrival.bytes, List.take_of_length_le hle]
    · exact fun hs hmem ↦ hs (List.mem_cons_of_mem _ hmem)
    · rintro hs - hnil
      rw [List.take_of_length_le hle] at hnil
      exact hs (by simp [hnil])
    · intro _
      simp only [weight, Socket.bytes, List.flatMap_cons, List.length_cons, List.length_append]
      omega
  · have hlt := Nat.lt_of_not_le hle
    refine ⟨?_, hroom, ?_, ?_, ?_⟩
    · simp only [Socket.bytes, List.flatMap_cons, Arrival.bytes]
      rw [← List.append_assoc, hsplit]
    · intro hs hmem
      rcases List.mem_cons.mp hmem with heq | hmem
      · rw [Arrival.segment.injEq] at heq
        have hlen := congrArg List.length heq
        rw [List.length_drop, List.length_nil] at hlen
        omega
      · exact hs (List.mem_cons_of_mem _ hmem)
    · intro _ hpos hnil
      have hlen := congrArg List.length hnil
      rw [List.length_take, List.length_nil] at hlen
      omega
    · intro hne
      have hpos := List.length_pos_of_ne_nil hne
      simp only [weight, Socket.bytes, List.flatMap_cons, Arrival.bytes, List.length_cons,
        List.length_append, List.length_drop]
      rw [List.length_take] at hpos
      omega

/-- Collect `n` bytes, of which `out` have been received. -/
def readExact (s : Socket) (out : Bytes) (n : ℕ) : Option (Bytes × Socket) :=
  if out.length < n then
    match _hr : s.recv (n - out.length) with
    | (.interrupted, s') => readExact s' out n
    | (.closed, _) => none
    | (.received new, s') => if _hnew : new = [] then none else readExact s' (out ++ new) n
  else some (out, s)
termination_by s.weight
decreasing_by
  · rw [recv_interrupted _hr]
    simp [weight, Socket.bytes, Arrival.bytes]
  · exact (recv_bytes _hr).2.2.2.2 _hnew

/-- `readExact` reads the bytes of the connection, not its segments. -/
theorem readExact_eq {s : Socket} {out : Bytes} {n : ℕ} (hs : s.Proper) (hout : out.length ≤ n) :
    (s.bytes.length < n - out.length ∧ s.readExact out n = none) ∨
      ∃ s' : Socket, s'.Proper ∧ s'.bytes = s.bytes.drop (n - out.length) ∧
        n - out.length ≤ s.bytes.length ∧
        s.readExact out n = some (out ++ s.bytes.take (n - out.length), s') := by
  fun_induction readExact s out n with
  | case1 s out hlt s' hr ih =>
      obtain rfl := recv_interrupted hr
      exact ih (fun hmem ↦ hs (List.mem_cons_of_mem _ hmem)) hout
  | case2 s out hlt s' hr =>
      obtain rfl := recv_closed hr
      exact Or.inl ⟨Nat.sub_pos_of_lt hlt, rfl⟩
  | case3 s out hlt s' hr =>
      exact ((recv_bytes hr).2.2.2.1 hs (Nat.sub_pos_of_lt hlt) rfl).elim
  | case4 s out hlt new s' hr hnew ih =>
      obtain ⟨hbytes, hroom, hproper, -, -⟩ := recv_bytes hr
      have hlen : (out ++ new).length = out.length + new.length := List.length_append
      have hsum : s.bytes.length = new.length + s'.bytes.length := by
        rw [hbytes, List.length_append]
      have hleft : n - out.length - new.length = n - (out ++ new).length := by omega
      rcases ih (hproper hs) (by omega) with ⟨hshort, hnone⟩ | ⟨s'', hs'', hrest, hle, hread⟩
      · exact Or.inl ⟨by omega, hnone⟩
      · refine Or.inr ⟨s'', hs'', ?_, by omega, ?_⟩
        · rw [hrest, hbytes, List.drop_append, List.drop_of_length_le hroom, List.nil_append, hleft]
        · rw [hread, hbytes, List.take_append, List.take_of_length_le hroom, hleft,
            List.append_assoc]
  | case5 s out hfull =>
      have hzero : n - out.length = 0 := Nat.sub_eq_zero_of_le (Nat.le_of_not_lt hfull)
      rw [hzero]
      exact Or.inr ⟨s, hs, rfl, Nat.zero_le _, by simp⟩

theorem readExact_nil {s : Socket} (hs : s.Proper) (n : ℕ) :
    (s.bytes.length < n ∧ s.readExact [] n = none) ∨
      ∃ s' : Socket, s'.Proper ∧ s'.bytes = s.bytes.drop n ∧ n ≤ s.bytes.length ∧
        s.readExact [] n = some (s.bytes.take n, s') := by
  have hout : ([] : Bytes).length ≤ n := Nat.zero_le n
  simpa using readExact_eq hs hout

theorem readExact_weight {s s' : Socket} {out new : Bytes} {n : ℕ}
    (hread : s.readExact out n = some (new, s')) :
    s'.weight ≤ s.weight ∧ (out.length < n → s'.weight < s.weight) := by
  fun_induction readExact s out n with
  | case1 s out hlt s₁ hr ih =>
      have hstep := (ih hread).1
      rw [recv_interrupted hr]
      simp only [weight, Socket.bytes, List.flatMap_cons, Arrival.bytes, List.nil_append,
        List.length_cons] at hstep ⊢
      omega
  | case2 s out hlt s₁ hr => simp at hread
  | case3 s out hlt s₁ hr => simp at hread
  | case4 s out hlt new₁ s₁ hr hnew ih =>
      have hstep := (ih hread).1
      have hless := (recv_bytes hr).2.2.2.2 hnew
      omega
  | case5 s out hfull =>
      obtain ⟨-, rfl⟩ : out = new ∧ s = s' := by simpa using hread
      exact ⟨le_rfl, fun hlt ↦ (hfull hlt).elim⟩

/-- Read the four bytes of the length, then the payload. -/
def recvFrame (s : Socket) : Option (Bytes × Socket) := do
  let (header, s) ← s.readExact [] 4
  let len ← (⟨header⟩ : Decoder).u32.1
  if kMaxFrameBytes < len then none
  else if 0 < len then s.readExact [] len
  else some ([], s)

theorem recvFrame_weight {s s' : Socket} {payload : Bytes}
    (hframe : s.recvFrame = some (payload, s')) : s'.weight < s.weight := by
  simp only [recvFrame, Option.bind_eq_bind, Option.bind_eq_some_iff] at hframe
  obtain ⟨⟨header, s₁⟩, hheader, len, -, hrest⟩ := hframe
  have hfirst := (readExact_weight hheader).2 (by decide)
  dsimp only at hrest
  split_ifs at hrest with hlimit hpos
  · exact (readExact_weight hrest).1.trans_lt hfirst
  · obtain ⟨-, rfl⟩ : [] = payload ∧ s₁ = s' := by simpa using hrest
    exact hfirst

/-- `recvFrame` again and again, until a call returns nothing. -/
def recvFrames (s : Socket) : List Bytes :=
  match _hframe : s.recvFrame with
  | none => []
  | some (payload, s') => payload :: s'.recvFrames
termination_by s.weight
decreasing_by exact recvFrame_weight _hframe

end Socket

theorem recvFrame_eq_payload {stream payload rest : Bytes}
    (hframe : recvFrame stream = .payload payload rest) :
    stream = sendFrame payload ++ rest ∧ payload.length ≤ kMaxFrameBytes := by
  unfold recvFrame at hframe
  split at hframe
  · simp at hframe
  · rename_i len dec hlen
    split_ifs at hframe with hlimit hshort
    obtain ⟨rfl, rfl⟩ : dec.rest.take len = payload ∧ dec.rest.drop len = rest := by
      simpa using hframe
    obtain ⟨hstream, hlt⟩ := Decoder.u32_eq_some.mp hlen
    have hsize : (dec.rest.take len).length = len := by
      rw [List.length_take]
      omega
    refine ⟨?_, by omega⟩
    rw [sendFrame, hsize, Nat.mod_eq_of_lt hlt, List.append_assoc, List.take_append_drop]
    exact hstream

namespace Socket

/-- The payload of a frame whose header has been read. -/
theorem recvPayload_eq {s : Socket} (hs : s.Proper) (len : ℕ) :
    (s.bytes.length < len ∧ (if 0 < len then s.readExact [] len else some ([], s)) = none) ∨
      ∃ s' : Socket, s'.Proper ∧ s'.bytes = s.bytes.drop len ∧ len ≤ s.bytes.length ∧
        (if 0 < len then s.readExact [] len else some ([], s)) = some (s.bytes.take len, s') := by
  split_ifs with hpos
  · exact readExact_nil hs len
  · obtain rfl : len = 0 := by omega
    exact Or.inr ⟨s, hs, rfl, Nat.zero_le _, rfl⟩

/-- A connection is read like the bytes it carries. -/
theorem recvFrame_eq {s : Socket} (hs : s.Proper) :
    (∃ payload s', s.recvFrame = some (payload, s') ∧ Socket.Proper s' ∧
        Dkvs.recvFrame s.bytes = .payload payload (Socket.bytes s')) ∨
      s.recvFrame = none ∧ ∀ payload rest, Dkvs.recvFrame s.bytes ≠ .payload payload rest := by
  rcases readExact_nil hs 4 with ⟨hshort, hnone⟩ | ⟨s₁, hs₁, hrest, hlen, hread⟩
  · refine Or.inr ⟨by simp [recvFrame, hnone], fun payload rest hframe ↦ ?_⟩
    have hbytes := congrArg List.length (recvFrame_eq_payload hframe).1
    rw [sendFrame, List.length_append, List.length_append, Encoder.length_u32] at hbytes
    omega
  · have hheader : (⟨s.bytes.take 4⟩ : Decoder).u32.1 = some (bigEndian (s.bytes.take 4)) := by
      simp [Decoder.u32, Decoder.uint, hlen, List.take_take]
    have hwhole : (⟨s.bytes⟩ : Decoder).u32 = (some (bigEndian (s.bytes.take 4)), ⟨s₁.bytes⟩) := by
      simp [Decoder.u32, Decoder.uint, Nat.not_lt.mpr hlen, hrest]
    simp only [recvFrame, hread, Option.bind_eq_bind, Option.bind_some, hheader, Dkvs.recvFrame,
      hwhole]
    generalize bigEndian (s.bytes.take 4) = len
    by_cases hlimit : kMaxFrameBytes < len
    · rw [if_pos hlimit, if_pos hlimit]
      exact Or.inr ⟨rfl, by simp⟩
    · rw [if_neg hlimit, if_neg hlimit]
      rcases recvPayload_eq hs₁ len with ⟨hshort, hnone⟩ | ⟨s', hs', hrest', hlen', hpayload⟩
      · rw [hnone, if_pos hshort]
        exact Or.inr ⟨rfl, by simp⟩
      · rw [hpayload, if_neg (Nat.not_lt.mpr hlen'), ← hrest']
        exact Or.inl ⟨_, s', rfl, hs', rfl⟩

end Socket

/-- Frames within the limit, as a prefix code. -/
def frameCode : RecordLog.PrefixCode Bytes UInt8 where
  Valid payload := payload.length ≤ kMaxFrameBytes
  record := sendFrame
  ne_nil := by
    intro payload _
    simp [sendFrame, Encoder.u32]
  prefix_free := by
    rintro a b ha hb ⟨tail, htail⟩
    have hread := recvFrame_sendFrame ha tail
    have hread' := recvFrame_sendFrame hb []
    rw [htail, ← List.append_nil (sendFrame b), hread', FrameRead.payload.injEq] at hread
    exact hread.1.symm

/-- The payloads received, and what is left when no more frame is complete. -/
theorem Socket.recvFrames_eq {s : Socket} (hs : s.Proper) :
    ∃ rest, (∀ payload ∈ s.recvFrames, frameCode.Valid payload) ∧
      s.bytes = frameCode.concat s.recvFrames ++ rest ∧
      ∀ payload, frameCode.Valid payload → ¬ frameCode.record payload <+: rest := by
  fun_induction recvFrames s with
  | case1 s hnone =>
      refine ⟨s.bytes, by simp, by simp, ?_⟩
      rintro payload hvalid ⟨rest, hrest⟩
      rcases recvFrame_eq hs with ⟨_, _, hsome, -⟩ | ⟨-, hstuck⟩
      · simp [hnone] at hsome
      · exact hstuck payload rest (hrest ▸ recvFrame_sendFrame hvalid rest)
  | case2 s payload s' hsome ih =>
      rcases recvFrame_eq hs with ⟨payload', s'', hframe, hs', hread⟩ | ⟨hnone, -⟩
      · obtain ⟨rfl, rfl⟩ : payload' = payload ∧ s'' = s' := by simpa [hsome] using hframe.symm
        obtain ⟨rest, hvalid, hbytes, hstuck⟩ := ih hs'
        obtain ⟨hsplit, hsize⟩ := recvFrame_eq_payload hread
        refine ⟨rest, ?_, ?_, hstuck⟩
        · rintro p (_ | ⟨_, hp⟩)
          · exact hsize
          · exact hvalid p hp
        · rw [hsplit, hbytes, frameCode.concat_cons, List.append_assoc]
          rfl
      · simp [hsome] at hnone

theorem Socket.recvFrames_longest {s : Socket} (hs : s.Proper) :
    frameCode.Longest s.bytes s.recvFrames := by
  obtain ⟨rest, hvalid, hbytes, hstuck⟩ := recvFrames_eq hs
  have hlongest := RecordLog.PrefixCode.Longest.of_stuck hvalid hstuck
  rwa [← hbytes] at hlongest

/-- Frames sent one after the other, over a connection that may end at any byte
and is cut into segments in any way: the payloads received are those whose frames
arrived completely, and all of them if the connection ends behind the last. -/
theorem frames_of_segments {payloads : List Bytes}
    (hsize : ∀ payload ∈ payloads, payload.length ≤ kMaxFrameBytes) {s : Socket} {k : ℕ}
    (hs : s.Proper) (hbytes : s.bytes = (payloads.flatMap sendFrame).take k) :
    (∃ m, s.recvFrames = payloads.take m ∧
        ((payloads.take m).flatMap sendFrame).length ≤ k ∧
        (m < payloads.length → k < ((payloads.take (m + 1)).flatMap sendFrame).length)) ∧
      ((payloads.flatMap sendFrame).length ≤ k → s.recvFrames = payloads) := by
  have hvalid : ∀ payload ∈ payloads, frameCode.Valid payload := hsize
  have hlongest := Socket.recvFrames_longest hs
  rw [hbytes] at hlongest
  refine ⟨hlongest.of_take hvalid, fun hall ↦ ?_⟩
  rw [List.take_of_length_le hall] at hlongest
  exact hlongest.unique (.concat hvalid)

/-- Two frames in three segments, cut inside the second header, with an
interrupted call. -/
def sampleSocket : Socket :=
  [.segment [0, 0, 0, 2, 7, 8, 0], .interrupted, .segment [0, 0], .segment [1, 9]]

theorem frames_of_segments_two :
    sampleSocket.bytes = ([[7, 8], [9]].flatMap sendFrame).take 11 ∧
      sampleSocket.recvFrames = [[7, 8], [9]] := by
  have hsize : ∀ payload ∈ ([[7, 8], [9]] : List Bytes), payload.length ≤ kMaxFrameBytes := by
    decide
  have hs : sampleSocket.Proper := by simp [Socket.Proper, sampleSocket]
  have hbytes : sampleSocket.bytes = (([[7, 8], [9]] : List Bytes).flatMap sendFrame).take 11 := by
    decide
  exact ⟨hbytes, (frames_of_segments hsize hs hbytes).2 (by decide)⟩

end Dkvs
