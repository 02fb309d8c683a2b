import Dkvs.Grammar
import Dkvs.Lines
import Dkvs.Results

/-!
# A value through the text protocol

A client sets a key and reads it back on one connection. The value crosses
`recvLine` twice, in the `SET` line and in the reply, and the key once more in the
`GET` line; each time a carriage return at the end of the line is dropped.
-/

namespace Dkvs

/-! ## Lines and their ends -/

def sendLine (line : Bytes) : Bytes := line ++ [newline]

theorem chomp_append_cons {b : UInt8} (hb : b ≠ carriageReturn) (front tail : Bytes) :
    chomp (front ++ b :: tail) = front ++ b :: chomp tail := by
  rcases List.eq_nil_or_concat tail with rfl | ⟨tail, last, rfl⟩
  · simp [chomp, hb]
  · have hsplit : front ++ b :: (tail ++ [last]) = (front ++ b :: tail) ++ [last] := by simp
    rw [List.concat_eq_append, hsplit]
    unfold chomp
    simp only [List.getLast?_concat, List.dropLast_concat]
    split_ifs with hlast
    · rfl
    · exact hsplit.symm

theorem chomp_eq_self {line : Bytes} (hline : line.getLast? ≠ some carriageReturn) :
    chomp line = line := if_neg hline

theorem chomp_isPrefix (line : Bytes) : chomp line <+: line := by
  unfold chomp
  split_ifs with hcr
  · exact List.dropLast_prefix line
  · exact List.prefix_rfl

theorem chomp_subset (line : Bytes) : chomp line ⊆ line := (chomp_isPrefix line).subset

theorem chomp_lt {line : Bytes} (hline : line.getLast? = some carriageReturn) :
    (chomp line).length < line.length := by
  have hpos : 0 < line.length := by
    rw [List.length_pos_iff]
    rintro rfl
    simp at hline
  rw [chomp, if_pos hline, List.length_dropLast]
  omega

theorem newline_notMem_space {front tail : Bytes} (hfront : newline ∉ front)
    (htail : newline ∉ tail) : newline ∉ front ++ 32 :: tail := by
  have hspace : newline ≠ 32 := by decide
  intro hmem
  rcases List.mem_append.mp hmem with hmem | hmem
  · exact hfront hmem
  · rcases List.mem_cons.mp hmem with hmem | hmem
    · exact hspace hmem
    · exact htail hmem

theorem Chunked.recvLine_sendLine {line : Bytes} {chunks : List Bytes} (hchunks : Chunked chunks)
    (hline : newline ∉ line) (hsize : (sendLine line).length ≤ kMaxFrameBytes)
    (hstream : chunks.flatten = sendLine line) :
    recvLine [] chunks = some (chomp line, [], []) :=
  recvLine_eq hline (by simpa [sendLine] using hsize)
    (fun chunk hchunk ↦ List.ne_nil_of_length_pos (hchunks chunk hchunk).1) hstream

/-! ## Requests and replies -/

theorem chomp_setRequest (key value : Bytes) :
    chomp (setRequest key value) = setRequest key (chomp value) := by
  have hsplit : ∀ v, setRequest key v = (setVerb ++ 32 :: key) ++ 32 :: v := by
    simp [setRequest]
  rw [hsplit, hsplit, chomp_append_cons (by decide)]

theorem chomp_getRequest (key : Bytes) : chomp (getRequest key) = getRequest (chomp key) :=
  chomp_append_cons (by decide) getVerb key

/-- `GET` without a key is refused. -/
theorem commandOf_getRequest_nil : commandOf (getRequest []) = none := by decide

theorem text_value (clientAddrs : List String) (v : Bytes) :
    (Response.value v).text clientAddrs = [86, 65, 76, 85, 69] ++ 32 :: v := by
  have hword : "VALUE ".toUTF8.toList = [86, 65, 76, 85, 69, 32] := by decide +kernel
  rw [Response.text, hword]
  rfl

theorem text_notFound (clientAddrs : List String) :
    Response.notFound.text clientAddrs = [78, 79, 84, 95, 70, 79, 85, 78, 68] := by
  have hword : "NOT_FOUND".toUTF8.toList = [78, 79, 84, 95, 70, 79, 85, 78, 68] := by
    decide +kernel
  rw [Response.text, hword]

/-! ## One connection -/

/-- The server takes a line off the connection, parses it, applies its command and
sends the reply. The results are the store, the buffer and the bytes sent. -/
def serve (clientAddrs : List String) (store : KVStore) (buffer : Bytes) (chunks : List Bytes) :
    Option (KVStore × Bytes × Bytes) := do
  let (line, buffer, _) ← recvLine buffer chunks
  let cmd ← commandOf line
  let (store, value, existed) := applyCommand store cmd.encode
  return (store, buffer, sendLine ((outcome cmd ⟨true, 0, value, existed⟩).text clientAddrs))

/-- The bytes sent in reply to the second of two requests. -/
def serveTwo (clientAddrs : List String) (store : KVStore) (first second : List Bytes) :
    Option Bytes := do
  let (store, buffer, _) ← serve clientAddrs store [] first
  let (_, _, reply) ← serve clientAddrs store buffer second
  return reply

/-- After `SET key value`, the reply to `GET key` is received as `VALUE` with the
value, whatever was in the store and whatever chunks the three streams come in. -/
def RoundTrips (key value : Bytes) : Prop :=
  ∀ (clientAddrs : List String) (store : KVStore) (first second : List Bytes),
    Chunked first → first.flatten = sendLine (setRequest key value) →
    Chunked second → second.flatten = sendLine (getRequest key) →
    ∃ reply, serveTwo clientAddrs store first second = some reply ∧
      ∀ third : List Bytes, Chunked third → third.flatten = reply →
        ∃ rest, recvLine [] third = some ([86, 65, 76, 85, 69] ++ 32 :: value, rest)

/-- A key and a value that the grammar of the protocol admits and a line has room
for. -/
structure Admitted (key value : Bytes) : Prop where
  nonempty : key ≠ []
  key_blank : ∀ b ∈ key, isBlank b = false
  key_line : newline ∉ key
  value_line : newline ∉ value
  size : (sendLine (setRequest key value)).length ≤ kMaxFrameBytes

theorem serve_eq (clientAddrs : List String) (store : KVStore) {buffer line rest : Bytes}
    {chunks chunks' : List Bytes} (hline : recvLine buffer chunks = some (line, rest, chunks'))
    {cmd : Command} (hcmd : commandOf line = some cmd) (hranged : cmd.Ranged) :
    serve clientAddrs store buffer chunks =
      some (cmd.run store, rest, sendLine ((cmd.result store).text clientAddrs)) := by
  have hdecode : Command.decode cmd.encode = some cmd := Command.decode_eq_some.mpr ⟨rfl, hranged⟩
  have hstore := applyCommand_store store cmd.encode
  rw [hdecode, Option.elim_some] at hstore
  have hresult := outcome_applyCommand hranged store 0
  simp [serve, hline, hcmd, hstore, hresult]

theorem serve_eq_none (clientAddrs : List String) (store : KVStore) {buffer line rest : Bytes}
    {chunks chunks' : List Bytes} (hline : recvLine buffer chunks = some (line, rest, chunks'))
    (hcmd : commandOf line = none) : serve clientAddrs store buffer chunks = none := by
  simp [serve, hline, hcmd]

namespace Admitted

variable {key value : Bytes} (h : Admitted key value)

include h

theorem lengths : (sendLine (getRequest key)).length ≤ kMaxFrameBytes ∧
    value.length + 7 ≤ kMaxFrameBytes ∧ key.length < 2 ^ 32 ∧ value.length < 2 ^ 32 := by
  have hpos := List.length_pos_of_ne_nil h.nonempty
  have hsize := h.size
  have hlimit : kMaxFrameBytes < 2 ^ 32 := by decide
  simp only [sendLine, setRequest, getRequest, setVerb, getVerb, List.length_append,
    List.length_cons, List.length_nil] at hsize ⊢
  omega

theorem newline_notMem : newline ∉ setRequest key value ∧ newline ∉ getRequest key := by
  constructor
  · exact newline_notMem_space (by decide) (newline_notMem_space h.key_line h.value_line)
  · exact newline_notMem_space (by decide) h.key_line

/-- What a `SET` leaves behind. -/
theorem serve_set (clientAddrs : List String) (store : KVStore) {first : List Bytes}
    (hfirst : Chunked first) (hset : first.flatten = sendLine (setRequest key value)) :
    ∃ ok, serve clientAddrs store [] first = some (store.set key (chomp value), [], ok) := by
  obtain ⟨-, -, hkey, hvalue⟩ := h.lengths
  have hline := hfirst.recvLine_sendLine h.newline_notMem.1 h.size hset
  rw [chomp_setRequest] at hline
  exact ⟨_, serve_eq clientAddrs store hline
    (commandOf_setRequest ⟨h.nonempty, h.key_blank⟩ (chomp value))
    ⟨hkey, lt_of_le_of_lt (chomp_length value) hvalue⟩⟩

/-- The two requests, whatever they are cut into. -/
theorem serveTwo_eq (clientAddrs : List String) (store : KVStore) {first second : List Bytes}
    (hfirst : Chunked first) (hset : first.flatten = sendLine (setRequest key value))
    (hsecond : Chunked second) (hget : second.flatten = sendLine (getRequest key)) :
    serveTwo clientAddrs store first second =
      if chomp key = [] then none
      else some (sendLine ((((store.set key (chomp value)).get (chomp key)).elim
        .notFound .value : Response).text clientAddrs)) := by
  obtain ⟨hsize, -, hkey, -⟩ := h.lengths
  obtain ⟨ok, hfirst⟩ := h.serve_set clientAddrs store hfirst hset
  have hline := hsecond.recvLine_sendLine h.newline_notMem.2 hsize hget
  rw [chomp_getRequest] at hline
  split_ifs with hempty
  · rw [hempty] at hline
    have hsecond := serve_eq_none clientAddrs (store.set key (chomp value)) hline
      commandOf_getRequest_nil
    simp [serveTwo, hfirst, hsecond]
  · have hblank : ∀ b ∈ chomp key, isBlank b = false :=
      fun b hb ↦ h.key_blank b (chomp_subset key hb)
    have hsecond := serve_eq clientAddrs (store.set key (chomp value)) hline
      (commandOf_getRequest ⟨hempty, hblank⟩) ⟨lt_of_le_of_lt (chomp_length key) hkey, by simp⟩
    simp [serveTwo, hfirst, hsecond, Command.result]

/-- A reply is received whose value is no longer than the one that was set. -/
theorem recvLine_value (clientAddrs : List String) {v : Bytes} (hv : v ⊆ value)
    (hlength : v.length ≤ value.length) {third : List Bytes} (hthird : Chunked third)
    (hreply : third.flatten = sendLine ((Response.value v).text clientAddrs)) :
    recvLine [] third = some ([86, 65, 76, 85, 69] ++ 32 :: chomp v, [], []) := by
  obtain ⟨-, hsize, -⟩ := h.lengths
  rw [text_value] at hreply
  have hfree : newline ∉ [86, 65, 76, 85, 69] ++ 32 :: v :=
    newline_notMem_space (by decide) fun hmem ↦ h.value_line (hv hmem)
  rw [← chomp_append_cons (by decide)]
  refine hthird.recvLine_sendLine hfree ?_ hreply
  simp only [sendLine, List.length_append, List.length_cons, List.length_nil]
  omega

/-- A carriage return at the end is lost on the way into an empty store. -/
theorem last_ne_of_roundTrips (htrip : RoundTrips key value) :
    key.getLast? ≠ some carriageReturn ∧ value.getLast? ≠ some carriageReturn := by
  obtain ⟨first, hfirst, hset⟩ := exists_chunks (sendLine (setRequest key value))
  obtain ⟨second, hsecond, hget⟩ := exists_chunks (sendLine (getRequest key))
  obtain ⟨reply, hreply, hback⟩ := htrip [] KVStore.empty first second hfirst hset hsecond hget
  obtain ⟨third, hthird, hstream⟩ := exists_chunks reply
  obtain ⟨rest, hrecv⟩ := hback third hthird hstream
  rw [h.serveTwo_eq [] KVStore.empty hfirst hset hsecond hget, Option.ite_none_left_eq_some,
    Option.some.injEq] at hreply
  obtain ⟨-, rfl⟩ := hreply
  have hkey : key.getLast? ≠ some carriageReturn := by
    -- the shorter key that is asked for is not in the store
    intro hcr
    have hne : chomp key ≠ key := fun heq ↦ (chomp_lt hcr).ne (congrArg List.length heq)
    have hmiss : (KVStore.empty.set key (chomp value)).get (chomp key) = none := by
      simp [KVStore.set, KVStore.get, KVStore.empty, hne]
    rw [hmiss, Option.elim_none, text_notFound] at hstream
    have hnone := Chunked.recvLine_sendLine hthird (by decide) (by decide) hstream
    rw [chomp_eq_self (by decide)] at hnone
    simp [hnone] at hrecv
  refine ⟨hkey, fun hcr ↦ ?_⟩
  have hfound : (KVStore.empty.set key (chomp value)).get (chomp key) = some (chomp value) := by
    simp [KVStore.set, KVStore.get, chomp_eq_self hkey]
  rw [hfound, Option.elim_some] at hstream
  have hvalue := h.recvLine_value [] (chomp_subset value) (chomp_length value) hthird hstream
  rw [hvalue, Option.some.injEq, Prod.mk.injEq, List.append_cancel_left_eq, List.cons.injEq]
    at hrecv
  have hshort := (chomp_length (chomp value)).trans_lt (chomp_lt hcr)
  rw [hrecv.1.2] at hshort
  exact hshort.false

theorem roundTrips (hkey : key.getLast? ≠ some carriageReturn)
    (hvalue : value.getLast? ≠ some carriageReturn) : RoundTrips key value := by
  intro clientAddrs store first second hfirst hset hsecond hget
  have hfound : (store.set key (chomp value)).get (chomp key) = some value := by
    simp [KVStore.set, KVStore.get, chomp_eq_self hkey, chomp_eq_self hvalue]
  have hnonempty : chomp key ≠ [] := by
    rw [chomp_eq_self hkey]
    exact h.nonempty
  refine ⟨sendLine ((Response.value value).text clientAddrs), ?_, ?_⟩
  · rw [h.serveTwo_eq clientAddrs store hfirst hset hsecond hget, if_neg hnonempty, hfound,
      Option.elim_some]
  · intro third hthird hreply
    have hrecv := h.recvLine_value clientAddrs (List.Subset.refl value) le_rfl hthird hreply
    rw [chomp_eq_self hvalue] at hrecv
    exact ⟨_, hrecv⟩

end Admitted

/-- A value comes back as it was set, unless it or its key ends in a carriage return. -/
theorem round_trips_iff {key value : Bytes} (h : Admitted key value) :
    RoundTrips key value ↔
      key.getLast? ≠ some carriageReturn ∧ value.getLast? ≠ some carriageReturn := by
  constructor
  · exact h.last_ne_of_roundTrips
  · rintro ⟨hkey, hvalue⟩
    exact h.roundTrips hkey hvalue

/-- A value with a space, a tab and a carriage return inside. -/
theorem round_trips_iff_inner : Admitted [107] [118, 32, 9, 13, 118] ∧
    RoundTrips [107] [118, 32, 9, 13, 118] := by
  have hadmitted : Admitted [107] [118, 32, 9, 13, 118] :=
    ⟨by decide, by simp [isBlank], by decide, by decide, by decide⟩
  exact ⟨hadmitted, (round_trips_iff hadmitted).mpr (by decide)⟩

/-- A value that ends in a carriage return is stored and sent back without it. -/
theorem not_round_trips : Admitted [107] [118, 13] ∧
    serveTwo [] KVStore.empty [sendLine (setRequest [107] [118, 13])]
      [sendLine (getRequest [107])] = some (sendLine [86, 65, 76, 85, 69, 32, 118]) ∧
    ¬ RoundTrips [107] [118, 13] := by
  have hadmitted : Admitted [107] [118, 13] :=
    ⟨by decide, by simp [isBlank], by decide, by decide, by decide⟩
  have hfirst : Chunked [sendLine (setRequest [107] [118, 13])] := by
    simp [Chunked, sendLine, setRequest, setVerb]
  have hsecond : Chunked [sendLine (getRequest [107])] := by
    simp [Chunked, sendLine, getRequest, getVerb]
  refine ⟨hadmitted, ?_, ?_⟩
  · have hkey : chomp [107] = [107] := by decide
    have hvalue : chomp [118, 13] = [118] := by decide
    rw [hadmitted.serveTwo_eq [] KVStore.empty hfirst (by simp) hsecond (by simp), hkey, hvalue]
    simp [KVStore.set, KVStore.get, text_value]
  · intro htrip
    exact (hadmitted.last_ne_of_roundTrips htrip).2 rfl

end Dkvs
