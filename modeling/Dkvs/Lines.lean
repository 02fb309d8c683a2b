import Dkvs.Transport

/-!
# Lines on a segmented connection

The buffer of a connection is carried over from one `recvLine` to the next and may
hold several lines and a part of another. Whatever the chunks are, the buffer
followed by the chunks to come is the stream that is left, and `recvLine` takes
its first line off.
-/

namespace Dkvs

/-- Chunks as `recv` returns them to `recvLine`. -/
def Chunked (chunks : List Bytes) : Prop :=
  ∀ chunk ∈ chunks, 0 < chunk.length ∧ chunk.length ≤ 4096

theorem Chunked.tail {chunk : Bytes} {chunks : List Bytes} (h : Chunked (chunk :: chunks)) :
    Chunked chunks := fun c hc ↦ h c (List.mem_cons_of_mem _ hc)

/-- The lines of a stream, each of them ended by a newline. What stands behind the
last newline is not one of them. -/
def lines (stream : Bytes) : List Bytes := (stream.splitOn newline).dropLast

theorem lines_append {line : Bytes} (hline : newline ∉ line) (stream : Bytes) :
    lines (line ++ newline :: stream) = line :: lines stream := by
  rw [lines, PlainText.splitOn_append_cons hline,
    List.dropLast_cons_of_ne_nil (List.splitOn_ne_nil _ _)]
  rfl

theorem lines_eq_nil {stream : Bytes} (hstream : newline ∉ stream) : lines stream = [] := by
  rw [lines, List.splitOn_eq_singleton hstream]
  rfl

/-! ## One line -/

theorem recvLine_first {line stream : Bytes} (hline : newline ∉ line)
    (hsize : line.length + 4096 ≤ kMaxFrameBytes) {chunks : List Bytes} (hchunks : Chunked chunks)
    {buffer : Bytes} (hall : buffer ++ chunks.flatten = line ++ newline :: stream) :
    ∃ rest chunks', recvLine buffer chunks = some (chomp line, rest, chunks') ∧
      Chunked chunks' ∧ rest ++ chunks'.flatten = stream := by
  induction chunks generalizing buffer with
  | nil =>
      obtain rfl : buffer = line ++ newline :: stream := by simpa using hall
      exact ⟨stream, [], recvLine_buffered hline stream [], hchunks, by simp⟩
  | cons chunk chunks ih =>
      by_cases hmem : newline ∈ buffer
      · obtain ⟨front, rest, rfl, hfront⟩ := List.eq_append_cons_of_mem hmem
        have hfirst := congrArg lines hall
        rw [List.append_assoc, List.cons_append, lines_append hfront, lines_append hline,
          List.cons.injEq] at hfirst
        obtain rfl := hfirst.1
        refine ⟨rest, chunk :: chunks, recvLine_buffered hfront rest _, hchunks, ?_⟩
        simpa using hall
      · -- without a newline the buffer is a part of the line, and there is room for the chunk
        have hpart : buffer.length ≤ line.length := by
          by_contra hlong
          have hfirst : line ++ [newline] <+: line ++ newline :: stream := ⟨stream, by simp⟩
          have hbuffer : buffer <+: line ++ newline :: stream := ⟨_, hall⟩
          have hpre := List.prefix_of_prefix_length_le hfirst hbuffer
            (by simpa using Nat.lt_of_not_le hlong)
          exact hmem (hpre.subset (by simp))
        have hroom : ¬ kMaxFrameBytes < (buffer ++ chunk).length := by
          have hchunk := (hchunks chunk (by simp)).2
          rw [List.length_append]
          omega
        rw [recvLine_refill hmem, if_neg hroom]
        refine ih hchunks.tail ?_
        rw [List.append_assoc, ← List.flatten_cons]
        exact hall

/-- A rest without newline is not returned, whether it ends or overflows. -/
theorem recvLine_eq_none {chunks : List Bytes} {buffer : Bytes}
    (hall : newline ∉ buffer ++ chunks.flatten) : recvLine buffer chunks = none := by
  have hbuffer : newline ∉ buffer := fun hmem ↦ hall (List.mem_append_left _ hmem)
  induction chunks generalizing buffer with
  | nil =>
      unfold recvLine
      simp only [PlainText.findIdx?_of_notMem hbuffer]
  | cons chunk chunks ih =>
      rw [recvLine_refill hbuffer]
      split_ifs with hroom
      · rfl
      · rw [List.flatten_cons, ← List.append_assoc] at hall
        exact ih hall fun hmem ↦ hall (List.mem_append_left _ hmem)

theorem recvLine_lt {buffer line rest : Bytes} {chunks chunks' : List Bytes}
    (hline : recvLine buffer chunks = some (line, rest, chunks')) :
    rest.length + chunks'.flatten.length < buffer.length + chunks.flatten.length := by
  fun_induction recvLine buffer chunks with
  | case1 buffer nl chunks hnl =>
      obtain ⟨-, rfl, rfl⟩ : chomp (buffer.take nl) = line ∧ buffer.drop (nl + 1) = rest ∧
          chunks = chunks' := by
        simpa using hline
      obtain ⟨hlt, -⟩ := List.findIdx?_eq_some_iff_getElem.mp hnl
      rw [List.length_drop]
      omega
  | case2 => simp at hline
  | case3 => simp at hline
  | case4 buffer hnone chunk chunks hroom ih =>
      have hless := ih hline
      rw [List.length_append] at hless
      rw [List.flatten_cons, List.length_append]
      omega

/-! ## All lines -/

/-- `recvLine` again and again, until a call returns nothing. -/
def recvLines (buffer : Bytes) (chunks : List Bytes) : List Bytes :=
  match _hline : recvLine buffer chunks with
  | none => []
  | some (line, rest, chunks') => line :: recvLines rest chunks'
termination_by buffer.length + chunks.flatten.length
decreasing_by exact recvLine_lt _hline

theorem recvLines_eq {buffer stream : Bytes} {chunks : List Bytes}
    (hlines : ∀ line ∈ lines stream, line.length + 4096 ≤ kMaxFrameBytes)
    (hchunks : Chunked chunks) (hall : buffer ++ chunks.flatten = stream) :
    recvLines buffer chunks = (lines stream).map chomp := by
  fun_induction recvLines buffer chunks generalizing stream with
  | case1 buffer chunks hnone =>
      subst hall
      by_cases hmem : newline ∈ buffer ++ chunks.flatten
      · obtain ⟨line, tail, heq, hline⟩ := List.eq_append_cons_of_mem hmem
        rw [heq, lines_append hline] at hlines
        obtain ⟨rest, chunks', hsome, -⟩ := recvLine_first hline (hlines line (by simp)) hchunks heq
        simp [hnone] at hsome
      · rw [lines_eq_nil hmem]
        rfl
  | case2 buffer chunks line rest chunks' hsome ih =>
      subst hall
      have hmem : newline ∈ buffer ++ chunks.flatten := by
        by_contra hmem
        simp [recvLine_eq_none hmem] at hsome
      obtain ⟨front, tail, heq, hfront⟩ := List.eq_append_cons_of_mem hmem
      rw [heq, lines_append hfront] at hlines ⊢
      obtain ⟨rest', chunks'', hsome', hchunks', hrest⟩ :=
        recvLine_first hfront (hlines front (by simp)) hchunks heq
      obtain ⟨rfl, rfl, rfl⟩ : line = chomp front ∧ rest = rest' ∧ chunks' = chunks'' := by
        simpa [hsome] using hsome'
      rw [List.map_cons, ih (fun l hl ↦ hlines l (by simp [hl])) hchunks' hrest]

/-- The requests of one connection in order, `none` for a line that is answered
with an error. The server keeps running and its replies can be sent. -/
def handleClientConnection (buffer : Bytes) (chunks : List Bytes) : List (Option ClientRequest) :=
  match _hline : recvLine buffer chunks with
  | none => []
  | some (line, rest, chunks') =>
      if line.isEmpty then handleClientConnection rest chunks'
      else
        match parseClientRequest line with
        | none => none :: handleClientConnection rest chunks'
        | some .quit => [some .quit]
        | some request => some request :: handleClientConnection rest chunks'
termination_by buffer.length + chunks.flatten.length
decreasing_by all_goals exact recvLine_lt _hline

/-- The requests in a list of lines. -/
def requestsOf : List Bytes → List (Option ClientRequest)
  | [] => []
  | line :: lines =>
      if line.isEmpty then requestsOf lines
      else
        match parseClientRequest line with
        | none => none :: requestsOf lines
        | some .quit => [some .quit]
        | some request => some request :: requestsOf lines

theorem handleClientConnection_eq (buffer : Bytes) (chunks : List Bytes) :
    handleClientConnection buffer chunks = requestsOf (recvLines buffer chunks) := by
  fun_induction recvLines buffer chunks with
  | case1 buffer chunks hnone =>
      unfold handleClientConnection
      split
      · rfl
      · rename_i hsome
        simp [hnone] at hsome
  | case2 buffer chunks line rest chunks' hsome ih =>
      unfold handleClientConnection
      split
      · rename_i hnone
        simp [hsome] at hnone
      · rename_i line' rest' chunks'' hsome'
        obtain ⟨rfl, rfl, rfl⟩ : line = line' ∧ rest = rest' ∧ chunks' = chunks'' := by
          simpa [hsome] using hsome'
        rw [requestsOf, ih]

/-- Over a connection that is cut into chunks in any way, the lines received are the
lines of the stream, each without the carriage return that may end it; so the
requests do not depend on the chunks. -/
theorem lines_of_chunks {stream : Bytes}
    (hlines : ∀ line ∈ lines stream, (line ++ [newline]).length ≤ kMaxFrameBytes - 4096)
    {chunks : List Bytes} (hchunks : Chunked chunks) (hstream : chunks.flatten = stream) :
    recvLines [] chunks = (lines stream).map chomp ∧
      handleClientConnection [] chunks = requestsOf ((lines stream).map chomp) := by
  have hroom : ∀ line ∈ lines stream, line.length + 4096 ≤ kMaxFrameBytes := by
    intro line hline
    have hle := hlines line hline
    have hlimit : 4096 ≤ kMaxFrameBytes := by decide
    rw [List.length_append, List.length_singleton] at hle
    omega
  have hrecv : recvLines [] chunks = (lines stream).map chomp := recvLines_eq hroom hchunks hstream
  exact ⟨hrecv, by rw [handleClientConnection_eq, hrecv]⟩

/-- `GET k` with the carriage return and the newline in different chunks, an empty
line, and a line that does not end. -/
def sampleChunks : List Bytes := [[71, 69, 84, 32], [107, 13], [10, 10, 80]]

theorem lines_of_chunks_split :
    recvLines [] sampleChunks = [[71, 69, 84, 32, 107], []] ∧
      handleClientConnection [] sampleChunks = [some (.command ⟨.get, [107], []⟩)] := by
  have hlines : lines sampleChunks.flatten = [[71, 69, 84, 32, 107, 13], []] := by decide
  have hsize : ∀ line ∈ lines sampleChunks.flatten,
      (line ++ [newline]).length ≤ kMaxFrameBytes - 4096 := by
    rw [hlines]
    decide
  have hchunks : Chunked sampleChunks := by simp [Chunked, sampleChunks]
  obtain ⟨hrecv, hrequests⟩ := lines_of_chunks hsize hchunks rfl
  rw [hlines] at hrecv hrequests
  exact ⟨hrecv.trans (by decide), hrequests.trans (by decide)⟩

end Dkvs
