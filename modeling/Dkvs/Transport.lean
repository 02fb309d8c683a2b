import Dkvs.Messages
import Dkvs.PlainText

/-!
# Client lines and frames between nodes

Clients send lines of text, nodes exchange frames with a length in front. One
limit serves both: a frame may not announce more than `kMaxFrameBytes` bytes, and
the buffer in which a line is collected may not grow beyond as many.
-/

namespace Dkvs

def kMaxFrameBytes : ℕ := 64 * 1024 * 1024

/-! ## Frames -/

def sendFrame (payload : Bytes) : Bytes := Encoder.u32 (payload.length % 2 ^ 32) ++ payload

inductive FrameRead where
  | payload (bytes rest : Bytes)
  /-- The announced length is over the limit. -/
  | tooLong
  /-- The stream ends inside the frame. -/
  | closed
  deriving DecidableEq, Repr

/-- Read one frame off a stream of bytes. -/
def recvFrame (stream : Bytes) : FrameRead :=
  match (⟨stream⟩ : Decoder).u32 with
  | (none, _) => .closed
  | (some len, dec) =>
      if kMaxFrameBytes < len then .tooLong
      else if dec.rest.length < len then .closed
      else .payload (dec.rest.take len) (dec.rest.drop len)

theorem recvFrame_sendFrame {payload : Bytes} (hsize : payload.length ≤ kMaxFrameBytes)
    (rest : Bytes) : recvFrame (sendFrame payload ++ rest) = .payload payload rest := by
  have hlt : payload.length < 2 ^ 32 := lt_of_le_of_lt hsize (by decide)
  have hheader : (⟨sendFrame payload ++ rest⟩ : Decoder).u32 =
      (some payload.length, ⟨payload ++ rest⟩) := by
    rw [Decoder.u32_eq_some, sendFrame, Nat.mod_eq_of_lt hlt, List.append_assoc]
    exact ⟨rfl, hlt⟩
  simp [recvFrame, hheader, Nat.not_lt.mpr hsize]

/-! ## Lines -/

def newline : UInt8 := 10

def carriageReturn : UInt8 := 13

/-- A line without the carriage return that may end it. -/
def chomp (line : Bytes) : Bytes :=
  if line.getLast? = some carriageReturn then line.dropLast else line

/-- Collect a line from a buffer and the chunks that `recv` returns. The result is
the line, the rest of the buffer and the chunks not yet received. -/
def recvLine (buffer : Bytes) (chunks : List Bytes) : Option (Bytes × Bytes × List Bytes) :=
  match buffer.findIdx? (· = newline), chunks with
  | some nl, chunks => some (chomp (buffer.take nl), buffer.drop (nl + 1), chunks)
  | none, [] => none
  | none, chunk :: chunks =>
      if kMaxFrameBytes < (buffer ++ chunk).length then none
      else recvLine (buffer ++ chunk) chunks

/-- The lines that a connection delivers one after the other. -/
inductive Delivers : Bytes → List Bytes → Bytes → Prop
  | here {buffer rest line : Bytes} {chunks chunks' : List Bytes}
      (hline : recvLine buffer chunks = some (line, rest, chunks')) :
      Delivers buffer chunks line
  | later {buffer rest line line' : Bytes} {chunks chunks' : List Bytes}
      (hline : recvLine buffer chunks = some (line', rest, chunks'))
      (hrest : Delivers rest chunks' line) : Delivers buffer chunks line

/-- Some client can make the server receive this line. -/
def Deliverable (line : Bytes) : Prop :=
  ∃ chunks : List Bytes, (∀ chunk ∈ chunks, 0 < chunk.length ∧ chunk.length ≤ 4096) ∧
    Delivers [] chunks line

/-! ## Requests -/

def isBlank (b : UInt8) : Bool := b = 32 ∨ b = 9

def trimLeft (s : Bytes) : Bytes := s.dropWhile isBlank

/-- The first token and what follows it. -/
def takeToken (rest : Bytes) : Bytes × Bytes :=
  ((trimLeft rest).takeWhile fun b ↦ !isBlank b, (trimLeft rest).dropWhile fun b ↦ !isBlank b)

def upper (b : UInt8) : UInt8 := if 97 ≤ b ∧ b ≤ 122 then b - 97 + 65 else b

def equalsIgnoreCase (a b : Bytes) : Bool := a.length = b.length ∧ a.map upper = b.map upper

inductive ClientRequest where
  | command (cmd : Command)
  | ping
  | status
  | quit
  deriving DecidableEq, Repr

def pingVerb : Bytes := [80, 73, 78, 71]

def statusVerb : Bytes := [83, 84, 65, 84, 85, 83]

def quitVerb : Bytes := [81, 85, 73, 84]

def setVerb : Bytes := [83, 69, 84]

def getVerb : Bytes := [71, 69, 84]

def delVerb : Bytes := [68, 69, 76]

def deleteVerb : Bytes := [68, 69, 76, 69, 84, 69]

/-- The verbs `PING`, `STATUS`, `QUIT`, `SET`, `GET`, `DEL` and `DELETE`. -/
def parseClientRequest (line : Bytes) : Option ClientRequest :=
  let (verb, rest) := takeToken line
  if verb.isEmpty then none
  else if equalsIgnoreCase verb pingVerb then some .ping
  else if equalsIgnoreCase verb statusVerb then some .status
  else if equalsIgnoreCase verb quitVerb then some .quit
  else if equalsIgnoreCase verb setVerb then
    let (key, rest) := takeToken rest
    if key.isEmpty then none
    else
      let value := if rest.head? = some 32 then rest.tail else rest
      some (.command ⟨.set, key, value⟩)
  else if equalsIgnoreCase verb getVerb ∨ equalsIgnoreCase verb delVerb ∨
      equalsIgnoreCase verb deleteVerb then
    let (key, rest) := takeToken rest
    if key.isEmpty ∨ ¬ (trimLeft rest).isEmpty then none
    else
      let op : Op := if equalsIgnoreCase verb getVerb then .get else .del
      some (.command ⟨op, key, []⟩)
  else none

/-- The command in a line, if it is accepted as one. -/
def commandOf (line : Bytes) : Option Command :=
  match parseClientRequest line with
  | some (.command cmd) => some cmd
  | _ => none

/-! ## What reaches the server -/

/-- The buffer holds a line. -/
theorem recvLine_buffered {line : Bytes} (hline : newline ∉ line) (rest : Bytes)
    (chunks : List Bytes) :
    recvLine (line ++ newline :: rest) chunks = some (chomp line, rest, chunks) := by
  unfold recvLine
  simp [PlainText.findIdx?_append_cons hline]

/-- The buffer holds no line, and another chunk is appended. -/
theorem recvLine_refill {buffer : Bytes} (hbuffer : newline ∉ buffer) (chunk : Bytes)
    (chunks : List Bytes) :
    recvLine buffer (chunk :: chunks) =
      if kMaxFrameBytes < (buffer ++ chunk).length then none
      else recvLine (buffer ++ chunk) chunks := by
  conv_lhs => unfold recvLine
  simp only [PlainText.findIdx?_of_notMem hbuffer]

/-- A line of up to `kMaxFrameBytes - 1` bytes arrives, whatever it is cut into. -/
theorem recvLine_eq {line : Bytes} (hline : newline ∉ line)
    (hsize : line.length + 1 ≤ kMaxFrameBytes) {chunks : List Bytes}
    (hchunks : ∀ chunk ∈ chunks, chunk ≠ []) {buffer : Bytes}
    (hall : buffer ++ chunks.flatten = line ++ [newline]) :
    recvLine buffer chunks = some (chomp line, [], []) := by
  induction chunks generalizing buffer with
  | nil =>
      obtain rfl : buffer = line ++ [newline] := by simpa using hall
      exact recvLine_buffered hline [] []
  | cons chunk chunks ih =>
      have hpos := List.length_pos_of_ne_nil (hchunks chunk (by simp))
      have htotal := congrArg List.length hall
      rw [List.flatten_cons, List.length_append, List.length_append, List.length_append,
        List.length_singleton] at htotal
      -- the newline is the last byte of all, so the buffer is still a part of the line
      have hpre : buffer <+: line := by
        have hbuffer : buffer <+: line ++ [newline] := ⟨_, hall⟩
        exact List.prefix_of_prefix_length_le hbuffer (List.prefix_append _ _) (by omega)
      have hroom : ¬ kMaxFrameBytes < (buffer ++ chunk).length := by
        rw [List.length_append]
        omega
      rw [recvLine_refill (fun hmem ↦ hline (hpre.subset hmem)), if_neg hroom]
      refine ih (fun x hx ↦ hchunks x (by simp [hx])) ?_
      rw [List.append_assoc, ← List.flatten_cons]
      exact hall

/-- Every stream can be cut into chunks, for example into single bytes. -/
theorem exists_chunks (stream : Bytes) : ∃ chunks : List Bytes,
    (∀ chunk ∈ chunks, 0 < chunk.length ∧ chunk.length ≤ 4096) ∧ chunks.flatten = stream := by
  refine ⟨stream.map fun b ↦ [b], ?_, ?_⟩
  · intro chunk hchunk
    obtain ⟨b, -, rfl⟩ := List.mem_map.mp hchunk
    simp
  · rw [← List.flatMap_def, List.flatMap_singleton']

theorem deliverable_of_length {line : Bytes} (hline : newline ∉ line)
    (hsize : line.length + 1 ≤ kMaxFrameBytes) : Deliverable (chomp line) := by
  obtain ⟨chunks, hchunks, hstream⟩ := exists_chunks (line ++ [newline])
  refine ⟨chunks, hchunks, .here (recvLine_eq hline hsize ?_ hstream)⟩
  exact fun chunk hchunk ↦ List.ne_nil_of_length_pos (hchunks chunk hchunk).1

/-- A token that ends at a blank or at the end of the line. -/
theorem takeToken_eq (front token rest : Bytes) (hfront : ∀ b ∈ front, isBlank b = true)
    (htoken : token ≠ []) (hblank : ∀ b ∈ token, isBlank b = false)
    (hrest : ∀ b ∈ rest.head?, isBlank b = true) :
    takeToken (front ++ (token ++ rest)) = (token, rest) := by
  have hword : ∀ b ∈ token, (!isBlank b) = true := fun b hb ↦ by simp [hblank b hb]
  have htrim : trimLeft (front ++ (token ++ rest)) = token ++ rest := by
    rw [trimLeft, List.dropWhile_append_of_pos hfront]
    cases token with
    | nil => exact absurd rfl htoken
    | cons b token => simp [hblank b (by simp)]
  rw [takeToken, htrim, List.takeWhile_append_of_pos hword, List.dropWhile_append_of_pos hword]
  cases rest with
  | nil => simp
  | cons b rest => simp [hrest b rfl]

/-! ## How long a line can get -/

theorem chomp_length (line : Bytes) : (chomp line).length ≤ line.length := by
  unfold chomp
  split_ifs with hcr
  · simp
  · exact le_rfl

theorem recvLine_length {buffer line rest : Bytes} {chunks chunks' : List Bytes}
    (hbuffer : buffer.length ≤ kMaxFrameBytes)
    (hline : recvLine buffer chunks = some (line, rest, chunks')) :
    line.length ≤ kMaxFrameBytes ∧ rest.length ≤ kMaxFrameBytes := by
  fun_induction recvLine buffer chunks with
  | case1 buffer nl chunks hnl =>
      obtain ⟨rfl, rfl, -⟩ : chomp (buffer.take nl) = line ∧ buffer.drop (nl + 1) = rest ∧
          chunks = chunks' := by
        simpa using hline
      refine ⟨(chomp_length _).trans ?_, ?_⟩
      · exact (List.length_take_le' nl buffer).trans hbuffer
      · exact (List.drop_sublist (nl + 1) buffer).length_le.trans hbuffer
  | case2 => simp at hline
  | case3 => simp at hline
  | case4 buffer hnone chunk chunks hroom ih => exact ih (Nat.not_lt.mp hroom) hline

theorem Delivers.length_le {buffer line : Bytes} {chunks : List Bytes}
    (hbuffer : buffer.length ≤ kMaxFrameBytes) (hline : Delivers buffer chunks line) :
    line.length ≤ kMaxFrameBytes := by
  induction hline with
  | here hline => exact (recvLine_length hbuffer hline).1
  | later hline _ ih => exact ih (recvLine_length hbuffer hline).2

end Dkvs
