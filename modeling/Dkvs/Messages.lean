import Dkvs.Codec

/-!
# Commands, log entries and the four Raft messages

Each message is tagged with its type byte. The decoders read every field before
they test any of them.
-/

namespace Dkvs

inductive Op where
  | set
  | get
  | del
  deriving DecidableEq, Repr

def Op.toByte : Op → ℕ
  | .set => 1
  | .get => 2
  | .del => 3

structure Command where
  op : Op
  key : Bytes
  value : Bytes
  deriving DecidableEq, Repr

def Command.encode (c : Command) : Bytes :=
  Encoder.u8 c.op.toByte ++ Encoder.str c.key ++ Encoder.str c.value

def Op.ofByte : ℕ → Option Op
  | 1 => some .set
  | 2 => some .get
  | 3 => some .del
  | _ => none

def Command.decode (bytes : Bytes) : Option Command :=
  let dec : Decoder := ⟨bytes⟩
  let (op, dec) := dec.u8
  let (key, dec) := dec.str
  let (value, dec) := dec.str
  match op, key, value with
  | some op, some key, some value =>
      if dec.done then (Op.ofByte op).map fun op ↦ ⟨op, key, value⟩ else none
  | _, _, _ => none

/-- One entry of the replicated log; the command is kept encoded. -/
structure LogEntry where
  term : ℕ
  command : Bytes
  deriving DecidableEq, Repr

structure RequestVoteArgs where
  term : ℕ
  candidateId : ℕ
  lastLogIndex : ℕ
  lastLogTerm : ℕ
  deriving DecidableEq, Repr

structure RequestVoteReply where
  term : ℕ
  voteGranted : Bool
  deriving DecidableEq, Repr

structure AppendEntriesArgs where
  term : ℕ
  leaderId : ℕ
  prevLogIndex : ℕ
  prevLogTerm : ℕ
  leaderCommit : ℕ
  entries : List LogEntry
  deriving DecidableEq, Repr

structure AppendEntriesReply where
  term : ℕ
  success : Bool
  conflictIndex : ℕ
  deriving DecidableEq, Repr

inductive MsgType where
  | requestVoteArgs
  | requestVoteReply
  | appendEntriesArgs
  | appendEntriesReply
  deriving DecidableEq, Repr

def MsgType.toByte : MsgType → ℕ
  | .requestVoteArgs => 1
  | .requestVoteReply => 2
  | .appendEntriesArgs => 3
  | .appendEntriesReply => 4

def RequestVoteArgs.encode (a : RequestVoteArgs) : Bytes :=
  Encoder.u8 MsgType.requestVoteArgs.toByte ++ Encoder.u64 a.term ++
    Encoder.u32 a.candidateId ++ Encoder.u64 a.lastLogIndex ++ Encoder.u64 a.lastLogTerm

def RequestVoteArgs.decode (bytes : Bytes) : Option RequestVoteArgs :=
  let dec : Decoder := ⟨bytes⟩
  let (tag, dec) := dec.u8
  if tag ≠ some MsgType.requestVoteArgs.toByte then none
  else
    let (term, dec) := dec.u64
    let (candidate, dec) := dec.u32
    let (lastIdx, dec) := dec.u64
    let (lastTerm, dec) := dec.u64
    match term, candidate, lastIdx, lastTerm with
    | some term, some candidate, some lastIdx, some lastTerm =>
        if dec.done then some ⟨term, candidate, lastIdx, lastTerm⟩ else none
    | _, _, _, _ => none

def RequestVoteReply.encode (r : RequestVoteReply) : Bytes :=
  Encoder.u8 MsgType.requestVoteReply.toByte ++ Encoder.u64 r.term ++
    Encoder.u8 (if r.voteGranted then 1 else 0)

def RequestVoteReply.decode (bytes : Bytes) : Option RequestVoteReply :=
  let dec : Decoder := ⟨bytes⟩
  let (tag, dec) := dec.u8
  if tag ≠ some MsgType.requestVoteReply.toByte then none
  else
    let (term, dec) := dec.u64
    let (granted, dec) := dec.u8
    match term, granted with
    | some term, some granted => if dec.done then some ⟨term, granted != 0⟩ else none
    | _, _ => none

def LogEntry.encode (e : LogEntry) : Bytes := Encoder.u64 e.term ++ Encoder.str e.command

/-- The number of entries is cast to `uint32_t`. -/
def AppendEntriesArgs.encode (a : AppendEntriesArgs) : Bytes :=
  Encoder.u8 MsgType.appendEntriesArgs.toByte ++ Encoder.u64 a.term ++
    Encoder.u32 a.leaderId ++ Encoder.u64 a.prevLogIndex ++ Encoder.u64 a.prevLogTerm ++
    Encoder.u64 a.leaderCommit ++ Encoder.u32 (a.entries.length % 2 ^ 32) ++
    a.entries.flatMap LogEntry.encode

/-- A term and a command. -/
def Decoder.entry (dec : Decoder) : Option (LogEntry × Decoder) :=
  let (term, dec) := dec.u64
  let (cmd, dec) := dec.str
  match term, cmd with
  | some term, some cmd => some (⟨term, cmd⟩, dec)
  | _, _ => none

/-- The loop of `AppendEntriesArgs::decode` over the announced count. -/
def decodeEntries : ℕ → Decoder → Option (List LogEntry × Decoder)
  | 0, dec => some ([], dec)
  | count + 1, dec => do
      let (e, dec) ← dec.entry
      let (entries, dec) ← decodeEntries count dec
      some (e :: entries, dec)

def AppendEntriesArgs.decode (bytes : Bytes) : Option AppendEntriesArgs :=
  let dec : Decoder := ⟨bytes⟩
  let (tag, dec) := dec.u8
  if tag ≠ some MsgType.appendEntriesArgs.toByte then none
  else
    let (term, dec) := dec.u64
    let (leader, dec) := dec.u32
    let (prevIdx, dec) := dec.u64
    let (prevTerm, dec) := dec.u64
    let (commit, dec) := dec.u64
    let (count, dec) := dec.u32
    match term, leader, prevIdx, prevTerm, commit, count with
    | some term, some leader, some prevIdx, some prevTerm, some commit, some count =>
        match decodeEntries count dec with
        | some (entries, dec) =>
            if dec.done then some ⟨term, leader, prevIdx, prevTerm, commit, entries⟩ else none
        | none => none
    | _, _, _, _, _, _ => none

/-- `AppendEntriesArgs::decode` up to the call of `reserve`: the message without its
entries, the announced count and the decoder at this point. -/
def AppendEntriesArgs.decodeHeader (bytes : Bytes) : Option (AppendEntriesArgs × ℕ × Decoder) :=
  let dec : Decoder := ⟨bytes⟩
  let (tag, dec) := dec.u8
  if tag ≠ some MsgType.appendEntriesArgs.toByte then none
  else
    let (term, dec) := dec.u64
    let (leader, dec) := dec.u32
    let (prevIdx, dec) := dec.u64
    let (prevTerm, dec) := dec.u64
    let (commit, dec) := dec.u64
    let (count, dec) := dec.u32
    match term, leader, prevIdx, prevTerm, commit, count with
    | some term, some leader, some prevIdx, some prevTerm, some commit, some count =>
        some (⟨term, leader, prevIdx, prevTerm, commit, []⟩, count, dec)
    | _, _, _, _, _, _ => none

def AppendEntriesReply.encode (r : AppendEntriesReply) : Bytes :=
  Encoder.u8 MsgType.appendEntriesReply.toByte ++ Encoder.u64 r.term ++
    Encoder.u8 (if r.success then 1 else 0) ++ Encoder.u64 r.conflictIndex

def AppendEntriesReply.decode (bytes : Bytes) : Option AppendEntriesReply :=
  let dec : Decoder := ⟨bytes⟩
  let (tag, dec) := dec.u8
  if tag ≠ some MsgType.appendEntriesReply.toByte then none
  else
    let (term, dec) := dec.u64
    let (success, dec) := dec.u8
    let (conflict, dec) := dec.u64
    match term, success, conflict with
    | some term, some success, some conflict =>
        if dec.done then some ⟨term, success != 0, conflict⟩ else none
    | _, _, _ => none

/-! ## Sizes -/

theorem Command.length_encode (cmd : Command) :
    cmd.encode.length = 9 + cmd.key.length + cmd.value.length := by
  rw [Command.encode, List.length_append, List.length_append, Encoder.length_str,
    Encoder.length_str]
  show 1 + _ + _ = _
  omega

@[simp] theorem LogEntry.length_encode (e : LogEntry) :
    e.encode.length = 12 + e.command.length := by
  rw [LogEntry.encode, List.length_append, Encoder.length_u64, Encoder.length_str]
  omega

/-! ## Decoders accept exactly what the encoders write

A value that the source's types can hold is called ranged: the integers fit their
widths and the lengths fit the `uint32_t` in which they are written. -/

def Command.Ranged (cmd : Command) : Prop := cmd.key.length < 2 ^ 32 ∧ cmd.value.length < 2 ^ 32

def LogEntry.Ranged (e : LogEntry) : Prop := e.term < 2 ^ 64 ∧ e.command.length < 2 ^ 32

def RequestVoteArgs.Ranged (a : RequestVoteArgs) : Prop :=
  a.term < 2 ^ 64 ∧ a.candidateId < 2 ^ 32 ∧ a.lastLogIndex < 2 ^ 64 ∧ a.lastLogTerm < 2 ^ 64

def AppendEntriesArgs.Ranged (a : AppendEntriesArgs) : Prop :=
  a.term < 2 ^ 64 ∧ a.leaderId < 2 ^ 32 ∧ a.prevLogIndex < 2 ^ 64 ∧ a.prevLogTerm < 2 ^ 64 ∧
    a.leaderCommit < 2 ^ 64 ∧ a.entries.length < 2 ^ 32 ∧ ∀ e ∈ a.entries, e.Ranged

def AppendEntriesReply.Ranged (r : AppendEntriesReply) : Prop :=
  r.term < 2 ^ 64 ∧ r.conflictIndex < 2 ^ 64

theorem Op.ofByte_eq_some {v : ℕ} {op : Op} : Op.ofByte v = some op ↔ v = op.toByte := by
  constructor
  · intro h
    unfold Op.ofByte at h
    split at h
    · obtain rfl := Option.some.inj h
      rfl
    · obtain rfl := Option.some.inj h
      rfl
    · obtain rfl := Option.some.inj h
      rfl
    · simp at h
  · rintro rfl
    cases op with
    | _ => rfl

theorem Command.decode_eq_some {bytes : Bytes} {cmd : Command} :
    Command.decode bytes = some cmd ↔ bytes = cmd.encode ∧ cmd.Ranged := by
  constructor
  · intro h
    rcases hop : (⟨bytes⟩ : Decoder).u8 with ⟨_ | op, d₁⟩
    · simp [Command.decode, hop] at h
    rcases hkey : d₁.str with ⟨_ | key, d₂⟩
    · simp [Command.decode, hop, hkey] at h
    rcases hvalue : d₂.str with ⟨_ | value, d₃⟩
    · simp [Command.decode, hop, hkey, hvalue] at h
    simp only [Command.decode, hop, hkey, hvalue, Option.ite_none_right_eq_some,
      Option.map_eq_some_iff, Op.ofByte_eq_some, Decoder.done_iff] at h
    obtain ⟨hdone, op, rfl, rfl⟩ := h
    obtain ⟨hrest₁, -⟩ := Decoder.u8_eq_some.mp hop
    obtain ⟨hrest₂, hlt₂⟩ := Decoder.str_eq_some.mp hkey
    obtain ⟨hrest₃, hlt₃⟩ := Decoder.str_eq_some.mp hvalue
    rw [hrest₂, hrest₃, hdone] at hrest₁
    exact ⟨by simpa [Command.encode] using hrest₁, hlt₂, hlt₃⟩
  · rintro ⟨rfl, hkey, hvalue⟩
    have hencode : cmd.encode = Encoder.u8 cmd.op.toByte ++ (Encoder.str cmd.key ++
        (Encoder.str cmd.value ++ [])) := by simp [Command.encode]
    have hop : cmd.op.toByte < 2 ^ 8 := by
      cases cmd.op with
      | _ => decide
    have hback : Op.ofByte cmd.op.toByte = some cmd.op := Op.ofByte_eq_some.mpr rfl
    rw [hencode, Command.decode]
    simp only [Decoder.u8_append hop, Decoder.str_append hkey, Decoder.str_append hvalue,
      Decoder.done, List.isEmpty_nil, if_true, hback, Option.map_some]

theorem Decoder.entry_eq_some {e : LogEntry} {d d' : Decoder} :
    d.entry = some (e, d') ↔ d.rest = e.encode ++ d'.rest ∧ e.Ranged := by
  unfold Decoder.entry
  constructor
  · intro hread
    rcases hterm : d.u64 with ⟨_ | term, d₁⟩
    · simp [hterm] at hread
    · rcases hcmd : d₁.str with ⟨_ | cmd, d₂⟩
      · simp [hterm, hcmd] at hread
      · obtain ⟨rfl, rfl⟩ : (⟨term, cmd⟩ : LogEntry) = e ∧ d₂ = d' := by
          simpa [hterm, hcmd] using hread
        obtain ⟨hrest, hlt⟩ := u64_eq_some.mp hterm
        obtain ⟨hrest', hlt'⟩ := str_eq_some.mp hcmd
        refine ⟨?_, hlt, hlt'⟩
        rw [hrest, hrest', LogEntry.encode, List.append_assoc]
  · rintro ⟨hrest, hterm, hcmd⟩
    have hread : d.u64 = (some e.term, ⟨Encoder.str e.command ++ d'.rest⟩) := by
      rw [u64_eq_some]
      refine ⟨?_, hterm⟩
      rw [hrest, LogEntry.encode, List.append_assoc]
    simp [hread, str_append hcmd]

theorem decodeEntries_eq_some {count : ℕ} {es : List LogEntry} {d d' : Decoder} :
    decodeEntries count d = some (es, d') ↔
      es.length = count ∧ d.rest = es.flatMap LogEntry.encode ++ d'.rest ∧ ∀ e ∈ es, e.Ranged := by
  induction count generalizing d es with
  | zero =>
      simp only [decodeEntries, Option.some.injEq, Prod.mk.injEq, List.length_eq_zero_iff]
      constructor
      · rintro ⟨rfl, rfl⟩
        exact ⟨rfl, rfl, by simp⟩
      · rintro ⟨rfl, hrest, -⟩
        exact ⟨rfl, Decoder.ext hrest⟩
  | succ count ih =>
      constructor
      · intro h
        cases hentry : d.entry with
        | none => simp [decodeEntries, hentry] at h
        | some first =>
            obtain ⟨e, d₁⟩ := first
            cases hmore : decodeEntries count d₁ with
            | none => simp [decodeEntries, hentry, hmore] at h
            | some last =>
                obtain ⟨es₁, d₂⟩ := last
                obtain ⟨rfl, rfl⟩ : e :: es₁ = es ∧ d₂ = d' := by
                  simpa [decodeEntries, hentry, hmore] using h
                obtain ⟨hrest, hranged⟩ := Decoder.entry_eq_some.mp hentry
                obtain ⟨hlen, hrest₁, hall⟩ := ih.mp hmore
                refine ⟨by rw [List.length_cons, hlen], ?_,
                  List.forall_mem_cons.mpr ⟨hranged, hall⟩⟩
                rw [hrest, hrest₁, List.flatMap_cons, List.append_assoc]
      · rintro ⟨hlen, hrest, hall⟩
        cases es with
        | nil => simp at hlen
        | cons e es =>
            obtain ⟨hranged, hall⟩ := List.forall_mem_cons.mp hall
            rw [List.flatMap_cons, List.append_assoc] at hrest
            have hentry : d.entry = some (e, ⟨es.flatMap LogEntry.encode ++ d'.rest⟩) :=
              Decoder.entry_eq_some.mpr ⟨hrest, hranged⟩
            have hmore : decodeEntries count ⟨es.flatMap LogEntry.encode ++ d'.rest⟩ =
                some (es, d') := ih.mpr ⟨Nat.succ.inj hlen, rfl, hall⟩
            simp [decodeEntries, hentry, hmore]

theorem RequestVoteArgs.decode_eq_some {bytes : Bytes} {a : RequestVoteArgs} :
    RequestVoteArgs.decode bytes = some a ↔ bytes = a.encode ∧ a.Ranged := by
  constructor
  · intro h
    rcases htag : (⟨bytes⟩ : Decoder).u8 with ⟨tag, d₁⟩
    rcases hterm : d₁.u64 with ⟨_ | term, d₂⟩
    · simp [RequestVoteArgs.decode, htag, hterm] at h
    rcases hcandidate : d₂.u32 with ⟨_ | candidate, d₃⟩
    · simp [RequestVoteArgs.decode, htag, hterm, hcandidate] at h
    rcases hlastIdx : d₃.u64 with ⟨_ | lastIdx, d₄⟩
    · simp [RequestVoteArgs.decode, htag, hterm, hcandidate, hlastIdx] at h
    rcases hlastTerm : d₄.u64 with ⟨_ | lastTerm, d₅⟩
    · simp [RequestVoteArgs.decode, htag, hterm, hcandidate, hlastIdx, hlastTerm] at h
    simp only [RequestVoteArgs.decode, htag, hterm, hcandidate, hlastIdx, hlastTerm, ne_eq,
      ite_not, Option.ite_none_right_eq_some, Option.some.injEq, Decoder.done_iff] at h
    obtain ⟨rfl, hdone, rfl⟩ := h
    obtain ⟨hrest₁, -⟩ := Decoder.u8_eq_some.mp htag
    obtain ⟨hrest₂, hlt₂⟩ := Decoder.u64_eq_some.mp hterm
    obtain ⟨hrest₃, hlt₃⟩ := Decoder.u32_eq_some.mp hcandidate
    obtain ⟨hrest₄, hlt₄⟩ := Decoder.u64_eq_some.mp hlastIdx
    obtain ⟨hrest₅, hlt₅⟩ := Decoder.u64_eq_some.mp hlastTerm
    rw [hrest₂, hrest₃, hrest₄, hrest₅, hdone] at hrest₁
    exact ⟨by simpa [RequestVoteArgs.encode] using hrest₁, hlt₂, hlt₃, hlt₄, hlt₅⟩
  · rintro ⟨rfl, hterm, hcandidate, hlastIdx, hlastTerm⟩
    have hencode : a.encode = Encoder.u8 MsgType.requestVoteArgs.toByte ++ (Encoder.u64 a.term ++
        (Encoder.u32 a.candidateId ++ (Encoder.u64 a.lastLogIndex ++
          (Encoder.u64 a.lastLogTerm ++ [])))) := by simp [RequestVoteArgs.encode]
    have htag : MsgType.requestVoteArgs.toByte < 2 ^ 8 := by decide
    rw [hencode, RequestVoteArgs.decode]
    simp only [Decoder.u8_append htag, Decoder.u64_append hterm, Decoder.u32_append hcandidate,
      Decoder.u64_append hlastIdx, Decoder.u64_append hlastTerm, ne_eq, not_true_eq_false,
      if_false, Decoder.done, List.isEmpty_nil, if_true]

/-- What is written before the entries. -/
def AppendEntriesArgs.encodeHeader (a : AppendEntriesArgs) (count : ℕ) : Bytes :=
  Encoder.u8 MsgType.appendEntriesArgs.toByte ++ Encoder.u64 a.term ++
    Encoder.u32 a.leaderId ++ Encoder.u64 a.prevLogIndex ++ Encoder.u64 a.prevLogTerm ++
    Encoder.u64 a.leaderCommit ++ Encoder.u32 count

theorem AppendEntriesArgs.decodeHeader_eq_some {bytes : Bytes} {a : AppendEntriesArgs} {count : ℕ}
    {d : Decoder} :
    AppendEntriesArgs.decodeHeader bytes = some (a, count, d) ↔
      bytes = a.encodeHeader count ++ d.rest ∧ a.entries = [] ∧ a.Ranged ∧ count < 2 ^ 32 := by
  constructor
  · intro h
    rcases htag : (⟨bytes⟩ : Decoder).u8 with ⟨tag, d₁⟩
    rcases hterm : d₁.u64 with ⟨_ | term, d₂⟩
    · simp [decodeHeader, htag, hterm] at h
    rcases hleader : d₂.u32 with ⟨_ | leader, d₃⟩
    · simp [decodeHeader, htag, hterm, hleader] at h
    rcases hprevIdx : d₃.u64 with ⟨_ | prevIdx, d₄⟩
    · simp [decodeHeader, htag, hterm, hleader, hprevIdx] at h
    rcases hprevTerm : d₄.u64 with ⟨_ | prevTerm, d₅⟩
    · simp [decodeHeader, htag, hterm, hleader, hprevIdx, hprevTerm] at h
    rcases hcommit : d₅.u64 with ⟨_ | commit, d₆⟩
    · simp [decodeHeader, htag, hterm, hleader, hprevIdx, hprevTerm, hcommit] at h
    rcases hcount : d₆.u32 with ⟨_ | count', d₇⟩
    · simp [decodeHeader, htag, hterm, hleader, hprevIdx, hprevTerm, hcommit, hcount] at h
    simp only [decodeHeader, htag, hterm, hleader, hprevIdx, hprevTerm, hcommit, hcount, ne_eq,
      ite_not, Option.ite_none_right_eq_some, Option.some.injEq, Prod.mk.injEq] at h
    obtain ⟨rfl, rfl, rfl, rfl⟩ := h
    obtain ⟨hrest₁, -⟩ := Decoder.u8_eq_some.mp htag
    obtain ⟨hrest₂, hlt₂⟩ := Decoder.u64_eq_some.mp hterm
    obtain ⟨hrest₃, hlt₃⟩ := Decoder.u32_eq_some.mp hleader
    obtain ⟨hrest₄, hlt₄⟩ := Decoder.u64_eq_some.mp hprevIdx
    obtain ⟨hrest₅, hlt₅⟩ := Decoder.u64_eq_some.mp hprevTerm
    obtain ⟨hrest₆, hlt₆⟩ := Decoder.u64_eq_some.mp hcommit
    obtain ⟨hrest₇, hlt₇⟩ := Decoder.u32_eq_some.mp hcount
    rw [hrest₂, hrest₃, hrest₄, hrest₅, hrest₆, hrest₇] at hrest₁
    exact ⟨by simpa [encodeHeader] using hrest₁, rfl,
      ⟨hlt₂, hlt₃, hlt₄, hlt₅, hlt₆, by simp, by simp⟩, hlt₇⟩
  · rintro ⟨rfl, hentries, ⟨hterm, hleader, hprevIdx, hprevTerm, hcommit, -⟩, hcount⟩
    have hheader : a.encodeHeader count ++ d.rest =
        Encoder.u8 MsgType.appendEntriesArgs.toByte ++ (Encoder.u64 a.term ++
          (Encoder.u32 a.leaderId ++ (Encoder.u64 a.prevLogIndex ++ (Encoder.u64 a.prevLogTerm ++
            (Encoder.u64 a.leaderCommit ++ (Encoder.u32 count ++ d.rest)))))) := by
      simp [encodeHeader]
    have htag : MsgType.appendEntriesArgs.toByte < 2 ^ 8 := by decide
    rw [hheader, decodeHeader]
    simp only [Decoder.u8_append htag, Decoder.u64_append hterm, Decoder.u32_append hleader,
      Decoder.u64_append hprevIdx, Decoder.u64_append hprevTerm, Decoder.u64_append hcommit,
      Decoder.u32_append hcount, ne_eq, not_true_eq_false, if_false, ← hentries]

/-- The decoder is the header followed by the loop over the entries. -/
theorem AppendEntriesArgs.decode_eq (bytes : Bytes) :
    AppendEntriesArgs.decode bytes = (do
      let (a, count, dec) ← AppendEntriesArgs.decodeHeader bytes
      let (entries, dec) ← decodeEntries count dec
      if dec.done then some { a with entries } else none) := by
  unfold AppendEntriesArgs.decode AppendEntriesArgs.decodeHeader
  dsimp only
  split_ifs with htag
  · rfl
  · split
    · simp only [Option.bind_eq_bind, Option.bind_some]
      split
      · rename_i hentries
        rw [hentries, Option.bind_some]
      · rename_i hentries
        rw [hentries, Option.bind_none]
    · rfl

theorem AppendEntriesArgs.decode_eq_some {bytes : Bytes} {a : AppendEntriesArgs} :
    AppendEntriesArgs.decode bytes = some a ↔ bytes = a.encode ∧ a.Ranged := by
  have hencode : a.entries.length < 2 ^ 32 →
      a.encode = a.encodeHeader a.entries.length ++ a.entries.flatMap LogEntry.encode := by
    intro hcount
    rw [encode, encodeHeader, Nat.mod_eq_of_lt hcount]
  simp only [decode_eq, Option.bind_eq_bind, Option.bind_eq_some_iff, Prod.exists,
    decodeHeader_eq_some, decodeEntries_eq_some, Option.ite_none_right_eq_some, Option.some.injEq,
    Decoder.done_iff]
  constructor
  · rintro ⟨a, _, d, ⟨rfl, -, ⟨hterm, hleader, hprevIdx, hprevTerm, hcommit, -⟩, hcount⟩, es, d',
      ⟨rfl, hrest, hall⟩, hdone, rfl⟩
    refine ⟨?_, hterm, hleader, hprevIdx, hprevTerm, hcommit, hcount, hall⟩
    rw [hencode hcount, hrest, hdone, List.append_nil]
    rfl
  · rintro ⟨rfl, hterm, hleader, hprevIdx, hprevTerm, hcommit, hcount, hall⟩
    refine ⟨{ a with entries := [] }, a.entries.length, ⟨a.entries.flatMap LogEntry.encode⟩,
      ⟨hencode hcount, rfl, ⟨hterm, hleader, hprevIdx, hprevTerm, hcommit, by simp, by simp⟩,
        hcount⟩, a.entries, ⟨[]⟩, ⟨rfl, by simp, hall⟩, rfl, rfl⟩

/-- The reply with any byte in the place of its flag. -/
def RequestVoteReply.encodeWith (r : RequestVoteReply) (flag : UInt8) : Bytes :=
  Encoder.u8 MsgType.requestVoteReply.toByte ++ Encoder.u64 r.term ++ [flag]

def AppendEntriesReply.encodeWith (r : AppendEntriesReply) (flag : UInt8) : Bytes :=
  Encoder.u8 MsgType.appendEntriesReply.toByte ++ Encoder.u64 r.term ++ [flag] ++
    Encoder.u64 r.conflictIndex

theorem flag_ne_zero (flag : UInt8) : flag ≠ 0 ↔ (flag.toNat != 0) = true := by
  simp [← UInt8.toNat_inj]

theorem RequestVoteReply.decode_eq_some {bytes : Bytes} {r : RequestVoteReply} :
    RequestVoteReply.decode bytes = some r ↔ r.term < 2 ^ 64 ∧
      ∃ flag : UInt8, (flag ≠ 0 ↔ r.voteGranted = true) ∧ bytes = r.encodeWith flag := by
  constructor
  · intro h
    rcases htag : (⟨bytes⟩ : Decoder).u8 with ⟨tag, d₁⟩
    rcases hterm : d₁.u64 with ⟨_ | term, d₂⟩
    · simp [RequestVoteReply.decode, htag, hterm] at h
    rcases hgranted : d₂.u8 with ⟨_ | granted, d₃⟩
    · simp [RequestVoteReply.decode, htag, hterm, hgranted] at h
    simp only [RequestVoteReply.decode, htag, hterm, hgranted, ne_eq, ite_not,
      Option.ite_none_right_eq_some, Option.some.injEq, Decoder.done_iff] at h
    obtain ⟨rfl, hdone, rfl⟩ := h
    obtain ⟨hrest₁, -⟩ := Decoder.u8_eq_some.mp htag
    obtain ⟨hrest₂, hlt₂⟩ := Decoder.u64_eq_some.mp hterm
    obtain ⟨hrest₃, hlt₃⟩ := Decoder.u8_eq_some.mp hgranted
    rw [hrest₂, hrest₃, hdone] at hrest₁
    have hback : (UInt8.ofNat granted).toNat = granted := by simpa using hlt₃
    refine ⟨hlt₂, UInt8.ofNat granted, ?_, ?_⟩
    · rw [flag_ne_zero, hback]
    · simpa [RequestVoteReply.encodeWith, Encoder.u8] using hrest₁
  · rintro ⟨hterm, flag, hflag, rfl⟩
    have hencode : r.encodeWith flag = Encoder.u8 MsgType.requestVoteReply.toByte ++
        (Encoder.u64 r.term ++ (Encoder.u8 flag.toNat ++ [])) := by
      simp [RequestVoteReply.encodeWith, Encoder.u8]
    have htag : MsgType.requestVoteReply.toByte < 2 ^ 8 := by decide
    rw [hencode, RequestVoteReply.decode]
    simp only [Decoder.u8_append htag, Decoder.u64_append hterm, Decoder.u8_append flag.toNat_lt,
      ne_eq, not_true_eq_false, if_false, Decoder.done, List.isEmpty_nil, if_true]
    rw [flag_ne_zero, ← Bool.eq_iff_iff] at hflag
    rw [hflag]

theorem AppendEntriesReply.decode_eq_some {bytes : Bytes} {r : AppendEntriesReply} :
    AppendEntriesReply.decode bytes = some r ↔ r.Ranged ∧
      ∃ flag : UInt8, (flag ≠ 0 ↔ r.success = true) ∧ bytes = r.encodeWith flag := by
  constructor
  · intro h
    rcases htag : (⟨bytes⟩ : Decoder).u8 with ⟨tag, d₁⟩
    rcases hterm : d₁.u64 with ⟨_ | term, d₂⟩
    · simp [AppendEntriesReply.decode, htag, hterm] at h
    rcases hsuccess : d₂.u8 with ⟨_ | success, d₃⟩
    · simp [AppendEntriesReply.decode, htag, hterm, hsuccess] at h
    rcases hconflict : d₃.u64 with ⟨_ | conflict, d₄⟩
    · simp [AppendEntriesReply.decode, htag, hterm, hsuccess, hconflict] at h
    simp only [AppendEntriesReply.decode, htag, hterm, hsuccess, hconflict, ne_eq, ite_not,
      Option.ite_none_right_eq_some, Option.some.injEq, Decoder.done_iff] at h
    obtain ⟨rfl, hdone, rfl⟩ := h
    obtain ⟨hrest₁, -⟩ := Decoder.u8_eq_some.mp htag
    obtain ⟨hrest₂, hlt₂⟩ := Decoder.u64_eq_some.mp hterm
    obtain ⟨hrest₃, hlt₃⟩ := Decoder.u8_eq_some.mp hsuccess
    obtain ⟨hrest₄, hlt₄⟩ := Decoder.u64_eq_some.mp hconflict
    rw [hrest₂, hrest₃, hrest₄, hdone] at hrest₁
    have hback : (UInt8.ofNat success).toNat = success := by simpa using hlt₃
    refine ⟨⟨hlt₂, hlt₄⟩, UInt8.ofNat success, ?_, ?_⟩
    · rw [flag_ne_zero, hback]
    · simpa [AppendEntriesReply.encodeWith, Encoder.u8] using hrest₁
  · rintro ⟨⟨hterm, hconflict⟩, flag, hflag, rfl⟩
    have hencode : r.encodeWith flag = Encoder.u8 MsgType.appendEntriesReply.toByte ++
        (Encoder.u64 r.term ++ (Encoder.u8 flag.toNat ++
          (Encoder.u64 r.conflictIndex ++ []))) := by
      simp [AppendEntriesReply.encodeWith, Encoder.u8]
    have htag : MsgType.appendEntriesReply.toByte < 2 ^ 8 := by decide
    rw [hencode, AppendEntriesReply.decode]
    simp only [Decoder.u8_append htag, Decoder.u64_append hterm, Decoder.u8_append flag.toNat_lt,
      Decoder.u64_append hconflict, ne_eq, not_true_eq_false, if_false, Decoder.done,
      List.isEmpty_nil, if_true]
    rw [flag_ne_zero, ← Bool.eq_iff_iff] at hflag
    rw [hflag]

/-- The entries of a decoded request are no longer than the frame they came in. -/
theorem AppendEntriesArgs.decode_spec {bytes : Bytes} {args : AppendEntriesArgs}
    (h : AppendEntriesArgs.decode bytes = some args) :
    args.term < 2 ^ 64 ∧
      ∀ e ∈ args.entries, e.term < 2 ^ 64 ∧ e.command.length ≤ bytes.length := by
  obtain ⟨rfl, hranged⟩ := AppendEntriesArgs.decode_eq_some.mp h
  obtain ⟨hterm, -, -, -, -, -, hall⟩ := hranged
  refine ⟨hterm, fun e he ↦ ⟨(hall e he).1, ?_⟩⟩
  have hentry : e.encode.length ≤ (args.entries.flatMap LogEntry.encode).length :=
    (List.sublist_flatten_of_mem (List.mem_map_of_mem he)).length_le
  rw [LogEntry.length_encode] at hentry
  rw [AppendEntriesArgs.encode, List.length_append]
  omega

theorem RequestVoteReply.encode_eq (r : RequestVoteReply) :
    r.encode = r.encodeWith (if r.voteGranted then 1 else 0) := by
  rw [RequestVoteReply.encode, RequestVoteReply.encodeWith]
  cases r.voteGranted with
  | _ => rfl

theorem AppendEntriesReply.encode_eq (r : AppendEntriesReply) :
    r.encode = r.encodeWith (if r.success then 1 else 0) := by
  rw [AppendEntriesReply.encode, AppendEntriesReply.encodeWith]
  cases r.success with
  | _ => rfl

/-- The flag is the tenth byte. -/
theorem RequestVoteReply.encodeWith_eq_set (r : RequestVoteReply) (flag : UInt8) :
    r.encodeWith flag = r.encode.set 9 flag := by
  rw [r.encode_eq]
  rfl

theorem AppendEntriesReply.encodeWith_eq_set (r : AppendEntriesReply) (flag : UInt8) :
    r.encodeWith flag = r.encode.set 9 flag := by
  rw [r.encode_eq]
  rfl

/-- A flag byte is the one that is written, or the flag is true and the byte is any
other than zero. -/
theorem flag_cases {flag : UInt8} {b : Bool} (hflag : flag ≠ 0 ↔ b = true) :
    flag = (if b then 1 else 0) ∨ b = true ∧ flag ≠ 0 := by
  cases b with
  | false => exact Or.inl (by simpa using hflag)
  | true => exact Or.inr ⟨rfl, hflag.mpr rfl⟩

theorem flag_written (b : Bool) : (if b then 1 else 0 : UInt8) ≠ 0 ↔ b = true := by
  cases b with
  | false => decide
  | true => decide

/-- What is encoded is decoded, and nothing else is; only a true flag of a reply may
have been written as another byte. -/
theorem codecs_exact :
    ((∀ a : AppendEntriesArgs, a.Ranged → AppendEntriesArgs.decode a.encode = some a) ∧
      ∀ b a, AppendEntriesArgs.decode b = some a → a.encode = b) ∧
    ((∀ a : RequestVoteArgs, a.Ranged → RequestVoteArgs.decode a.encode = some a) ∧
      ∀ b a, RequestVoteArgs.decode b = some a → a.encode = b) ∧
    ((∀ cmd : Command, cmd.Ranged → Command.decode cmd.encode = some cmd) ∧
      ∀ b cmd, Command.decode b = some cmd → cmd.encode = b) ∧
    ((∀ r : RequestVoteReply, r.term < 2 ^ 64 → RequestVoteReply.decode r.encode = some r) ∧
      ∀ b r, RequestVoteReply.decode b = some r → b = r.encode ∨
        r.voteGranted = true ∧ ∃ flag : UInt8, flag ≠ 0 ∧ b = r.encode.set 9 flag) ∧
    (∀ r : AppendEntriesReply, r.Ranged → AppendEntriesReply.decode r.encode = some r) ∧
      ∀ b r, AppendEntriesReply.decode b = some r → b = r.encode ∨
        r.success = true ∧ ∃ flag : UInt8, flag ≠ 0 ∧ b = r.encode.set 9 flag := by
  refine ⟨⟨?_, ?_⟩, ⟨?_, ?_⟩, ⟨?_, ?_⟩, ⟨?_, ?_⟩, ?_, ?_⟩
  · intro a ha
    exact AppendEntriesArgs.decode_eq_some.mpr ⟨rfl, ha⟩
  · intro b a h
    exact (AppendEntriesArgs.decode_eq_some.mp h).1.symm
  · intro a ha
    exact RequestVoteArgs.decode_eq_some.mpr ⟨rfl, ha⟩
  · intro b a h
    exact (RequestVoteArgs.decode_eq_some.mp h).1.symm
  · intro cmd hcmd
    exact Command.decode_eq_some.mpr ⟨rfl, hcmd⟩
  · intro b cmd h
    exact (Command.decode_eq_some.mp h).1.symm
  · intro r hr
    exact RequestVoteReply.decode_eq_some.mpr ⟨hr, _, flag_written r.voteGranted, r.encode_eq⟩
  · intro b r h
    obtain ⟨-, flag, hflag, rfl⟩ := RequestVoteReply.decode_eq_some.mp h
    rcases flag_cases hflag with rfl | ⟨hgranted, hne⟩
    · exact Or.inl r.encode_eq.symm
    · exact Or.inr ⟨hgranted, flag, hne, r.encodeWith_eq_set flag⟩
  · intro r hr
    exact AppendEntriesReply.decode_eq_some.mpr ⟨hr, _, flag_written r.success, r.encode_eq⟩
  · intro b r h
    obtain ⟨-, flag, hflag, rfl⟩ := AppendEntriesReply.decode_eq_some.mp h
    rcases flag_cases hflag with rfl | ⟨hsuccess, hne⟩
    · exact Or.inl r.encode_eq.symm
    · exact Or.inr ⟨hsuccess, flag, hne, r.encodeWith_eq_set flag⟩

/-- A request with a no-op and a command. -/
def sampleRequest : AppendEntriesArgs :=
  ⟨3, 1, 4, 2, 4, [⟨3, []⟩, ⟨3, [2, 0, 0, 0, 1, 107, 0, 0, 0, 0]⟩]⟩

/-- A vote that is granted with the byte 2. -/
def sampleVote : Bytes := [2, 0, 0, 0, 0, 0, 0, 0, 5, 2]

theorem codecs_exact_samples :
    (sampleRequest.Ranged ∧
      AppendEntriesArgs.decode sampleRequest.encode = some sampleRequest) ∧
    RequestVoteReply.decode sampleVote = some ⟨5, true⟩ ∧
    (sampleVote = RequestVoteReply.encode ⟨5, true⟩ ∨ true = true ∧
      ∃ flag : UInt8, flag ≠ 0 ∧
        sampleVote = (RequestVoteReply.encode ⟨5, true⟩).set 9 flag) := by
  obtain ⟨⟨happend, -⟩, -, -, ⟨-, hvote⟩, -⟩ := codecs_exact
  have hranged : sampleRequest.Ranged := by
    simp [sampleRequest, AppendEntriesArgs.Ranged, LogEntry.Ranged]
  have hdecode : RequestVoteReply.decode sampleVote = some ⟨5, true⟩ := by decide
  exact ⟨⟨hranged, happend _ hranged⟩, hdecode, hvote _ _ hdecode⟩

end Dkvs
