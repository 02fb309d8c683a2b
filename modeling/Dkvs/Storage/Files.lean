import Dkvs.RecordLog
import Dkvs.RaftNode

/-!
# The two files of a node

The storage object keeps the current term and vote in the file `meta`, which is
replaced as a whole by a rename, and the log in the file `wal`, which is written
through one open descriptor. Beside the entries it keeps the offset of every
record and the size of the file, and the descriptor has a position of its own.
-/

namespace Dkvs

/-- The content of a storage directory. Opening the log creates it if it is not
there, so a missing log is an empty one. -/
structure Directory where
  metaFile : Option Bytes
  wal : Bytes
  deriving DecidableEq, Repr

def Directory.empty : Directory := ⟨none, []⟩

/-- `write(2)` at a position of a file; a gap is filled with zeros. -/
def writeAt (file : Bytes) (pos : ℕ) (data : Bytes) : Bytes :=
  file.take pos ++ List.replicate (pos - file.length) 0 ++ data ++ file.drop (pos + data.length)

/-- `ftruncate(2)`. -/
def ftruncate (file : Bytes) (size : ℕ) : Bytes :=
  file.take size ++ List.replicate (size - file.length) 0

/-! ## Records and the meta file -/

/-- `[u32 payload_len][payload][u32 crc32(payload)]`, as `append` writes it. -/
def LogEntry.record (e : LogEntry) : Bytes :=
  Encoder.u32 (e.encode.length % 2 ^ 32) ++ e.encode ++ Encoder.u32 (crc32 e.encode)

/-- The bytes of `DKVSMETA`. -/
def kMetaMagic : Bytes := [0x44, 0x4B, 0x56, 0x53, 0x4D, 0x45, 0x54, 0x41]

/-- `static_cast<uint32_t>` of a signed 32-bit value. -/
def toUInt32 (v : ℤ) : ℕ := (v % 2 ^ 32).toNat

def metaPayload (currentTerm : ℕ) (votedFor : ℤ) : Bytes :=
  kMetaMagic ++ (Encoder.u64 currentTerm ++ Encoder.u32 (toUInt32 votedFor))

/-- The content `writeMetaFile` gives the file. -/
def encodeMeta (currentTerm : ℕ) (votedFor : ℤ) : Bytes :=
  metaPayload currentTerm votedFor ++ Encoder.u32 (crc32 (metaPayload currentTerm votedFor))

/-- The term and the vote in a meta file, if it is intact. -/
def decodeMeta (raw : Bytes) : Option (ℕ × ℤ) :=
  if kMetaMagic.length + 4 < raw.length ∧ raw.take kMetaMagic.length = kMetaMagic then
    let payload := raw.take (raw.length - 4)
    let tail : Decoder := ⟨raw.drop (raw.length - 4)⟩
    match tail.u32.1 with
    | none => none
    | some storedCrc =>
        if storedCrc = crc32 payload then
          let dec : Decoder :=
            ⟨(raw.drop kMetaMagic.length).take (raw.length - kMetaMagic.length - 4)⟩
          let (term, dec) := dec.u64
          let (voted, dec) := dec.u32
          match term, voted with
          | some term, some voted => if dec.done then some (term, toInt32 voted) else none
          | _, _ => none
        else none
  else none

/-! ## The scan of the log -/

inductive RecordRead where
  | entry (e : LogEntry) (size : ℕ)
  /-- The record is torn or corrupt, and the scan ends. -/
  | torn
  /-- `substr` is called with a position beyond the end and throws. -/
  | outOfRange
  deriving DecidableEq, Repr

/-- The checksum and the content of a record whose payload has `len` bytes. -/
def readPayload (raw : Bytes) (pos len : ℕ) : RecordRead :=
  let payload := (raw.drop (pos + 4)).take len
  let tail : Decoder := ⟨(raw.drop (pos + 4 + len)).take 4⟩
  match tail.u32.1 with
  | none => .torn
  | some storedCrc =>
      if storedCrc ≠ crc32 payload then .torn
      else
        match (⟨payload⟩ : Decoder).entry with
        | some (e, dec) => if dec.done then .entry e ((4 + len + 4) % 2 ^ 32) else .torn
        | none => .torn

/-- One round of the scan. The announced size is computed in `uint32_t`, the
position of the checksum in `size_t`. -/
def readRecord (raw : Bytes) (pos : ℕ) : RecordRead :=
  let header : Decoder := ⟨raw.drop pos⟩
  match header.u32.1 with
  | none => .torn
  | some len =>
      if raw.length - pos < (4 + len + 4) % 2 ^ 32 then .torn
      else if raw.length < pos + 4 + len then .outOfRange
      else readPayload raw pos len

inductive ScanResult where
  | done (pos : ℕ) (offsets : List ℕ) (entries : List LogEntry)
  | outOfRange
  | outOfFuel
  deriving DecidableEq, Repr

/-- The loop of `load` over the log. -/
def scan (raw : Bytes) : ℕ → ℕ → List ℕ → List LogEntry → ScanResult
  | 0, _, _, _ => .outOfFuel
  | fuel + 1, pos, offsets, entries =>
      if pos < raw.length then
        match readRecord raw pos with
        | .torn => .done pos offsets entries
        | .outOfRange => .outOfRange
        | .entry e size => scan raw fuel (pos + size) (offsets ++ [pos]) (entries ++ [e])
      else .done pos offsets entries

/-! ## The storage object -/

structure Storage where
  dir : Directory
  currentTerm : ℕ
  votedFor : ℤ
  entries : List LogEntry
  offsets : List ℕ
  walSize : ℕ
  /-- The position of the open descriptor. -/
  walPos : ℕ
  deriving DecidableEq, Repr

inductive LoadResult where
  | ok (s : Storage)
  /-- `load` returns false. -/
  | failed
  | outOfRange
  | outOfFuel
  deriving DecidableEq, Repr

namespace Storage

/-- The log section of `load`: scan, cut the tail off, go to the end. -/
def loadWal (dir : Directory) (currentTerm : ℕ) (votedFor : ℤ) : LoadResult :=
  match scan dir.wal (dir.wal.length + 1) 0 [] [] with
  | .done pos offsets entries =>
      let wal := if pos ≠ dir.wal.length then ftruncate dir.wal pos else dir.wal
      .ok ⟨{ dir with wal }, currentTerm, votedFor, entries, offsets, pos, pos⟩
  | .outOfRange => .outOfRange
  | .outOfFuel => .outOfFuel

/-- The meta section of `load`. Without a file the object keeps its initial
values; `none` is a corrupt file. -/
def readMeta (dir : Directory) : Option (ℕ × ℤ) :=
  match dir.metaFile with
  | none => some (0, -1)
  | some raw => decodeMeta raw

def load (dir : Directory) : LoadResult :=
  match readMeta dir with
  | none => .failed
  | some (currentTerm, votedFor) => loadWal dir currentTerm votedFor

def saveMeta (s : Storage) (currentTerm : ℕ) (votedFor : ℤ) : Storage :=
  { s with
    currentTerm, votedFor
    dir := { s.dir with metaFile := some (encodeMeta currentTerm votedFor) } }

/-- The directory after the first `k` bytes of the record of `entry` were written. -/
def written (s : Storage) (entry : LogEntry) (k : ℕ) : Directory :=
  { s.dir with wal := writeAt s.dir.wal s.walPos (entry.record.take k) }

def append (s : Storage) (entry : LogEntry) : Storage :=
  { s with
    dir := s.written entry entry.record.length
    walPos := s.walPos + entry.record.length
    offsets := s.offsets ++ [s.walSize]
    walSize := s.walSize + entry.record.length
    entries := s.entries ++ [entry] }

def truncateFrom (s : Storage) (fromIndex : ℕ) : Storage :=
  if fromIndex < 1 ∨ s.entries.length < fromIndex then s
  else
    let offset := s.offsets.getD (fromIndex - 1) 0
    { s with
      dir := { s.dir with wal := ftruncate s.dir.wal offset }
      walPos := offset
      walSize := offset
      offsets := s.offsets.take (fromIndex - 1)
      entries := s.entries.take (fromIndex - 1) }

end Storage

end Dkvs
