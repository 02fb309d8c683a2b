import Dkvs.Storage.Recovery

/-!
# The storage object is a durable list

Whatever is appended, cut off and reloaded, the log file consists of the records
of the entries in memory, and the offsets, the size and the position of the
descriptor fit it. A process that dies while it appends a record loses that
record and nothing else.
-/

namespace Dkvs

open RecordLog

/-- An entry whose record is written and read without wrapping. -/
def LogEntry.Fits (e : LogEntry) : Prop := e.term < 2 ^ 64 ∧ e.command.length < 2 ^ 32 - 20

theorem LogEntry.Fits.spec {e : LogEntry} (he : e.Fits) :
    e.Recordable ∧ e.record.length < 2 ^ 32 := by
  have hterm := he.1
  have hcmd := he.2
  have hlen := e.length_record
  have henc := e.length_encode
  exact ⟨⟨hterm, by omega⟩, by omega⟩

theorem readRecord_torn {e : LogEntry} (he : e.Fits) {k : ℕ} (hk : k < e.record.length) :
    readRecord (e.record.take k) 0 = .torn := by
  obtain ⟨hrec, hsize⟩ := he.spec
  have hlen := e.length_record
  have henc := e.length_encode
  have htake : (e.record.take k).length = k := by
    rw [List.length_take]
    omega
  have hannounced : 4 ≤ k → bigEndian ((e.record.take k).take 4) = e.encode.length := by
    intro hfour
    rw [List.take_take, min_eq_left hfour, hrec.record_eq, List.append_assoc,
      List.take_left' (Encoder.length_u32 _), Encoder.u32_eq]
    exact bigEndian_toBigEndian (by have := hrec.2; omega)
  have hmod : (4 + e.encode.length + 4) % 2 ^ 32 = e.record.length := by
    rw [Nat.mod_eq_of_lt (by omega)]
    omega
  rcases readRecord_cases (e.record.take k) with ⟨htorn, -⟩ | ⟨-, hfour, hle, -⟩ | ⟨-, hle, hin⟩
  · exact htorn
  · rw [hannounced (by omega), hmod] at hle
    omega
  · rw [hannounced (by omega), hmod] at hle
    omega

theorem writeAt_length (file data : Bytes) : writeAt file file.length data = file ++ data := by
  simp [writeAt]

theorem ftruncate_isPrefix {front file : Bytes} (hpre : front <+: file) :
    ftruncate file front.length = front := by
  obtain ⟨tail, rfl⟩ := hpre
  simp [ftruncate]

/-! ## The meta file -/

theorem toInt32_range (x : ℕ) : -2 ^ 31 ≤ toInt32 x ∧ toInt32 x < 2 ^ 31 := by
  unfold toInt32
  split_ifs with hsign
  · omega
  · omega

theorem toInt32_toUInt32 {v : ℤ} (hlow : -2 ^ 31 ≤ v) (hhigh : v < 2 ^ 31) :
    toInt32 (toUInt32 v) = v := by
  unfold toInt32 toUInt32
  split_ifs with hsign
  · omega
  · omega

theorem decodeMeta_encodeMeta {term : ℕ} {voted : ℤ} (hterm : term < 2 ^ 64)
    (hlow : -2 ^ 31 ≤ voted) (hhigh : voted < 2 ^ 31) :
    decodeMeta (encodeMeta term voted) = some (term, voted) := by
  have hmagic : kMetaMagic.length = 8 := rfl
  have hpay : (metaPayload term voted).length = 20 := by simp [metaPayload, hmagic]
  have hlen : (encodeMeta term voted).length = 24 := by simp [encodeMeta, hpay]
  have hfront : (encodeMeta term voted).take kMetaMagic.length = kMetaMagic := by
    rw [encodeMeta, metaPayload, List.append_assoc, List.take_left]
  have hpayload : (encodeMeta term voted).take ((encodeMeta term voted).length - 4) =
      metaPayload term voted := by
    rw [hlen, encodeMeta, List.take_left' (by omega)]
  have htail : (encodeMeta term voted).drop ((encodeMeta term voted).length - 4) =
      Encoder.u32 (crc32 (metaPayload term voted)) := by
    rw [hlen, encodeMeta, List.drop_left' (by omega)]
  have hbody : ((encodeMeta term voted).drop kMetaMagic.length).take
      ((encodeMeta term voted).length - kMetaMagic.length - 4) =
        Encoder.u64 term ++ Encoder.u32 (toUInt32 voted) := by
    rw [hlen, encodeMeta, metaPayload, List.append_assoc, List.drop_left, hmagic,
      List.take_left' (by simp)]
  have hcrc : (⟨Encoder.u32 (crc32 (metaPayload term voted))⟩ : Decoder).u32 =
      (some (crc32 (metaPayload term voted)), ⟨[]⟩) := by
    rw [Decoder.u32_eq_some]
    exact ⟨by simp, crc32_lt _⟩
  have hread : (⟨Encoder.u64 term ++ Encoder.u32 (toUInt32 voted)⟩ : Decoder).u64 =
      (some term, ⟨Encoder.u32 (toUInt32 voted)⟩) := by
    rw [Decoder.u64_eq_some]
    exact ⟨rfl, hterm⟩
  have hvote : (⟨Encoder.u32 (toUInt32 voted)⟩ : Decoder).u32 = (some (toUInt32 voted), ⟨[]⟩) := by
    rw [Decoder.u32_eq_some]
    refine ⟨by simp, ?_⟩
    unfold toUInt32
    omega
  have hsize : kMetaMagic.length + 4 < (encodeMeta term voted).length := by omega
  unfold decodeMeta
  rw [if_pos ⟨hsize, hfront⟩]
  simp only [hpayload, htail, hbody, hcrc, hread, hvote, if_true, Decoder.done, List.isEmpty_nil,
    toInt32_toUInt32 hlow hhigh]

/-! ## The invariant of the storage object -/

namespace Storage

theorem truncateFrom_entries (s : Storage) (fromIndex : ℕ) :
    (s.truncateFrom fromIndex).entries =
      if fromIndex < 1 ∨ s.entries.length < fromIndex then s.entries
      else s.entries.take (fromIndex - 1) := by
  unfold truncateFrom
  split_ifs with hout
  · rfl
  · rfl

/-- What is in memory is what a process that loads the files would find. -/
structure WellFormed (s : Storage) : Prop where
  fits : ∀ e ∈ s.entries, e.Fits
  wal : s.dir.wal = walCode.concat s.entries
  offsets : s.offsets = walCode.starts s.entries
  walSize : s.walSize = s.dir.wal.length
  walPos : s.walPos = s.dir.wal.length
  metaFile : readMeta s.dir = some (s.currentTerm, s.votedFor)
  term : s.currentTerm < 2 ^ 64

namespace WellFormed

variable {s : Storage} {e : LogEntry}

theorem written (hs : s.WellFormed) (e : LogEntry) (k : ℕ) :
    s.written e k = { s.dir with wal := walCode.concat s.entries ++ e.record.take k } := by
  rw [Storage.written, hs.walPos, writeAt_length, hs.wal]

theorem append (hs : s.WellFormed) (he : e.Fits) : (s.append e).WellFormed where
  fits x hx := by
    rcases List.mem_append.mp hx with hx | hx
    · exact hs.fits x hx
    · exact List.mem_singleton.mp hx ▸ he
  wal := by
    rw [Storage.append, hs.written, List.take_length, PrefixCode.concat_append,
      PrefixCode.concat_cons, PrefixCode.concat_nil, List.append_nil]
    rfl
  offsets := by
    rw [Storage.append, hs.offsets, hs.walSize, hs.wal, PrefixCode.starts_concat]
  walSize := by
    rw [Storage.append, hs.written, hs.walSize, hs.wal, List.take_length, List.length_append]
  walPos := by
    rw [Storage.append, hs.written, hs.walPos, hs.wal, List.take_length, List.length_append]
  metaFile := hs.metaFile
  term := hs.term

theorem truncateFrom (hs : s.WellFormed) (fromIndex : ℕ) :
    (s.truncateFrom fromIndex).WellFormed := by
  unfold Storage.truncateFrom
  split_ifs with hout
  · exact hs
  · have hin : fromIndex - 1 < s.entries.length := by omega
    have hoffset : s.offsets.getD (fromIndex - 1) 0 =
        (walCode.concat (s.entries.take (fromIndex - 1))).length := by
      rw [hs.offsets, List.getD_eq_getElem?_getD, PrefixCode.getElem?_starts _ hin,
        Option.getD_some]
    have hcut : ftruncate s.dir.wal (s.offsets.getD (fromIndex - 1) 0) =
        walCode.concat (s.entries.take (fromIndex - 1)) := by
      rw [hoffset, hs.wal]
      exact ftruncate_isPrefix (walCode.concat_isPrefix (List.take_prefix _ _))
    have hsize := hoffset.trans (congrArg List.length hcut).symm
    refine ⟨fun x hx ↦ hs.fits x (List.mem_of_mem_take hx), hcut, ?_, hsize, hsize, hs.metaFile,
      hs.term⟩
    rw [hs.offsets, PrefixCode.take_starts]

theorem saveMeta (hs : s.WellFormed) {currentTerm : ℕ} {votedFor : ℤ}
    (hterm : currentTerm < 2 ^ 64) (hlow : -2 ^ 31 ≤ votedFor) (hhigh : votedFor < 2 ^ 31) :
    (s.saveMeta currentTerm votedFor).WellFormed :=
  { hs with metaFile := decodeMeta_encodeMeta hterm hlow hhigh, term := hterm }

theorem load_eq_self (hs : s.WellFormed) {dir : Directory} {rest : Bytes}
    (hdir : dir = { s.dir with wal := walCode.concat s.entries ++ rest })
    (hrest : readRecord rest 0 = .torn) : load dir = .ok s := by
  have hread : readMeta dir = some (s.currentTerm, s.votedFor) := by
    rw [hdir]
    exact hs.metaFile
  have hwal : dir.wal = walCode.concat s.entries ++ rest := by rw [hdir]
  rw [load_eq hread, loadWal_eq hwal (fun x hx ↦ (hs.fits x hx).spec) hrest, hdir]
  obtain ⟨dir', currentTerm, votedFor, entries, offsets, walSize, walPos⟩ := s
  simp only [LoadResult.ok.injEq, mk.injEq, true_and]
  refine ⟨?_, hs.offsets.symm, ?_, ?_⟩
  · rw [← hs.wal]
  · rw [← hs.wal]
    exact hs.walSize.symm
  · rw [← hs.wal]
    exact hs.walPos.symm

/-- A process that restarts finds what the object held. -/
theorem load (hs : s.WellFormed) : load s.dir = .ok s := by
  refine hs.load_eq_self ?_ (show readRecord [] 0 = .torn by decide)
  rw [List.append_nil, ← hs.wal]

/-- So does a process that restarts after it died in the middle of an `append`. -/
theorem load_written (hs : s.WellFormed) (he : e.Fits) {k : ℕ} (hk : k < e.record.length) :
    Storage.load (s.written e k) = .ok s :=
  hs.load_eq_self (hs.written e k) (readRecord_torn he hk)

end WellFormed

theorem exists_load_empty : ∃ s, load Directory.empty = .ok s ∧ s.entries = [] ∧ s.WellFormed := by
  refine ⟨_, rfl, rfl, ?_⟩
  constructor <;> simp [readMeta, Directory.empty]

end Storage

/-! ## Any sequence of calls -/

inductive StorageCall where
  | saveMeta (currentTerm : ℕ) (votedFor : ℤ)
  | append (e : LogEntry)
  | truncateFrom (fromIndex : ℕ)
  | reload
  /-- The process dies after `k` bytes of the record were written, and restarts. -/
  | tornAppend (e : LogEntry) (k : ℕ)
  deriving DecidableEq, Repr

namespace StorageCall

def Fits : StorageCall → Prop
  | .saveMeta currentTerm votedFor =>
      currentTerm < 2 ^ 64 ∧ -2 ^ 31 ≤ votedFor ∧ votedFor < 2 ^ 31
  | .append e => e.Fits
  | .tornAppend e k => e.Fits ∧ k < e.record.length
  | .truncateFrom _ | .reload => True

/-- What a call does to the list of entries that the object stands for. -/
def spec (entries : List LogEntry) : StorageCall → List LogEntry
  | .append e => entries ++ [e]
  | .truncateFrom fromIndex =>
      if fromIndex < 1 ∨ entries.length < fromIndex then entries
      else entries.take (fromIndex - 1)
  | .saveMeta _ _ | .reload | .tornAppend _ _ => entries

end StorageCall

namespace Storage

def call (s : Storage) : StorageCall → LoadResult
  | .saveMeta currentTerm votedFor => .ok (s.saveMeta currentTerm votedFor)
  | .append e => .ok (s.append e)
  | .truncateFrom fromIndex => .ok (s.truncateFrom fromIndex)
  | .reload => load s.dir
  | .tornAppend e k => load (s.written e k)

def callAll (s : Storage) : List StorageCall → LoadResult
  | [] => .ok s
  | call :: calls =>
      match s.call call with
      | .ok s' => s'.callAll calls
      | failure => failure

/-- The calls on a directory that is empty at the start. -/
def start (calls : List StorageCall) : LoadResult :=
  match load Directory.empty with
  | .ok s => s.callAll calls
  | failure => failure

theorem WellFormed.call {s : Storage} (hs : s.WellFormed) {call : StorageCall}
    (hcall : call.Fits) :
    ∃ s', s.call call = .ok s' ∧ s'.entries = call.spec s.entries ∧ s'.WellFormed := by
  cases call with
  | saveMeta currentTerm votedFor =>
      exact ⟨_, rfl, rfl, hs.saveMeta hcall.1 hcall.2.1 hcall.2.2⟩
  | append e => exact ⟨_, rfl, rfl, hs.append hcall⟩
  | truncateFrom fromIndex =>
      exact ⟨_, rfl, s.truncateFrom_entries fromIndex, hs.truncateFrom fromIndex⟩
  | reload => exact ⟨s, hs.load, rfl, hs⟩
  | tornAppend e k => exact ⟨s, hs.load_written hcall.1 hcall.2, rfl, hs⟩

theorem WellFormed.callAll {s : Storage} (hs : s.WellFormed) {calls : List StorageCall}
    (hcalls : ∀ call ∈ calls, call.Fits) :
    ∃ s', s.callAll calls = .ok s' ∧ s'.entries = calls.foldl StorageCall.spec s.entries ∧
      s'.WellFormed := by
  induction calls generalizing s with
  | nil => exact ⟨s, rfl, rfl, hs⟩
  | cons call calls ih =>
      obtain ⟨s₁, hstep, hentries, hs₁⟩ := hs.call (hcalls call (by simp))
      obtain ⟨s₂, hrest, hfinal, hs₂⟩ := ih hs₁ fun x hx ↦ hcalls x (by simp [hx])
      refine ⟨s₂, ?_, ?_, hs₂⟩
      · rw [Storage.callAll, hstep]
        exact hrest
      · rw [hfinal, hentries, List.foldl_cons]

theorem WellFormed.appendAll {s : Storage} (hs : s.WellFormed) {es : List LogEntry}
    (hes : ∀ e ∈ es, e.Fits) :
    (es.foldl Storage.append s).WellFormed ∧
      (es.foldl Storage.append s).entries = s.entries ++ es := by
  induction es generalizing s with
  | nil => exact ⟨hs, by simp⟩
  | cons e es ih =>
      obtain ⟨hfinal, hentries⟩ := ih (hs.append (hes e (by simp))) fun x hx ↦ hes x (by simp [hx])
      refine ⟨hfinal, ?_⟩
      rw [List.foldl_cons, hentries, Storage.append, List.append_assoc, List.singleton_append]

end Storage

/-- Every sequence of calls succeeds and leaves the object and the files in step
with the list of entries; an `append` that is cut off leaves that list as it was,
and what is appended after the recovery is there at the next one. -/
theorem storage_refines_list {calls : List StorageCall} (hcalls : ∀ call ∈ calls, call.Fits) :
    ∃ s, Storage.start calls = .ok s ∧ s.entries = calls.foldl StorageCall.spec [] ∧
      s.dir.wal = s.entries.flatMap LogEntry.record ∧ s.offsets.length = s.entries.length ∧
      (∀ k < s.entries.length,
        s.offsets[k]? = some ((s.entries.take k).flatMap LogEntry.record).length) ∧
      s.walSize = s.dir.wal.length ∧ s.walPos = s.dir.wal.length ∧
      ∀ {e : LogEntry} {k : ℕ}, e.Fits → k < e.record.length →
        ∃ s', Storage.load (s.written e k) = .ok s' ∧ s'.entries = s.entries ∧
          ∀ {es : List LogEntry}, (∀ x ∈ es, x.Fits) →
            ∃ s'', Storage.load (es.foldl Storage.append s').dir = .ok s'' ∧
              s''.entries = s.entries ++ es := by
  obtain ⟨s₀, hload, hnil, hs₀⟩ := Storage.exists_load_empty
  obtain ⟨s, hrun, hentries, hs⟩ := hs₀.callAll hcalls
  refine ⟨s, ?_, ?_, hs.wal, ?_, fun k hk ↦ ?_, hs.walSize, hs.walPos, fun {e k} he hk ↦ ?_⟩
  · rw [Storage.start, hload]
    exact hrun
  · rw [hentries, hnil]
  · rw [hs.offsets, PrefixCode.length_starts]
  · rw [hs.offsets]
    exact walCode.getElem?_starts hk
  · refine ⟨s, hs.load_written he hk, rfl, fun {es} hes ↦ ?_⟩
    obtain ⟨hfinal, happended⟩ := hs.appendAll hes
    exact ⟨_, hfinal.load, happended⟩

/-- Two entries, a cut at the second one, a death in the middle of another
`append`, a restart and one more entry. -/
theorem storage_refines_list_cut :
    ∃ s, Storage.start [.append ⟨1, [7]⟩, .append ⟨1, [8]⟩, .truncateFrom 2,
        .tornAppend ⟨2, [9]⟩ 5, .append ⟨2, [10]⟩, .reload] = .ok s ∧
      s.entries = [⟨1, [7]⟩, ⟨2, [10]⟩] ∧
      ∃ s', Storage.load (s.written ⟨3, []⟩ 7) = .ok s' ∧ s'.entries = s.entries := by
  have hcalls : ∀ call ∈ [StorageCall.append ⟨1, [7]⟩, .append ⟨1, [8]⟩, .truncateFrom 2,
      .tornAppend ⟨2, [9]⟩ 5, .append ⟨2, [10]⟩, .reload], call.Fits := by
    simp [StorageCall.Fits, LogEntry.Fits, LogEntry.length_record]
  obtain ⟨s, hrun, hentries, -, -, -, -, -, htorn⟩ := storage_refines_list hcalls
  obtain ⟨s', hload, hsame, -⟩ := htorn (e := ⟨3, []⟩) (k := 7) (by simp [LogEntry.Fits])
    (by simp [LogEntry.length_record])
  exact ⟨s, hrun, hentries, s', hload, hsame⟩

end Dkvs
