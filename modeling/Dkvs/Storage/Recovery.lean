import Dkvs.Storage.Files

/-!
# Recovery of the log

The records of log entries form a prefix code, so every file has a longest
readable beginning. The scan finds it, unless what follows announces a length so
close to `2 ^ 32` that the sum of the header, payload and checksum sizes wraps;
the check against the size of the file then passes, and the checksum is looked
for beyond the end.
-/

namespace Dkvs

open RecordLog

theorem LogEntry.length_record (e : LogEntry) : e.record.length = 20 + e.command.length := by
  rw [LogEntry.record, List.length_append, List.length_append, Encoder.length_u32,
    Encoder.length_u32, LogEntry.length_encode]
  omega

/-- The entry has a 64-bit term, and its payload length is a 32-bit number. -/
def LogEntry.Recordable (e : LogEntry) : Prop := e.term < 2 ^ 64 ∧ e.encode.length < 2 ^ 32

theorem LogEntry.Recordable.command_lt {e : LogEntry} (he : e.Recordable) :
    e.command.length < 2 ^ 32 := by
  have hlt := he.2
  rw [LogEntry.length_encode] at hlt
  omega

theorem LogEntry.Recordable.record_eq {e : LogEntry} (he : e.Recordable) :
    e.record = Encoder.u32 e.encode.length ++ e.encode ++ Encoder.u32 (crc32 e.encode) := by
  rw [LogEntry.record, Nat.mod_eq_of_lt he.2]

theorem Encoder.u32_injective {v v' : ℕ} (hv : v < 2 ^ 32) (hv' : v' < 2 ^ 32)
    (h : Encoder.u32 v = Encoder.u32 v') : v = v' := by
  rw [Encoder.u32_eq, Encoder.u32_eq] at h
  rw [← bigEndian_toBigEndian (n := 4) (v := v) (by omega), h, bigEndian_toBigEndian (by omega)]

theorem LogEntry.encode_injective {e e' : LogEntry} (he : e.Recordable) (he' : e'.Recordable)
    (h : e.encode = e'.encode) : e = e' := by
  have hread : (⟨e.encode⟩ : Decoder).entry = some (e, ⟨[]⟩) := by
    rw [Decoder.entry_eq_some]
    exact ⟨by simp, he.1, he.command_lt⟩
  have hread' : (⟨e.encode⟩ : Decoder).entry = some (e', ⟨[]⟩) := by
    rw [Decoder.entry_eq_some]
    exact ⟨by simp [h], he'.1, he'.command_lt⟩
  rw [hread] at hread'
  simpa using hread'

theorem LogEntry.record_prefix_free {e e' : LogEntry} (he : e.Recordable) (he' : e'.Recordable)
    (hpre : e.record <+: e'.record) : e = e' := by
  rw [he.record_eq, he'.record_eq, List.append_assoc, List.append_assoc] at hpre
  obtain ⟨tail, heq⟩ := hpre
  rw [List.append_assoc, List.append_assoc] at heq
  obtain ⟨hhead, hbody⟩ := List.append_inj heq rfl
  have hlen := Encoder.u32_injective he.2 he'.2 hhead
  exact LogEntry.encode_injective he he' (List.append_inj hbody hlen).1

/-- The code of the log file. -/
def walCode : PrefixCode LogEntry UInt8 where
  Valid := LogEntry.Recordable
  record := LogEntry.record
  ne_nil := fun {e} _ hnil ↦ by
    have hlen := e.length_record
    rw [hnil, List.length_nil] at hlen
    omega
  prefix_free := LogEntry.record_prefix_free

/-! ## One record -/

/-- What a record is read from does not depend on what comes before it. -/
theorem readRecord_append (front w : Bytes) :
    readRecord (front ++ w) front.length = readRecord w 0 := by
  have hdrop : ∀ k, (front ++ w).drop (front.length + k) = w.drop k := fun k ↦ by
    rw [← List.drop_drop, List.drop_left]
  have hsub : (front ++ w).length - front.length = w.length - 0 := by simp
  have hlt : ∀ k, (front ++ w).length < front.length + k ↔ w.length < k := fun k ↦ by
    rw [List.length_append]
    omega
  simp only [readRecord, readPayload, hsub, hlt, List.drop_left, Nat.add_assoc, hdrop, Nat.zero_add,
    List.drop_zero]

/-- A record that does not wrap is read back. -/
theorem readRecord_record {e : LogEntry} (he : e.Recordable) (hsize : e.record.length < 2 ^ 32)
    (rest : Bytes) : readRecord (e.record ++ rest) 0 = .entry e e.record.length := by
  have hlen := e.length_record
  have hpay := e.length_encode
  have hheader : (⟨e.record ++ rest⟩ : Decoder).u32 =
      (some e.encode.length, ⟨e.encode ++ Encoder.u32 (crc32 e.encode) ++ rest⟩) := by
    rw [Decoder.u32_eq_some, he.record_eq]
    exact ⟨by simp only [List.append_assoc], he.2⟩
  have hpayload : ((e.record ++ rest).drop 4).take e.encode.length = e.encode := by
    rw [he.record_eq]
    simp only [List.append_assoc]
    rw [List.drop_left' (Encoder.length_u32 _), List.take_left]
  have htail : ((e.record ++ rest).drop (4 + e.encode.length)).take 4 =
      Encoder.u32 (crc32 e.encode) := by
    rw [he.record_eq, ← List.drop_drop]
    simp only [List.append_assoc]
    rw [List.drop_left' (Encoder.length_u32 _), List.drop_left,
      List.take_left' (Encoder.length_u32 _)]
  have hcrc : (⟨Encoder.u32 (crc32 e.encode)⟩ : Decoder).u32 = (some (crc32 e.encode), ⟨[]⟩) := by
    rw [Decoder.u32_eq_some]
    exact ⟨by simp, crc32_lt _⟩
  have hentry : (⟨e.encode⟩ : Decoder).entry = some (e, ⟨[]⟩) := by
    rw [Decoder.entry_eq_some]
    exact ⟨by simp, he.1, he.command_lt⟩
  have hmod : (4 + e.encode.length + 4) % 2 ^ 32 = e.record.length := by
    rw [Nat.mod_eq_of_lt (by omega)]
    omega
  have hfits : ¬ (e.record ++ rest).length < e.record.length := by simp
  have hin : ¬ (e.record ++ rest).length < 4 + e.encode.length := by
    rw [List.length_append]
    omega
  simp only [readRecord, readPayload, List.drop_zero, Nat.zero_add, Nat.sub_zero, hheader, hmod,
    hfits, hin, hpayload, htail, hcrc, hentry, if_false, ne_eq, not_true_eq_false, Decoder.done,
    List.isEmpty_nil, if_true]

theorem readPayload_eq_entry {w : Bytes} {len size : ℕ} {e : LogEntry}
    (hread : readPayload w 0 len = .entry e size) :
    (w.drop 4).take len = e.encode ∧ e.term < 2 ^ 64 ∧ e.command.length < 2 ^ 32 ∧
      Encoder.u32 (crc32 e.encode) <+: w.drop (4 + len) ∧ size = (4 + len + 4) % 2 ^ 32 := by
  simp only [readPayload, Nat.zero_add] at hread
  rcases htail : (⟨(w.drop (4 + len)).take 4⟩ : Decoder).u32 with ⟨_ | storedCrc, d⟩
  · simp [htail] at hread
  · simp only [htail, ne_eq, ite_not] at hread
    split_ifs at hread with hcrc
    rcases hentry : (⟨(w.drop 4).take len⟩ : Decoder).entry with _ | ⟨e', dec⟩
    · simp [hentry] at hread
    · simp only [hentry] at hread
      split_ifs at hread with hdone
      obtain ⟨rfl, rfl⟩ := RecordRead.entry.inj hread
      obtain ⟨hpayload, hterm, hcmd⟩ := Decoder.entry_eq_some.mp hentry
      obtain ⟨hbytes, -⟩ := Decoder.u32_eq_some.mp htail
      have hnil : dec.rest = [] := by simpa [Decoder.done] using hdone
      rw [hnil, List.append_nil] at hpayload
      have hpre : Encoder.u32 storedCrc <+: (w.drop (4 + len)).take 4 := ⟨d.rest, hbytes.symm⟩
      refine ⟨hpayload, hterm, hcmd, ?_, rfl⟩
      rw [← hpayload, ← hcrc]
      exact hpre.trans (List.take_prefix _ _)

theorem readPayload_ne_outOfRange (w : Bytes) (len : ℕ) :
    readPayload w 0 len ≠ .outOfRange := by
  unfold readPayload
  dsimp only
  split
  · simp
  · split_ifs with hcrc
    · simp
    · split
      · split_ifs with hdone
        · simp
        · simp
      · simp

theorem Decoder.fst_u32 (d : Decoder) :
    d.u32.1 = if d.rest.length < 4 then none else some (bigEndian (d.rest.take 4)) := by
  unfold Decoder.u32 Decoder.uint
  split_ifs with hshort
  · rfl
  · rfl

/-- The three ways a round of the scan can go. -/
theorem readRecord_cases (w : Bytes) :
    let len := bigEndian (w.take 4)
    readRecord w 0 = .torn ∧ (w.length < 4 ∨ w.length < (4 + len + 4) % 2 ^ 32) ∨
      readRecord w 0 = .outOfRange ∧ 4 ≤ w.length ∧ (4 + len + 4) % 2 ^ 32 ≤ w.length ∧
        w.length < 4 + len ∨
      readRecord w 0 = readPayload w 0 len ∧ (4 + len + 4) % 2 ^ 32 ≤ w.length ∧
        4 + len ≤ w.length := by
  intro len
  unfold readRecord
  simp only [List.drop_zero, Decoder.fst_u32, Nat.sub_zero, Nat.zero_add]
  by_cases hshort : w.length < 4
  · exact Or.inl ⟨by rw [if_pos hshort], Or.inl hshort⟩
  · rw [if_neg hshort]
    by_cases hwrap : w.length < (4 + len + 4) % 2 ^ 32
    · exact Or.inl ⟨if_pos hwrap, Or.inr hwrap⟩
    · by_cases hout : w.length < 4 + len
      · refine Or.inr (Or.inl ⟨?_, not_lt.mp hshort, not_lt.mp hwrap, hout⟩)
        exact (if_neg hwrap).trans (if_pos hout)
      · refine Or.inr (Or.inr ⟨?_, not_lt.mp hwrap, not_lt.mp hout⟩)
        exact (if_neg hwrap).trans (if_neg hout)

/-- In a file of less than `2 ^ 32` bytes only records are read. -/
theorem readRecord_eq_entry {w : Bytes} (hw : w.length < 2 ^ 32) {e : LogEntry} {size : ℕ}
    (hread : readRecord w 0 = .entry e size) :
    e.Recordable ∧ e.record <+: w ∧ size = e.record.length := by
  rcases readRecord_cases w with ⟨htorn, -⟩ | ⟨hout, -⟩ | ⟨hpayload, -, hin⟩
  · simp [htorn] at hread
  · simp [hout] at hread
  · rw [hpayload] at hread
    obtain ⟨hencode, hterm, hcmd, hcrc, hsize⟩ := readPayload_eq_entry hread
    have hlength : e.encode.length = bigEndian (w.take 4) := by
      rw [← hencode, List.length_take, List.length_drop]
      omega
    have hrec : e.Recordable := ⟨hterm, by omega⟩
    have hpre : e.record <+: w := by
      have hhead : Encoder.u32 e.encode.length = w.take 4 := by
        have hback := toBigEndian_bigEndian (w.take 4)
        rw [List.length_take, min_eq_left (by omega)] at hback
        rw [Encoder.u32_eq, hlength, hback]
      obtain ⟨tail, htail⟩ := hcrc
      refine ⟨tail, ?_⟩
      calc e.record ++ tail
          = w.take 4 ++ ((w.drop 4).take e.encode.length ++ w.drop (4 + e.encode.length)) := by
            rw [hrec.record_eq, hhead, hlength, hencode, ← htail]
            simp only [List.append_assoc]
        _ = w := by rw [← List.drop_drop, List.take_append_drop, List.take_append_drop]
    have hle := hpre.length_le
    have hlen := e.length_record
    have henc := e.length_encode
    refine ⟨hrec, hpre, ?_⟩
    rw [hsize, Nat.mod_eq_of_lt (by omega)]
    omega

/-- The four bytes at position `p` announce a length for which the size check
wraps and passes, and the end of the payload is beyond the end of the file. -/
def Overruns (w : Bytes) (p : ℕ) : Prop :=
  let len := bigEndian ((w.drop p).take 4)
  4 ≤ w.length - p ∧ 2 ^ 32 - 8 ≤ len ∧ len + 8 - 2 ^ 32 ≤ w.length - p ∧ w.length < p + 4 + len

instance (w : Bytes) (p : ℕ) : Decidable (Overruns w p) :=
  inferInstanceAs (Decidable (_ ∧ _ ∧ _ ∧ _))

theorem overruns_append (front w : Bytes) :
    Overruns (front ++ w) front.length ↔ Overruns w 0 := by
  simp only [Overruns, List.drop_left, List.drop_zero, List.length_append, Nat.sub_zero,
    Nat.add_sub_cancel_left]
  omega

theorem readRecord_eq_outOfRange (w : Bytes) : readRecord w 0 = .outOfRange ↔ Overruns w 0 := by
  have hlt : bigEndian (w.take 4) < 2 ^ 32 := by
    calc bigEndian (w.take 4) < 256 ^ (w.take 4).length := bigEndian_lt _
      _ ≤ 256 ^ 4 := Nat.pow_le_pow_right (by omega) (List.length_take_le _ _)
      _ = 2 ^ 32 := by norm_num
  simp only [Overruns, List.drop_zero, Nat.sub_zero, Nat.zero_add]
  rcases readRecord_cases w with ⟨htorn, hcond⟩ | ⟨hout, hcond⟩ | ⟨hpayload, -, hin⟩
  · rw [htorn]
    simp only [reduceCtorEq, false_iff]
    omega
  · rw [hout]
    simp only [true_iff]
    omega
  · have hne := readPayload_ne_outOfRange w (bigEndian (w.take 4))
    rw [hpayload]
    simp only [hne, false_iff]
    omega

/-! ## The whole file -/

/-- The scan reads record after record, as long as none of them wraps. -/
theorem scan_records {w rest : Bytes} (before es : List LogEntry)
    (hw : w = walCode.concat (before ++ es) ++ rest)
    (hes : ∀ e ∈ es, e.Recordable ∧ e.record.length < 2 ^ 32) (fuel : ℕ) :
    scan w (es.length + fuel) (walCode.concat before).length (walCode.starts before) before =
      scan w fuel (walCode.concat (before ++ es)).length (walCode.starts (before ++ es))
        (before ++ es) := by
  induction es generalizing before with
  | nil => simp
  | cons e es ih =>
      obtain ⟨hrec, hsize⟩ := hes e (by simp)
      have hlen := e.length_record
      have hsplit : w = walCode.concat before ++ (e.record ++ (walCode.concat es ++ rest)) := by
        rw [hw, PrefixCode.concat_append, PrefixCode.concat_cons]
        simp only [List.append_assoc]
        rfl
      have hread : readRecord w (walCode.concat before).length = .entry e e.record.length := by
        rw [hsplit, readRecord_append]
        exact readRecord_record hrec hsize _
      have hin : (walCode.concat before).length < w.length := by
        rw [hsplit, List.length_append, List.length_append]
        omega
      have hpos : (walCode.concat before).length + e.record.length =
          (walCode.concat (before ++ [e])).length := by
        rw [PrefixCode.concat_append, List.length_append, PrefixCode.concat_cons,
          PrefixCode.concat_nil, List.append_nil]
        rfl
      have hnext := ih (before ++ [e]) (by simpa using hw) fun x hx ↦ hes x (by simp [hx])
      rw [List.length_cons, Nat.add_right_comm, scan, if_pos hin, hread]
      dsimp only
      rw [hpos, ← PrefixCode.starts_concat, hnext, List.append_assoc, List.singleton_append]

/-- A file of records that do not wrap, followed by something that no such record
begins. -/
theorem scan_eq {es : List LogEntry} {rest : Bytes}
    (hes : ∀ e ∈ es, e.Recordable ∧ e.record.length < 2 ^ 32)
    (hrest : ∀ e size, readRecord rest 0 ≠ .entry e size) :
    scan (walCode.concat es ++ rest) ((walCode.concat es ++ rest).length + 1) 0 [] [] =
      if readRecord rest 0 = .outOfRange then .outOfRange
      else .done (walCode.concat es).length (walCode.starts es) es := by
  have hle : es.length ≤ (walCode.concat es ++ rest).length := by
    have hcount := walCode.length_le_concat fun e he ↦ (hes e he).1
    rw [List.length_append]
    omega
  obtain ⟨fuel, hfuel⟩ := Nat.exists_eq_add_of_le hle
  have hscan := scan_records [] es (w := walCode.concat es ++ rest) rfl hes (fuel + 1)
  rw [PrefixCode.concat_nil, PrefixCode.starts_nil, List.nil_append, List.length_nil] at hscan
  have hread := readRecord_append (walCode.concat es) rest
  rw [hfuel, Nat.add_assoc, hscan, scan]
  split_ifs with hin hout
  · rw [hread, hout]
  · cases hcase : readRecord rest 0 with
    | entry e size => exact (hrest e size hcase).elim
    | torn => rw [hread, hcase]
    | outOfRange => exact (hout hcase).elim
  · rename_i hout
    have hnil : rest = [] := by
      rw [List.length_append] at hin
      exact List.eq_nil_of_length_eq_zero (by omega)
    rw [hnil] at hout
    exact absurd hout (by decide)
  · rfl

/-- Loading such a file cuts it to its records. -/
theorem Storage.loadWal_eq {dir : Directory} {es : List LogEntry} {rest : Bytes}
    (hwal : dir.wal = walCode.concat es ++ rest)
    (hes : ∀ e ∈ es, e.Recordable ∧ e.record.length < 2 ^ 32)
    (hrest : readRecord rest 0 = .torn) (currentTerm : ℕ) (votedFor : ℤ) :
    loadWal dir currentTerm votedFor =
      .ok ⟨{ dir with wal := walCode.concat es }, currentTerm, votedFor, es, walCode.starts es,
        (walCode.concat es).length, (walCode.concat es).length⟩ := by
  have hscan := scan_eq hes (show ∀ e size, readRecord rest 0 ≠ .entry e size by simp [hrest])
  rw [loadWal, hwal, hscan, hrest]
  simp only [reduceCtorEq, if_false]
  split_ifs with hcut
  · rw [ftruncate, List.take_left, List.length_append]
    simp
  · have hnil : rest = [] := by
      rw [List.length_append] at hcut
      exact List.eq_nil_of_length_eq_zero (by omega)
    rw [hnil, List.append_nil]

theorem Storage.load_eq {dir : Directory} {currentTerm : ℕ} {votedFor : ℤ}
    (hmeta : readMeta dir = some (currentTerm, votedFor)) :
    load dir = loadWal dir currentTerm votedFor := by
  rw [load, hmeta]

/-- The directory loads, and the entries are exactly what the longest readable
beginning of the log holds. -/
def Recovers (dir : Directory) : Prop :=
  ∃ s, Storage.load dir = .ok s ∧ walCode.Longest dir.wal s.entries ∧
    s.offsets = walCode.starts s.entries ∧ s.dir.wal = walCode.concat s.entries

/-- A log of less than `2 ^ 32` bytes is recovered exactly when its readable part
is not followed by an overrun. -/
theorem recovers_iff {dir : Directory} (hsize : dir.wal.length < 2 ^ 32)
    (hmeta : (Storage.readMeta dir).isSome) :
    Recovers dir ↔ ∀ es, walCode.Longest dir.wal es →
      ¬ Overruns dir.wal (walCode.concat es).length := by
  obtain ⟨es, rest, hvalid, hwal, hstuck⟩ := walCode.exists_stuck dir.wal
  obtain ⟨⟨currentTerm, votedFor⟩, hread⟩ := Option.isSome_iff_exists.mp hmeta
  have hload := Storage.load_eq hread
  have hlongest : walCode.Longest dir.wal es := by
    rw [hwal]
    exact .of_stuck hvalid hstuck
  have hlength := congrArg List.length hwal
  rw [List.length_append] at hlength
  have hes : ∀ e ∈ es, e.Recordable ∧ e.record.length < 2 ^ 32 := by
    intro e he
    have hle : e.record.length ≤ (walCode.concat es).length := walCode.length_record_le he
    exact ⟨hvalid e he, by omega⟩
  have hrest : ∀ e size, readRecord rest 0 ≠ .entry e size := by
    intro e size hread
    obtain ⟨hrec, hpre, -⟩ := readRecord_eq_entry (by omega) hread
    exact hstuck e hrec hpre
  have hover : Overruns dir.wal (walCode.concat es).length ↔ readRecord rest 0 = .outOfRange := by
    rw [hwal, overruns_append, readRecord_eq_outOfRange]
  constructor
  · rintro ⟨s, hok, -⟩ es' hlongest' hoverruns
    rw [hlongest'.unique hlongest, hover] at hoverruns
    rw [hload, Storage.loadWal, hwal, scan_eq hes hrest, if_pos hoverruns] at hok
    simp at hok
  · intro hclear
    have hout := hclear es hlongest
    rw [hover] at hout
    have htorn : readRecord rest 0 = .torn := by
      cases hcase : readRecord rest 0 with
      | entry e size => exact (hrest e size hcase).elim
      | torn => rfl
      | outOfRange => exact (hout hcase).elim
    exact ⟨_, hload.trans (Storage.loadWal_eq hwal hes htorn _ _), hlongest, rfl, rfl⟩

/-- A record and the first three bytes of the next one. -/
theorem recovers_iff_torn :
    Recovers ⟨none, walCode.concat [⟨1, []⟩] ++ (walCode.record ⟨1, []⟩).take 3⟩ := by
  refine (recovers_iff (by decide) rfl).mpr fun es hlongest ↦ ?_
  have hvalid : ∀ e ∈ [(⟨1, []⟩ : LogEntry)], walCode.Valid e := by
    simp [walCode, LogEntry.Recordable]
  obtain rfl := hlongest.unique (.of_torn hvalid (hvalid _ (by simp)) (by decide))
  decide

/-- Four bytes that announce a payload of `2 ^ 32 - 8` bytes. -/
theorem not_recovers :
    ¬ ∀ dir : Directory, dir.wal.length < 2 ^ 32 →
      (Storage.readMeta dir).isSome → Recovers dir := by
  intro hholds
  obtain ⟨s, hok, -⟩ := hholds ⟨none, [0xFF, 0xFF, 0xFF, 0xF8]⟩ (by decide) rfl
  have hload : Storage.load ⟨none, [0xFF, 0xFF, 0xFF, 0xF8]⟩ = .outOfRange := by
    decide
  rw [hload] at hok
  simp at hok

end Dkvs
