import Dkvs.Checksum
import Dkvs.Storage.Refinement

/-!
# Damaged records

A record of the log is damaged in up to four bytes in a row of its payload, or in its
checksum. The length it announces is still the right one, so the scan reads the payload
against the checksum, finds that they do not belong together and keeps what came before.
-/

namespace Dkvs

/-- The record of `e` with some bytes of the payload or of the checksum changed. -/
inductive LogEntry.Damaged (e : LogEntry) : Bytes → Prop
  | payload {payload : Bytes} (hpayload : DifferWithin 4 e.encode payload) :
      e.Damaged (Encoder.u32 (e.encode.length % 2 ^ 32) ++ payload ++
        Encoder.u32 (crc32 e.encode))
  | checksum {crc : Bytes} (hlen : crc.length = 4) (hne : Encoder.u32 (crc32 e.encode) ≠ crc) :
      e.Damaged (Encoder.u32 (e.encode.length % 2 ^ 32) ++ e.encode ++ crc)

/-- A payload of the announced length with another checksum behind it. -/
theorem readRecord_mismatch {payload crc : Bytes} (hlen : payload.length + 8 < 2 ^ 32)
    (hfour : crc.length = 4) (hne : Encoder.u32 (crc32 payload) ≠ crc) (rest : Bytes) :
    readRecord (Encoder.u32 payload.length ++ payload ++ crc ++ rest) 0 = .torn := by
  obtain ⟨w, hw⟩ : ∃ w, w = Encoder.u32 payload.length ++ payload ++ crc ++ rest := ⟨_, rfl⟩
  rw [← hw]
  have hsplit : w = Encoder.u32 payload.length ++ (payload ++ (crc ++ rest)) := by
    rw [hw, List.append_assoc, List.append_assoc]
  have hdrop : w.drop 4 = payload ++ (crc ++ rest) := by
    rw [hsplit, List.drop_left' (Encoder.length_u32 _)]
  have hannounced : bigEndian (w.take 4) = payload.length := by
    rw [hsplit, List.take_left' (Encoder.length_u32 _), Encoder.u32_eq]
    exact bigEndian_toBigEndian (by omega)
  have hsize : w.length = 4 + (payload.length + (4 + rest.length)) := by
    rw [hsplit, List.length_append, List.length_append, List.length_append, Encoder.length_u32,
      hfour]
  have hcases := readRecord_cases w
  rw [hannounced] at hcases
  rcases hcases with ⟨htorn, -⟩ | ⟨-, -, -, hout⟩ | ⟨hread, -, -⟩
  · exact htorn
  · omega
  · rw [hread]
    cases hpayload : readPayload w 0 payload.length with
    | torn => rfl
    | outOfRange => exact absurd hpayload (readPayload_ne_outOfRange _ _)
    | entry e size =>
        obtain ⟨hencode, -, -, hcrc, -⟩ := readPayload_eq_entry hpayload
        rw [hdrop, List.take_left] at hencode
        rw [← List.drop_drop, hdrop, List.drop_left, ← hencode] at hcrc
        have hsame := List.prefix_of_prefix_length_le hcrc (List.prefix_append crc rest)
          (by rw [Encoder.length_u32, hfour])
        exact absurd (hsame.eq_of_length (by rw [Encoder.length_u32, hfour])) hne

theorem LogEntry.Damaged.readRecord_eq {e : LogEntry} (he : e.Fits) {bad : Bytes}
    (hbad : e.Damaged bad) (rest : Bytes) : readRecord (bad ++ rest) 0 = .torn := by
  have henc := e.length_encode
  have hcmd := he.2
  have hmod : e.encode.length % 2 ^ 32 = e.encode.length := Nat.mod_eq_of_lt (by omega)
  cases hbad with
  | payload hpayload =>
      have hlen := hpayload.length_eq
      rw [hmod, hlen]
      refine readRecord_mismatch (by omega) (Encoder.length_u32 _) ?_ rest
      intro hsame
      exact crc32_ne_of_differWithin hpayload
        (Encoder.u32_injective (crc32_lt _) (crc32_lt _) hsame).symm
  | checksum hlen hne =>
      rw [hmod]
      exact readRecord_mismatch (by omega) hlen hne rest

/-- A file with a damaged record is read up to that record. The payload is covered by the
checksum, which no change of up to four bytes in a row keeps. -/
theorem damage_detected {before after : List LogEntry} {e : LogEntry}
    (hfits : ∀ x ∈ before ++ e :: after, x.Fits) {bad : Bytes} (hbad : e.Damaged bad)
    {dir : Directory}
    (hwal : dir.wal = before.flatMap LogEntry.record ++ bad ++ after.flatMap LogEntry.record)
    (hmeta : (Storage.readMeta dir).isSome) :
    (∃ s, Storage.load dir = .ok s ∧ s.entries = before ∧
      s.dir.wal = before.flatMap LogEntry.record) ∧
    ∀ xs ys, DifferWithin 4 xs ys → crc32 xs ≠ crc32 ys := by
  refine ⟨?_, fun xs ys h ↦ crc32_ne_of_differWithin h⟩
  obtain ⟨⟨currentTerm, votedFor⟩, hread⟩ := Option.isSome_iff_exists.mp hmeta
  have hbefore : ∀ x ∈ before, x.Recordable ∧ x.record.length < 2 ^ 32 :=
    fun x hx ↦ (hfits x (by simp [hx])).spec
  have hconcat : dir.wal = walCode.concat before ++ (bad ++ after.flatMap LogEntry.record) := by
    rw [hwal, List.append_assoc]
    rfl
  have htorn := hbad.readRecord_eq (hfits e (by simp)) (after.flatMap LogEntry.record)
  have hload := Storage.loadWal_eq hconcat hbefore htorn currentTerm votedFor
  exact ⟨_, (Storage.load_eq hread).trans hload, rfl, rfl⟩

def sampleEntry (command : Bytes) : LogEntry := ⟨1, command⟩

theorem sampleEntry_damaged : (sampleEntry [98, 98, 98, 98]).Damaged
    (Encoder.u32 16 ++ (sampleEntry [98, 98, 88, 98]).encode ++
      Encoder.u32 (crc32 (sampleEntry [98, 98, 98, 98]).encode)) := by
  refine .payload ⟨by decide, by decide, 14, fun i hi ↦ ?_⟩
  rcases hi with hfront | hback
  · revert i
    decide
  · rw [List.getElem?_eq_none, List.getElem?_eq_none]
    · exact (by decide : _ ≤ 18).trans hback
    · exact (by decide : _ ≤ 18).trans hback

/-- `aaaa` and `bbbb` are written, and a byte of the second one is changed to `X`. -/
theorem damage_detected_byte : ∃ s, Storage.load ⟨none, (sampleEntry [97, 97, 97, 97]).record ++
      (Encoder.u32 16 ++ (sampleEntry [98, 98, 88, 98]).encode ++
        Encoder.u32 (crc32 (sampleEntry [98, 98, 98, 98]).encode))⟩ = .ok s ∧
    s.entries = [sampleEntry [97, 97, 97, 97]] := by
  have hfits : ∀ x ∈ [sampleEntry [97, 97, 97, 97]] ++ sampleEntry [98, 98, 98, 98] :: [],
      x.Fits := by
    simp [sampleEntry, LogEntry.Fits]
  obtain ⟨⟨s, hload, hentries, -⟩, -⟩ := @damage_detected _ _ _ hfits _ sampleEntry_damaged
    ⟨none, _⟩ rfl rfl
  refine ⟨s, ?_, hentries⟩
  simpa using hload

end Dkvs
