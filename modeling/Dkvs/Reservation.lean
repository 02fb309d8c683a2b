import Dkvs.Transport

/-!
# Room for the entries

`AppendEntriesArgs::decode` reserves room for the announced number of entries before it
reads any of them. An entry takes at least twelve bytes, so a message that is accepted
announces no more entries than the rest of it can hold. The announced number is not compared
with the rest, though, and 41 bytes are enough to ask for room for `2 ^ 32 - 1` entries.
-/

namespace Dkvs

theorem Decoder.uint_of_le {n : ℕ} {d : Decoder} (hlen : n ≤ d.rest.length) :
    d.uint n = (some (bigEndian (d.rest.take n)), ⟨d.rest.drop n⟩) :=
  if_neg (Nat.not_lt.mpr hlen)

namespace AppendEntriesArgs

/-- If `decode` comes to `reserve`, the entries it makes room for could stand in the
bytes that are left. -/
def ReserveBounded (bytes : Bytes) : Prop :=
  ∀ a count dec, decodeHeader bytes = some (a, count, dec) → count ≤ dec.rest.length / 12

/-- The header is there, and the count in its last four bytes is too large for the rest. -/
def OverAnnounced (bytes : Bytes) : Prop :=
  bytes.head? = some 3 ∧ 41 ≤ bytes.length ∧
    (bytes.length - 41) / 12 < bigEndian ((bytes.drop 37).take 4)

instance (bytes : Bytes) : Decidable (OverAnnounced bytes) :=
  inferInstanceAs (Decidable (_ ∧ _ ∧ _))

theorem decodeHeader_reads {bytes : Bytes} {a : AppendEntriesArgs} {count : ℕ} {d : Decoder}
    (h : decodeHeader bytes = some (a, count, d)) :
    bytes.head? = some 3 ∧ bytes.length = 41 + d.rest.length ∧
      bigEndian ((bytes.drop 37).take 4) = count := by
  obtain ⟨rfl, -, -, hcount⟩ := decodeHeader_eq_some.mp h
  refine ⟨rfl, ?_, ?_⟩
  · simp only [List.length_append]
    rfl
  · have hslice : ((a.encodeHeader count ++ d.rest).drop 37).take 4 = Encoder.u32 count := rfl
    rw [hslice, Encoder.u32_eq]
    exact bigEndian_toBigEndian (by omega)

theorem exists_decodeHeader {bytes : Bytes} (htag : bytes.head? = some 3)
    (hlen : 41 ≤ bytes.length) : ∃ a count d, decodeHeader bytes = some (a, count, d) := by
  obtain ⟨tail, rfl⟩ := List.head?_eq_some_iff.mp htag
  rw [List.length_cons] at hlen
  have hsome : (decodeHeader (3 :: tail)).isSome := by
    unfold decodeHeader
    simp (disch := simp only [List.length_drop]; omega) only [Decoder.u8, Decoder.u64, Decoder.u32,
      Decoder.uint_of_le]
    rfl
  obtain ⟨⟨a, count, d⟩, hheader⟩ := Option.isSome_iff_exists.mp hsome
  exact ⟨a, count, d, hheader⟩

theorem reserveBounded_iff_not_overAnnounced (bytes : Bytes) :
    ReserveBounded bytes ↔ ¬ OverAnnounced bytes := by
  constructor
  · rintro hbounded ⟨htag, hlen, hover⟩
    obtain ⟨a, count, d, hheader⟩ := exists_decodeHeader htag hlen
    obtain ⟨-, hsize, hcount⟩ := decodeHeader_reads hheader
    have hle := hbounded a count d hheader
    rw [hsize, hcount, Nat.add_sub_cancel_left] at hover
    omega
  · intro hnot a count d hheader
    obtain ⟨htag, hsize, hcount⟩ := decodeHeader_reads hheader
    by_contra hmore
    refine hnot ⟨htag, by omega, ?_⟩
    rw [hsize, hcount, Nat.add_sub_cancel_left]
    omega

theorem length_encode_entries (es : List LogEntry) :
    12 * es.length ≤ (es.flatMap LogEntry.encode).length := by
  induction es with
  | nil => simp
  | cons e es ih =>
      rw [List.flatMap_cons, List.length_append, List.length_cons, LogEntry.length_encode]
      omega

theorem reserveBounded_of_decode {bytes : Bytes} {a : AppendEntriesArgs}
    (h : decode bytes = some a) : ReserveBounded bytes := by
  intro a' count d hheader
  rw [decode_eq, hheader, Option.bind_eq_bind, Option.bind_some, Option.bind_eq_bind,
    Option.bind_eq_some_iff] at h
  obtain ⟨⟨es, d'⟩, hentries, -⟩ := h
  obtain ⟨rfl, hrest, -⟩ := decodeEntries_eq_some.mp hentries
  have hmin := length_encode_entries es
  rw [hrest, List.length_append]
  omega

/-- The reserved room is bounded exactly when the message does not announce too much, which
holds for every message that is accepted. -/
theorem reserve_bounded_iff (bytes : Bytes) :
    (ReserveBounded bytes ↔ ¬ OverAnnounced bytes) ∧
      ((decode bytes).isSome → ReserveBounded bytes) := by
  refine ⟨reserveBounded_iff_not_overAnnounced bytes, fun hsome ↦ ?_⟩
  obtain ⟨a, hdecode⟩ := Option.isSome_iff_exists.mp hsome
  exact reserveBounded_of_decode hdecode

/-- A header that announces the largest count, with nothing behind it. -/
def bareHeader : Bytes := 3 :: (List.replicate 36 0 ++ [255, 255, 255, 255])

/-- The frame is received, and room for all of the entries it announces is asked for with no
byte of them left. An allocation that fails there throws and ends the process; `decode` comes
to its result where there is the memory. -/
theorem reserve_bounded_bare : recvFrame (sendFrame bareHeader) = .payload bareHeader [] ∧
    decodeHeader bareHeader = some (⟨0, 0, 0, 0, 0, []⟩, 2 ^ 32 - 1, ⟨[]⟩) ∧
      ¬ ReserveBounded bareHeader ∧ decode bareHeader = none := by
  have hheader : decodeHeader bareHeader = some (⟨0, 0, 0, 0, 0, []⟩, 2 ^ 32 - 1, ⟨[]⟩) := by
    decide
  have hnot : ¬ ReserveBounded bareHeader := by
    intro hbounded
    exact absurd (hbounded _ _ _ hheader) (by decide)
  refine ⟨?_, hheader, hnot, ?_⟩
  · have hsize : bareHeader.length ≤ kMaxFrameBytes := by decide
    have hframe := recvFrame_sendFrame hsize []
    rwa [List.append_nil] at hframe
  · cases hdecode : decode bareHeader with
    | none => rfl
    | some a => exact absurd (reserveBounded_of_decode hdecode) hnot

end AppendEntriesArgs

end Dkvs
