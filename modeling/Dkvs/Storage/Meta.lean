import Dkvs.Storage.Refinement

/-!
# The meta file

A new term and vote are written to `meta.tmp`, which then takes the place of `meta`. A
process that dies on the way leaves the old file or the new one. The file has one format
for each pair of a term and a vote, and nothing else is accepted.
-/

namespace Dkvs

/-! ## The format -/

/-- A 64-bit term and a 32-bit vote. -/
def MetaFits (p : ℕ × ℤ) : Prop := p.1 < 2 ^ 64 ∧ -2 ^ 31 ≤ p.2 ∧ p.2 < 2 ^ 31

theorem toUInt32_toInt32 {x : ℕ} (hx : x < 2 ^ 32) : toUInt32 (toInt32 x) = x := by
  unfold toUInt32 toInt32
  split_ifs with hsign
  · omega
  · omega

theorem length_encodeMeta (term : ℕ) (voted : ℤ) : (encodeMeta term voted).length = 24 := by
  simp [encodeMeta, metaPayload, kMetaMagic]

/-- The parts of a file that is accepted. -/
theorem decodeMeta_parts {raw : Bytes} {p : ℕ × ℤ} (hread : decodeMeta raw = some p) :
    p.1 < 2 ^ 64 ∧ 12 < raw.length ∧ raw.take 8 = kMetaMagic ∧
      raw.drop (raw.length - 4) = Encoder.u32 (crc32 (raw.take (raw.length - 4))) ∧
      ∃ voted < 2 ^ 32, p.2 = toInt32 voted ∧
        (raw.drop 8).take (raw.length - 8 - 4) = Encoder.u64 p.1 ++ Encoder.u32 voted := by
  unfold decodeMeta at hread
  dsimp only at hread
  split at hread
  · rename_i hfront
    split at hread
    · simp at hread
    · rename_i storedCrc hcrc
      split at hread
      · rename_i hsame
        split at hread
        · rename_i term voted hterm hvoted
          split at hread
          · rename_i hdone
            obtain rfl : (term, toInt32 voted) = p := by simpa using hread
            obtain ⟨hbody, hfits⟩ := Decoder.u64_eq_some.mp (Prod.ext hterm rfl)
            obtain ⟨hvote, hsmall⟩ := Decoder.u32_eq_some.mp (Prod.ext hvoted rfl)
            obtain ⟨htail, -⟩ := Decoder.u32_eq_some.mp (Prod.ext hcrc rfl)
            rw [Decoder.done_iff.mp hdone, List.append_nil] at hvote
            rw [hvote] at hbody
            have hlong : 12 < raw.length := hfront.1
            refine ⟨hfits, hlong, hfront.2, ?_, voted, hsmall, rfl, hbody⟩
            -- the checksum takes all four bytes
            have hcrc4 : Encoder.u32 storedCrc <+: raw.drop (raw.length - 4) := ⟨_, htail.symm⟩
            rw [← hsame]
            exact (hcrc4.eq_of_length (by rw [Encoder.length_u32, List.length_drop]; omega)).symm
          · simp at hread
        · simp at hread
      · simp at hread
  · simp at hread

/-- Only what `writeMetaFile` writes is read, and it is read as what was written. -/
theorem decodeMeta_eq_some {raw : Bytes} {p : ℕ × ℤ} :
    decodeMeta raw = some p ↔ raw = encodeMeta p.1 p.2 ∧ MetaFits p := by
  constructor
  · intro hread
    obtain ⟨hterm, hlong, hmagic, htail, voted, hvoted, hvote, hbody⟩ := decodeMeta_parts hread
    have hpayload : raw.take (raw.length - 4) = metaPayload p.1 p.2 := by
      rw [show raw.length - 4 = 8 + (raw.length - 8 - 4) by omega, List.take_add, hmagic, hbody,
        metaPayload, hvote, toUInt32_toInt32 hvoted]
    refine ⟨?_, hterm, hvote ▸ toInt32_range voted⟩
    rw [← List.take_append_drop (raw.length - 4) raw, htail, hpayload, encodeMeta]
  · rintro ⟨rfl, hterm, hlow, hhigh⟩
    exact decodeMeta_encodeMeta hterm hlow hhigh

/-! ## The two files -/

/-- The file that is read and the file that is written first. -/
structure MetaFiles where
  metaFile : Option Bytes
  tmpFile : Option Bytes
  deriving DecidableEq, Repr

/-- The system calls of `writeMetaFile` that change a file. -/
inductive MetaCall where
  | openTmp
  | write (data : Bytes)
  | rename
  deriving DecidableEq, Repr

/-- The calls in their order. What was written is synced before the rename, and the
directory after it. -/
def writeMetaFile (p : ℕ × ℤ) : List MetaCall :=
  [.openTmp, .write (metaPayload p.1 p.2), .write (Encoder.u32 (crc32 (metaPayload p.1 p.2))),
    .rename]

namespace MetaFiles

def call (f : MetaFiles) : MetaCall → MetaFiles
  | .openTmp => { f with tmpFile := some [] }
  | .write data => { f with tmpFile := f.tmpFile.map (· ++ data) }
  | .rename =>
      match f.tmpFile with
      | some content => ⟨some content, none⟩
      | none => f

def callAll (f : MetaFiles) (calls : List MetaCall) : MetaFiles := calls.foldl call f

def saveMeta (f : MetaFiles) (p : ℕ × ℤ) : MetaFiles := f.callAll (writeMetaFile p)

/-- The files of a process that died in `saveMeta` when `m` calls were done, and `k` bytes
of the next one if that is a write. -/
def dieAt (f : MetaFiles) (p : ℕ × ℤ) (m k : ℕ) : MetaFiles :=
  let done := f.callAll ((writeMetaFile p).take m)
  match (writeMetaFile p)[m]? with
  | some (.write data) => done.call (.write (data.take k))
  | _ => done

/-- The directory that `load` looks into: it does not read `meta.tmp`. -/
def directory (f : MetaFiles) (wal : Bytes) : Directory := ⟨f.metaFile, wal⟩

/-- The whole call replaces the file by the one of the model of the storage object. -/
theorem saveMeta_eq (f : MetaFiles) (p : ℕ × ℤ) :
    f.saveMeta p = ⟨some (encodeMeta p.1 p.2), none⟩ := by
  simp [saveMeta, callAll, writeMetaFile, call, encodeMeta]

theorem directory_saveMeta (f : MetaFiles) (s : Storage) (hdir : f.directory s.dir.wal = s.dir)
    (p : ℕ × ℤ) : (f.saveMeta p).directory s.dir.wal = (s.saveMeta p.1 p.2).dir := by
  rw [saveMeta_eq, Storage.saveMeta, ← hdir]
  rfl

/-- Until the rename is done the file that is read is the old one. -/
theorem dieAt_cases (f : MetaFiles) (p : ℕ × ℤ) (m k : ℕ) :
    (f.dieAt p m k).metaFile = f.metaFile ∨
      (f.dieAt p m k).metaFile = some (encodeMeta p.1 p.2) := by
  unfold dieAt
  rcases Nat.lt_or_ge m 4 with hm | hm
  · left
    interval_cases m <;> rfl
  · right
    have hdone : (writeMetaFile p).take m = writeMetaFile p := List.take_of_length_le hm
    have hnone : (writeMetaFile p)[m]? = none := List.getElem?_eq_none hm
    simp only [hdone, hnone]
    exact congrArg metaFile (f.saveMeta_eq p)

theorem readMeta_saveAll {f : MetaFiles} {wal : Bytes} {saves : List (ℕ × ℤ)} {p : ℕ × ℤ}
    (hf : Storage.readMeta (f.directory wal) = some p) (hsaves : ∀ q ∈ saves, MetaFits q) :
    Storage.readMeta ((saves.foldl saveMeta f).directory wal) = some (saves.getLastD p) := by
  induction saves generalizing f p with
  | nil => exact hf
  | cons q saves ih =>
      rw [List.foldl_cons, List.getLastD_cons]
      refine ih ?_ fun r hr ↦ hsaves r (by simp [hr])
      rw [saveMeta_eq]
      exact decodeMeta_eq_some.mpr ⟨rfl, hsaves q (by simp)⟩

end MetaFiles

theorem Storage.loadWal_ne_failed (dir : Directory) (term : ℕ) (voted : ℤ) :
    Storage.loadWal dir term voted ≠ .failed := by
  unfold Storage.loadWal
  split <;> simp

theorem Storage.load_eq_failed {dir : Directory} :
    Storage.load dir = .failed ↔ Storage.readMeta dir = none := by
  unfold Storage.load
  cases hread : Storage.readMeta dir with
  | none => simp
  | some p => simpa using Storage.loadWal_ne_failed dir p.1 p.2

/-- After any number of calls of `saveMeta` and one that is cut off at any point, `load`
goes on with the last pair that was saved or with the pair of the last call. Of all
contents of the file it accepts those that `writeMetaFile` writes, each as the pair it was
written for, so none that is cut short or has something behind it. -/
theorem meta_replaced_atomically {f : MetaFiles} {wal : Bytes} {saves : List (ℕ × ℤ)}
    {p₀ p : ℕ × ℤ} (hf : Storage.readMeta (f.directory wal) = some p₀)
    (hsaves : ∀ q ∈ saves, MetaFits q) (hp : MetaFits p) (m k : ℕ) :
    (∃ q, (q = saves.getLastD p₀ ∨ q = p) ∧
      Storage.load (((saves.foldl MetaFiles.saveMeta f).dieAt p m k).directory wal) =
        Storage.loadWal (((saves.foldl MetaFiles.saveMeta f).dieAt p m k).directory wal)
          q.1 q.2) ∧
    (∀ raw q, Storage.readMeta ⟨some raw, wal⟩ = some q ↔
      raw = encodeMeta q.1 q.2 ∧ MetaFits q) ∧
    (∀ raw, Storage.load ⟨some raw, wal⟩ = .failed ↔
      ¬ ∃ q, MetaFits q ∧ raw = encodeMeta q.1 q.2) ∧
    ∀ (raw : Bytes) (q : ℕ × ℤ), raw ≠ encodeMeta q.1 q.2 →
      (raw <+: encodeMeta q.1 q.2 ∨ encodeMeta q.1 q.2 <+: raw) →
      Storage.load ⟨some raw, wal⟩ = .failed := by
  have hfailed : ∀ raw, Storage.load ⟨some raw, wal⟩ = .failed ↔
      ¬ ∃ q, MetaFits q ∧ raw = encodeMeta q.1 q.2 := by
    intro raw
    rw [Storage.load_eq_failed, Option.eq_none_iff_forall_ne_some]
    constructor
    · rintro hnone ⟨q, hq, hraw⟩
      exact hnone q (decodeMeta_eq_some.mpr ⟨hraw, hq⟩)
    · intro hnone q hread
      obtain ⟨hraw, hq⟩ := decodeMeta_eq_some.mp hread
      exact hnone ⟨q, hq, hraw⟩
  refine ⟨?_, fun raw q ↦ decodeMeta_eq_some, hfailed, fun raw q hne hcut ↦ ?_⟩
  · have hlast := MetaFiles.readMeta_saveAll hf hsaves
    rcases (saves.foldl MetaFiles.saveMeta f).dieAt_cases p m k with hold | hnew
    · refine ⟨saves.getLastD p₀, Or.inl rfl, Storage.load_eq ?_⟩
      rw [MetaFiles.directory, hold]
      exact hlast
    · refine ⟨p, Or.inr rfl, Storage.load_eq ?_⟩
      rw [MetaFiles.directory, hnew]
      exact decodeMeta_eq_some.mpr ⟨rfl, hp⟩
  · rw [hfailed]
    rintro ⟨r, -, rfl⟩
    -- all files have one length
    have hlen : (encodeMeta r.1 r.2).length = (encodeMeta q.1 q.2).length := by
      rw [length_encodeMeta, length_encodeMeta]
    rcases hcut with hpre | hpre
    · exact hne (hpre.eq_of_length hlen)
    · exact hne (hpre.eq_of_length hlen.symm).symm

/-- Two calls and a third one that dies in the second write, on an empty directory that
has a part of a `meta.tmp` left. -/
theorem meta_replaced_atomically_torn : ∃ q, (q = (2, 1) ∨ q = (3, -1)) ∧
    Storage.load ((([(1, -1), (2, 1)].foldl MetaFiles.saveMeta ⟨none, some [68]⟩).dieAt
        (3, -1) 2 3).directory []) =
      Storage.loadWal ((([(1, -1), (2, 1)].foldl MetaFiles.saveMeta ⟨none, some [68]⟩).dieAt
        (3, -1) 2 3).directory []) q.1 q.2 :=
  (@meta_replaced_atomically ⟨none, some [68]⟩ [] [(1, -1), (2, 1)] (0, -1) (3, -1) rfl
    (by simp [MetaFits]) (by simp [MetaFits]) 2 3).1

end Dkvs
