import Dkvs.RaftNode

/-!
# The state machine and the parked client handlers

`onApply` runs in the applier thread for each committed entry. A client handler
submits its command, parks a slot in the table of waiters under its log index,
and later reads the slot back. The table is keyed by the index alone, and a slot
that is already present is not replaced.
-/

namespace Dkvs

structure KVStore where
  data : Bytes → Option Bytes

namespace KVStore

def empty : KVStore := ⟨fun _ ↦ none⟩

def set (s : KVStore) (key value : Bytes) : KVStore :=
  ⟨Function.update s.data key (some value)⟩

def get (s : KVStore) (key : Bytes) : Option Bytes := s.data key

def remove (s : KVStore) (key : Bytes) : KVStore × Bool :=
  (⟨Function.update s.data key none⟩, (s.data key).isSome)

end KVStore

structure PendingResult where
  applied : Bool := false
  appliedTerm : ℕ := 0
  value : Option Bytes := none
  existed : Bool := false
  deriving DecidableEq, Repr

/-- A handler that called `submit` for `cmd` and was given `(index, term)`. -/
structure Handler where
  index : ℕ
  term : ℕ
  cmd : Command
  deriving DecidableEq, Repr

inductive Response where
  | ok
  | value (v : Bytes)
  | notFound
  | deleted
  | redirect (leader : ℕ)
  | noLeader
  | commitTimeout
  | lostLeadership
  deriving DecidableEq, Repr

/-- The answers that tell the client that its command took effect. -/
def Response.isSuccess : Response → Bool
  | .ok | .value _ | .notFound | .deleted => true
  | .redirect _ | .noLeader | .commitTimeout | .lostLeadership => false

/-- The line sent to the client. -/
def Response.text (clientAddrs : List String) : Response → Bytes
  | .ok => "OK".toUTF8.toList
  | .value v => "VALUE ".toUTF8.toList ++ v
  | .notFound => "NOT_FOUND".toUTF8.toList
  | .deleted => "DELETED".toUTF8.toList
  | .redirect leader => ("REDIRECT " ++ clientAddrs.getD leader "").toUTF8.toList
  | .noLeader => "ERROR no leader known, retry".toUTF8.toList
  | .commitTimeout => "ERROR commit timeout, retry".toUTF8.toList
  | .lostLeadership => "ERROR lost leadership, retry".toUTF8.toList

abbrev Waiters := ℕ → Option PendingResult

/-- The effect of one log entry on the store, with the value a `GET` reads and
whether a `DEL` found its key. -/
def applyCommand (store : KVStore) (rawCommand : Bytes) : KVStore × Option Bytes × Bool :=
  if rawCommand.isEmpty then (store, none, false)
  else
    match Command.decode rawCommand with
    | none => (store, none, false)
    | some cmd =>
        match cmd.op with
        | .set => (store.set cmd.key cmd.value, none, false)
        | .get => (store, store.get cmd.key, false)
        | .del => ((store.remove cmd.key).1, none, (store.remove cmd.key).2)

def onApply (store : KVStore) (waiters : Waiters) (index term : ℕ) (rawCommand : Bytes) :
    KVStore × Waiters :=
  let outcome := applyCommand store rawCommand
  match waiters index with
  | none => (outcome.1, waiters)
  | some _ =>
      (outcome.1, Function.update waiters index (some ⟨true, term, outcome.2.1, outcome.2.2⟩))

/-- `unordered_map::emplace`: an existing slot stays. -/
def emplaceWaiter (waiters : Waiters) (index : ℕ) : Waiters :=
  match waiters index with
  | none => Function.update waiters index (some {})
  | some _ => waiters

/-- The answer of `executeCommand` to a node that did not take the command. -/
def refuse (id clientAddrs : ℕ) (result : SubmitResult) : Response :=
  if 0 ≤ result.leaderHint ∧ result.leaderHint < clientAddrs ∧ result.leaderHint ≠ toInt32 id then
    .redirect result.leaderHint.toNat
  else .noLeader

/-- The answer to a command that was applied under the term it was submitted in. -/
def outcome (cmd : Command) (pending : PendingResult) : Response :=
  match cmd.op with
  | .set => .ok
  | .get => pending.value.elim .notFound .value
  | .del => if pending.existed then .deleted else .notFound

/-- The end of `executeCommand`: the wait is over because the server stops, the
slot was filled or the time is up; the slot is read and erased. -/
def resume (stopping : Bool) (waiters : Waiters) (h : Handler) : Response × Waiters :=
  let done := stopping || ((waiters h.index).map PendingResult.applied).getD false
  let pending := (waiters h.index).getD {}
  let response :=
    if done = false ∨ pending.applied = false then .commitTimeout
    else if pending.appliedTerm ≠ h.term then .lostLeadership
    else outcome h.cmd pending
  (response, Function.update waiters h.index none)

theorem onApply_store (store : KVStore) (waiters : Waiters) (index term : ℕ)
    (rawCommand : Bytes) :
    (onApply store waiters index term rawCommand).1 = (applyCommand store rawCommand).1 := by
  cases hslot : waiters index with
  | none => simp [onApply, hslot]
  | some _ => simp [onApply, hslot]

theorem onApply_of_ne (store : KVStore) (waiters : Waiters) {index idx : ℕ} (term : ℕ)
    (rawCommand : Bytes) (hne : idx ≠ index) :
    (onApply store waiters index term rawCommand).2 idx = waiters idx := by
  cases hslot : waiters index with
  | none => simp [onApply, hslot]
  | some _ => simp [onApply, hslot, hne]

theorem onApply_slot (store : KVStore) {waiters : Waiters} {index : ℕ} (term : ℕ)
    (rawCommand : Bytes) (hslot : (waiters index).isSome) :
    ∃ r, (onApply store waiters index term rawCommand).2 index = some r ∧ r.applied = true ∧
      r.appliedTerm = term := by
  obtain ⟨slot, hslot⟩ := Option.isSome_iff_exists.mp hslot
  exact ⟨⟨true, term, (applyCommand store rawCommand).2.1, (applyCommand store rawCommand).2.2⟩,
    by simp [onApply, hslot], rfl, rfl⟩

theorem onApply_waiters {store : KVStore} {waiters : Waiters} {index term idx : ℕ}
    {rawCommand : Bytes} {r : PendingResult}
    (hr : (onApply store waiters index term rawCommand).2 idx = some r) :
    idx = index ∧ r.appliedTerm = term ∨ waiters idx = some r := by
  by_cases hidx : idx = index
  · subst hidx
    cases hslot : waiters idx with
    | none => simp [onApply, hslot] at hr
    | some slot =>
        obtain ⟨r', hr', -, hterm⟩ := onApply_slot store term rawCommand
          (Option.isSome_iff_exists.mpr ⟨slot, hslot⟩)
        rw [hr] at hr'
        exact Or.inl ⟨rfl, Option.some.inj hr' ▸ hterm⟩
  · rw [onApply_of_ne store waiters term rawCommand hidx] at hr
    exact Or.inr hr

theorem emplaceWaiter_applied {waiters : Waiters} {index idx : ℕ} {r : PendingResult}
    (hr : emplaceWaiter waiters index idx = some r) (hdone : r.applied = true) :
    waiters idx = some r := by
  cases hslot : waiters index with
  | none =>
      by_cases hidx : idx = index
      · subst hidx
        obtain rfl : ({} : PendingResult) = r := by simpa [emplaceWaiter, hslot] using hr
        simp at hdone
      · simpa [emplaceWaiter, hslot, hidx] using hr
  | some _ => simpa [emplaceWaiter, hslot] using hr

theorem resume_waiters {stopping : Bool} {waiters : Waiters} {h : Handler} {idx : ℕ}
    {r : PendingResult} (hr : (resume stopping waiters h).2 idx = some r) :
    waiters idx = some r := by
  by_cases hidx : idx = h.index
  · simp [resume, hidx] at hr
  · simpa [resume, hidx] using hr

theorem emplaceWaiter_isSome (waiters : Waiters) (index : ℕ) :
    (emplaceWaiter waiters index index).isSome := by
  cases hslot : waiters index with
  | none => simp [emplaceWaiter, hslot]
  | some r => simp [emplaceWaiter, hslot]

theorem emplaceWaiter_eq_some {waiters : Waiters} (index : ℕ) {idx : ℕ} {r : PendingResult}
    (hslot : waiters idx = some r) : emplaceWaiter waiters index idx = some r := by
  cases hold : waiters index with
  | none =>
      have hne : idx ≠ index := by
        rintro rfl
        simp [hold] at hslot
      simp [emplaceWaiter, hold, hne, hslot]
  | some r' => simp [emplaceWaiter, hold, hslot]

theorem onApply_isSome (store : KVStore) {waiters : Waiters} {idx : ℕ} (index term : ℕ)
    (rawCommand : Bytes) (hslot : (waiters idx).isSome) :
    ((onApply store waiters index term rawCommand).2 idx).isSome := by
  by_cases hidx : idx = index
  · subst hidx
    obtain ⟨r, hr, -⟩ := onApply_slot store term rawCommand hslot
    simp [hr]
  · rw [onApply_of_ne store waiters term rawCommand hidx]
    exact hslot

theorem resume_of_ne (stopping : Bool) (waiters : Waiters) {handler : Handler} {idx : ℕ}
    (hne : idx ≠ handler.index) : (resume stopping waiters handler).2 idx = waiters idx := by
  simp [Dkvs.resume, hne]

theorem isSuccess_outcome (cmd : Command) (r : PendingResult) :
    (outcome cmd r).isSuccess = true := by
  unfold outcome
  split
  · rfl
  · cases r.value with
    | none => rfl
    | some v => rfl
  · split_ifs with hexisted
    · rfl
    · rfl

theorem resume_of_filled (stopping : Bool) {waiters : Waiters} {h : Handler} {r : PendingResult}
    (hslot : waiters h.index = some r) (happlied : r.applied = true)
    (hterm : r.appliedTerm = h.term) : (resume stopping waiters h).1 = outcome h.cmd r := by
  simp [resume, hslot, happlied, hterm]

/-- An answer other than a timeout rests on a filled slot; whether it is a
success depends on the term that was applied. -/
theorem resume_response (stopping : Bool) (waiters : Waiters) (h : Handler) :
    ((resume stopping waiters h).1.isSuccess = true → ∃ r, waiters h.index = some r ∧
        r.applied = true ∧ r.appliedTerm = h.term) ∧
      ((resume stopping waiters h).1 = .lostLeadership → ∃ r, waiters h.index = some r ∧
        r.applied = true ∧ r.appliedTerm ≠ h.term) := by
  cases hslot : waiters h.index with
  | none => simp [resume, hslot, Response.isSuccess]
  | some r =>
      simp only [resume, hslot, Option.map_some, Option.getD_some]
      split_ifs with hpending hterm
      · simp [Response.isSuccess]
      · simp only [not_or, Bool.not_eq_false] at hpending
        exact ⟨by simp [Response.isSuccess], fun _ ↦ ⟨r, rfl, hpending.2, hterm⟩⟩
      · simp only [not_or, Bool.not_eq_false] at hpending
        refine ⟨fun _ ↦ ⟨r, rfl, hpending.2, not_not.mp hterm⟩, fun hlost ↦ ?_⟩
        have hsuccess := isSuccess_outcome h.cmd r
        rw [hlost] at hsuccess
        simp [Response.isSuccess] at hsuccess

end Dkvs
