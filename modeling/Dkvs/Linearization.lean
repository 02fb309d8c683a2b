import Mathlib

/-!
# Linearizable histories

A history lists what the clients of an object see: the invocation of an operation, the
result that a call returns, or that it fails. A call is named by the position of its
invocation. Calls that neither return nor fail may or may not have taken effect.

A journal assigns calls to the slots of one sequence, for example of a replicated log. It
gives a linearization as soon as the slots agree with the results and with real time.
-/

namespace Linearization

variable {S O R : Type*}

/-- A sequential object: its first state, and what an operation does and gives. -/
structure Object (S O R : Type*) where
  init : S
  next : S → O → S
  result : S → O → R

/-- The state after a sequence of operations. -/
def Object.run (obj : Object S O R) (ops : List O) : S := ops.foldl obj.next obj.init

inductive Event (O R : Type*) where
  | invoked (op : O)
  | returned (call : ℕ) (result : R)
  /-- The call has ended and is known to have no effect. -/
  | failed (call : ℕ)
  deriving DecidableEq, Repr

/-- The operation of a call. -/
def opOf (history : List (Event O R)) (call : ℕ) : Option O :=
  match history[call]? with
  | some (.invoked op) => some op
  | _ => none

theorem opOf_eq_some {history : List (Event O R)} {call : ℕ} {op : O}
    (hop : history[call]? = some (.invoked op)) : opOf history call = some op := by
  rw [opOf, hop]

def opsOf (history : List (Event O R)) (calls : List ℕ) : List O :=
  calls.filterMap (opOf history)

/-- The calls of the history take effect one after the other, in the given order. Calls that
failed do not take effect, those that returned do and returned what they must, and a call
that returned before another was invoked comes first. -/
structure IsLinearization (obj : Object S O R) (history : List (Event O R))
    (order : List ℕ) : Prop where
  nodup : order.Nodup
  invoked : ∀ call ∈ order, ∃ op, history[call]? = some (.invoked op)
  returned : ∀ {call r}, .returned call r ∈ history → call ∈ order
  failed : ∀ {call}, .failed call ∈ history → call ∉ order
  realTime : ∀ {pos call : ℕ} {r : R} {call' : ℕ}, history[pos]? = some (.returned call r) →
    pos < call' → call' ∈ order → [call, call'].Sublist order
  legal : ∀ {before call after op r}, order = before ++ call :: after →
    history[call]? = some (.invoked op) → .returned call r ∈ history →
      r = obj.result (obj.run (opsOf history before)) op

def Linearizable (obj : Object S O R) (history : List (Event O R)) : Prop :=
  ∃ order, IsLinearization obj history order

/-- The slots of a sequence and the calls they belong to, if any. -/
structure IsJournal (obj : Object S O R) (history : List (Event O R))
    (journal : List (Option ℕ)) : Prop where
  distinct : ∀ {i j call : ℕ}, journal[i]? = some (some call) →
    journal[j]? = some (some call) → i = j
  invoked : ∀ {i call : ℕ}, journal[i]? = some (some call) →
    ∃ op, history[call]? = some (.invoked op)
  returned : ∀ {call r}, .returned call r ∈ history →
    ∃ (i : ℕ) (op : O), journal[i]? = some (some call) ∧ history[call]? = some (.invoked op) ∧
      r = obj.result (obj.run (opsOf history (journal.take i).reduceOption)) op
  failed : ∀ {i call : ℕ}, .failed call ∈ history → journal[i]? ≠ some (some call)
  ordered : ∀ {pos i j call : ℕ} {r : R} {call' : ℕ},
    history[pos]? = some (.returned call r) → pos < call' → journal[i]? = some (some call) →
      journal[j]? = some (some call') → i < j

namespace IsJournal

variable {obj : Object S O R} {history : List (Event O R)} {journal : List (Option ℕ)}

theorem mem_reduceOption {call : ℕ} :
    call ∈ journal.reduceOption ↔ ∃ i : ℕ, journal[i]? = some (some call) := by
  rw [List.reduceOption_mem_iff, List.mem_iff_getElem?]

theorem reduceOption_eq {i call : ℕ} (hi : journal[i]? = some (some call)) :
    journal.reduceOption =
      (journal.take i).reduceOption ++ call :: (journal.drop (i + 1)).reduceOption := by
  obtain ⟨hlt, hget⟩ := List.getElem?_eq_some_iff.mp hi
  rw [← List.reduceOption_cons_of_some, ← List.reduceOption_append, ← hget,
    List.getElem_cons_drop, List.take_append_drop]

theorem nodup (h : IsJournal obj history journal) : journal.reduceOption.Nodup := by
  rw [List.reduceOption, List.Nodup, List.pairwise_filterMap, List.pairwise_iff_getElem]
  rintro i j hi hj hlt call hcall call' hcall' rfl
  have hleft : journal[i]? = some (some call) := by rw [List.getElem?_eq_getElem hi]; congr
  have hright : journal[j]? = some (some call) := by rw [List.getElem?_eq_getElem hj]; congr
  exact hlt.ne (h.distinct hleft hright)

/-- The calls of a journal, in the order of their slots. -/
theorem isLinearization (h : IsJournal obj history journal) :
    IsLinearization obj history journal.reduceOption where
  nodup := h.nodup
  invoked call hcall := by
    obtain ⟨i, hi⟩ := mem_reduceOption.mp hcall
    exact h.invoked hi
  returned hret := by
    obtain ⟨i, -, hi, -⟩ := h.returned hret
    exact mem_reduceOption.mpr ⟨i, hi⟩
  failed hfail hcall := by
    obtain ⟨i, hi⟩ := mem_reduceOption.mp hcall
    exact h.failed hfail hi
  realTime {pos call r call'} hret hlt hcall' := by
    obtain ⟨i, -, hi, -⟩ := h.returned (List.mem_of_getElem? hret)
    obtain ⟨j, hj⟩ := mem_reduceOption.mp hcall'
    have hij := h.ordered hret hlt hi hj
    -- the slot of the later call is behind that of the earlier one
    have hdrop : call' ∈ (journal.drop (i + 1)).reduceOption := by
      refine mem_reduceOption.mpr ⟨j - (i + 1), ?_⟩
      rw [List.getElem?_drop, Nat.add_sub_cancel' hij]
      exact hj
    rw [reduceOption_eq hi]
    exact ((List.singleton_sublist.mpr hdrop).cons_cons call).trans (List.sublist_append_right _ _)
  legal {before call after op r} hsplit hop hret := by
    obtain ⟨i, op', hi, hop', hr⟩ := h.returned hret
    obtain rfl : op' = op := by
      rw [hop] at hop'
      exact (Event.invoked.inj (Option.some.inj hop')).symm
    have hnodup := h.nodup
    rw [reduceOption_eq hi] at hsplit hnodup
    have hfresh : call ∉ (journal.take i).reduceOption := fun hmem ↦
      List.disjoint_of_nodup_append hnodup hmem List.mem_cons_self
    have hfresh' : call ∉ (journal.drop (i + 1)).reduceOption :=
      (List.nodup_cons.mp hnodup.of_append_right).1
    obtain ⟨hbefore, -⟩ := (List.append_cons_inj_of_notMem hfresh hfresh').mp hsplit
    rw [← hbefore]
    exact hr

theorem linearizable (h : IsJournal obj history journal) : Linearizable obj history :=
  ⟨_, h.isLinearization⟩

end IsJournal

end Linearization
