import Qcg.State.RunFold
import Qcg.Library.Checked

/-!
# What a record changes

How a record reaches its arm, and what the arm leaves of the folded state.
-/

namespace Qcg

open Except (bind_eq_ok)

open Json (Value Members)

namespace FoldState

variable {message : String}

theorem checkedAdd_eq_ok {width a b n : Nat} :
    checkedAdd width a b message = .ok n ↔ a + b < 2 ^ width ∧ n = a + b := by
  unfold checkedAdd
  by_cases h : a + b < 2 ^ width
  · simp [h, eq_comm]
  · simp [h]

theorem required_eq_ok {α : Type} {o : Option α} {a : α} :
    required o message = .ok a ↔ o = some a := by
  cases o <;> simp [required]

end FoldState

/-- Kinds whose arm reads neither the identity nor the sequence position. -/
def EventKind.isRecord : EventKind → Bool
  | .runQueued | .runStarted | .elapsedAccounted | .runForked => false
  | _ => true

namespace RunState

variable {api : Api} {s s' : RunState} {event : Value} {kind : EventKind}

theorem applyKind_record (hrecord : kind.isRecord = true)
    (h : s.applyKind api kind event = .ok s') :
    ∃ f, s.toFoldState.applyRecord api kind event = .ok f ∧ s' = { s with toFoldState := f } := by
  cases kind <;> simp only [EventKind.isRecord, Bool.false_eq_true] at hrecord
  all_goals
    obtain ⟨f, hf, h⟩ := bind_eq_ok.mp h
    cases h
    exact ⟨f, hf, rfl⟩

theorem noteSearchCost_eq (f : FoldState) (hkind : kind ≠ .llmCall)
    (hkind' : kind ≠ .llmRouteFailed) :
    f.noteSearchCost kind event = f := by
  simp [FoldState.noteSearchCost, hkind, hkind']

end RunState

end Qcg
