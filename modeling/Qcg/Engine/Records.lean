import Qcg.Engine.Execute
import Qcg.State.View

/-!
# The records of the scheduler

An accepted append folds the stamped record and leaves it at the end of the journal.
-/

namespace Qcg

open Json (Value Members)

namespace Journal

variable {env : Env} {j j' : Journal} {kind : EventKind} {payload : Members}

def record (env : Env) (j : Journal) (kind : EventKind) (payload : Members) : Value :=
  env.stamps.stamp env.runId j.nextSeq kind payload

theorem append_eq_ok (h : j.append env kind payload = .ok j') :
    j.nextSeq < 2 ^ 64 ∧ j.state.apply env.api (j.record env kind payload) = .ok j'.state ∧
      j'.events = j.events ++ [j.record env kind payload] := by
  obtain ⟨_, hseq, h⟩ := Except.bind_eq_ok.mp h
  obtain ⟨_, _, h⟩ := Except.bind_eq_ok.mp h
  obtain ⟨_, _, h⟩ := Except.bind_eq_ok.mp h
  obtain ⟨state, hstate, h⟩ := Except.bind_eq_ok.mp h
  obtain ⟨_, _, h⟩ := Except.bind_eq_ok.mp h
  cases h
  refine ⟨?_, hstate, rfl⟩
  unfold checkOverflow at hseq
  split_ifs at hseq
  omega

theorem get_record {key : String} (h : key ∉ Stamps.stampKeys) :
    (j.record env kind payload).get key = Members.get payload key :=
  Stamps.get_stamp _ _ _ _ _ h

theorem getStr_record {key : String} (h : key ∉ Stamps.stampKeys) :
    (j.record env kind payload).getStr key = (Members.get payload key).bind Value.asStr :=
  Stamps.getStr_stamp _ _ _ _ _ h

end Journal

end Qcg
