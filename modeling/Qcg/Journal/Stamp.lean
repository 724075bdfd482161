import Qcg.State.RunFold

/-!
# Stamped records

The writer adds its own members to every payload before the record is checked: kind,
time, sequence number and the trace identity. All other members are the caller's.
-/

namespace Qcg

open Json (Value Members)

/-- The clock and the identifiers that the writer draws its stamps from. -/
structure Stamps where
  /-- Wall-clock text at the append of a sequence number. -/
  now : Nat → String
  traceIdForRun : String → String
  spanIdForSeq : Nat → String
  spanIdForScope : String → String → String

namespace Stamps

variable (stamps : Stamps) (runId : String) (seq : Nat) (kind : EventKind) (payload : Members)

/-- The members every record carries, in the order they are written. -/
def common : Members :=
  [("t", .str kind.name), ("ts", .str (stamps.now seq)), ("seq", .num seq),
    ("run_id", .str runId), ("trace_id", .str (stamps.traceIdForRun runId)),
    ("span_id", .str (stamps.spanIdForSeq seq))]

/-- Records of a node hang under its step, the others under the run. -/
def parentScope : String :=
  match (Members.get payload "node").bind Value.asStr with
  | some node => "step:" ++ node
  | none => "run"

/-- Admission records open the trace and have no parent. -/
def parent : Members :=
  match kind with
  | .runQueued | .runStarted => []
  | _ => [("parent_span_id", .str (stamps.spanIdForScope runId (parentScope payload)))]

def stamp : Value :=
  .obj ((stamps.common runId seq kind ++ stamps.parent runId kind payload).foldl
    (fun members entry => Members.insert members entry.1 entry.2) payload)

def stampKeys : List String :=
  ["t", "ts", "seq", "run_id", "trace_id", "span_id", "parent_span_id"]

theorem get_common_of_notMem {key : String} (h : key ∉ stampKeys) :
    Members.get ((stamps.common runId seq kind ++ stamps.parent runId kind payload).reverse) key =
      none := by
  simp only [stampKeys, List.mem_cons, List.not_mem_nil, or_false, not_or] at h
  obtain ⟨h1, h2, h3, h4, h5, h6, h7⟩ := h
  unfold parent common
  split <;> simp [Members.get_cons, h1, h2, h3, h4, h5, h6, h7]

theorem get_stamp {key : String} (h : key ∉ stampKeys) :
    (stamps.stamp runId seq kind payload).get key = Members.get payload key := by
  rw [stamp, Value.get_obj, Members.get_foldl_insert, get_common_of_notMem _ _ _ _ _ h]
  simp

theorem getStr_stamp {key : String} (h : key ∉ stampKeys) :
    (stamps.stamp runId seq kind payload).getStr key =
      (Members.get payload key).bind Value.asStr := by
  rw [Value.getStr, get_stamp _ _ _ _ _ h]

theorem get_stamp_seq :
    (stamps.stamp runId seq kind payload).get "seq" = some (.num seq) := by
  rw [stamp, Value.get_obj, Members.get_foldl_insert]
  unfold parent common
  split <;> simp [Members.get_cons]

theorem getStr_stamp_kind :
    (stamps.stamp runId seq kind payload).getStr "t" = some kind.name := by
  rw [Value.getStr, stamp, Value.get_obj, Members.get_foldl_insert]
  unfold parent common
  split <;> simp [Members.get_cons]

theorem getStr_stamp_runId :
    (stamps.stamp runId seq kind payload).getStr "run_id" = some runId := by
  rw [Value.getStr, stamp, Value.get_obj, Members.get_foldl_insert]
  unfold parent common
  split <;> simp [Members.get_cons]

end Stamps

end Qcg
