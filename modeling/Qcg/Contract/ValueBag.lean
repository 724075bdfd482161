import Qcg.Library.BTree

/-!
# The value bag of a run

The bag holds what expressions may read: the inputs, the outputs that steps
published, and the status and failure reason of every finished node path. Output
values are keyed by alias or node id, outcome metadata always by node path.
-/

namespace Qcg

open Json (Value)

structure ValueBag where
  inputs : BTreeMap Value := ∅
  steps : BTreeMap Value := ∅
  statuses : BTreeMap Value := ∅
  reasons : BTreeMap Value := ∅
  item : Option Value := none
deriving DecidableEq, Inhabited

namespace ValueBag

def withInputs (inputs : BTreeMap Value) : ValueBag := { inputs }

def setStepOutput (bag : ValueBag) (id : String) (value : Value) : ValueBag :=
  { bag with steps := bag.steps.insert id value }

def publishStepOutput (bag : ValueBag) (nodeId : String) (outputAlias : Option String)
    (output : Option Value) (extraAlias : Option String) : ValueBag :=
  match output with
  | none => bag
  | some value =>
      let bag := bag.setStepOutput (outputAlias.getD nodeId) value
      match extraAlias with
      | some extra => bag.setStepOutput extra value
      | none => bag

def setInputs (bag : ValueBag) (inputs : BTreeMap Value) : ValueBag :=
  { bag with inputs }

def setStepStatus (bag : ValueBag) (id status : String) : ValueBag :=
  { bag with
    statuses := bag.statuses.insert id (.str status)
    reasons := bag.reasons.erase id }

def setStepOutcome (bag : ValueBag) (id status : String) (reason : Option Value) : ValueBag :=
  { bag with
    statuses := bag.statuses.insert id (.str status)
    reasons :=
      match reason with
      | some reason => bag.reasons.insert id reason
      | none => bag.reasons.erase id }

def syncOutcomeMetadata (bag folded : ValueBag) : ValueBag :=
  { bag with statuses := folded.statuses, reasons := folded.reasons }

/-- Whether a node path is a path or lies below it, at the separators of foreach and
repair paths. -/
def pathIsWithin (path lead : String) : Bool :=
  path == lead ||
    ["/", "[", "@repair."].any fun separator =>
      (lead ++ separator).toList.isPrefixOf path.toList

def syncStepOutcomeSubtree (bag folded : ValueBag) (lead : String) : ValueBag :=
  let refresh (own other : BTreeMap Value) :=
    BTreeMap.extend (own.filter fun path _ => !pathIsWithin path lead)
      (other.filter fun path _ => pathIsWithin path lead).toList
  { bag with
    statuses := refresh bag.statuses folded.statuses
    reasons := refresh bag.reasons folded.reasons }

def patchInputs (bag : ValueBag) (values : List (String × Value)) : ValueBag :=
  { bag with inputs := BTreeMap.extend bag.inputs values }

def patchStepOutputs (bag : ValueBag) (values : List (String × Value)) : ValueBag :=
  { bag with steps := BTreeMap.extend bag.steps values }

def patchStepStatuses (bag : ValueBag) (values : List (String × String)) : ValueBag :=
  values.foldl (fun bag entry => bag.setStepStatus entry.1 entry.2) bag

/-- The rest of a text after a leading part. -/
def stripPrefix (lead s : String) : Option String :=
  if lead.toList.isPrefixOf s.toList then some (String.ofList (s.toList.drop lead.length))
  else none

def splitDots (s : String) : List String :=
  (s.toList.splitOn '.').map String.ofList

/-- A decimal array index. -/
def parseIndex (part : String) : Option Nat :=
  part.toNat?

def descend : Value → List String → Option Value
  | value, [] => some value
  | .arr items, part :: rest => do
      let index ← parseIndex part
      let value ← items[index]?
      descend value rest
  | value, part :: rest => do
      let value ← value.get part
      descend value rest

/-- The longest of the candidates. -/
def longest : List String → Option String
  | [] => none
  | id :: rest =>
      match longest rest with
      | none => some id
      | some best => if best.length < id.length then some id else some best

/-- Resolves the longest known node path before the outcome field: repair paths
contain dots, so a plain split would cut through a node id. -/
def getStepPath (bag : ValueBag) (path : String) : Option Value := do
  let candidates := (bag.steps.keys ++ bag.statuses.keys ++ bag.reasons.keys).filter fun id =>
    (stripPrefix (id ++ ".") path).isSome
  let id ← longest candidates
  let fields ← stripPrefix (id ++ ".") path
  match splitDots fields with
  | "output" :: rest => descend (← bag.steps[id]?) rest
  | "status" :: rest => descend (← bag.statuses[id]?) rest
  | "reason" :: rest => descend (← bag.reasons[id]?) rest
  | _ => none

def getPath (bag : ValueBag) (path : String) : Option Value :=
  match splitDots path with
  | "inputs" :: key :: rest => do descend (← bag.inputs[key]?) rest
  | "steps" :: _ => do bag.getStepPath (← stripPrefix "steps." path)
  | "item" :: rest => do descend (← bag.item) rest
  | _ => none

end ValueBag

end Qcg
