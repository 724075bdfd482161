import Qcg.Library.Json
import Mathlib.Data.List.Basic

/-!
# Failure details and node paths

The structured reasons that the scheduler attaches to a skipped or failed node, with
the JSON form under which the journal keeps them. Reading back what was written
gives the same detail, so a reason survives a restart unchanged.
-/

namespace Qcg

open Json (Value)

/-- The address of a node execution, compared and stored as its text. -/
abbrev NodePath := String

namespace NodePath

def root (id : String) : NodePath := id

def foreachChild (path : NodePath) (index : Nat) (child : String) : NodePath :=
  path ++ "[" ++ toString index ++ "]/" ++ child

def repairChild (path : NodePath) (attempt : Nat) (child : String) : NodePath :=
  path ++ "@repair." ++ toString attempt ++ "/" ++ child

end NodePath

inductive FailureCode where
  | whenFalse
  | dependencyUnsatisfied
  | noDependencySucceeded
  | checkFailed
  | executionFailed
  | elapsedExceeded
  | timedOut
  | repairExhausted
  | schedulerFailed
  | canceled
  | interrupted
  | budgetExceeded
  | providerContextExhausted
  | refused
  | mcpAuthorizationRequired
deriving DecidableEq, Repr

namespace FailureCode

def asStr : FailureCode → String
  | whenFalse => "when_false"
  | dependencyUnsatisfied => "dependency_unsatisfied"
  | noDependencySucceeded => "no_dependency_succeeded"
  | checkFailed => "check_failed"
  | executionFailed => "execution_failed"
  | elapsedExceeded => "elapsed_exceeded"
  | timedOut => "timed_out"
  | repairExhausted => "repair_exhausted"
  | schedulerFailed => "scheduler_failed"
  | canceled => "canceled"
  | interrupted => "interrupted"
  | budgetExceeded => "budget_exceeded"
  | providerContextExhausted => "provider_context_exhausted"
  | refused => "refused"
  | mcpAuthorizationRequired => "mcp_authorization_required"

def all : List FailureCode :=
  [whenFalse, dependencyUnsatisfied, noDependencySucceeded, checkFailed, executionFailed,
    elapsedExceeded, timedOut, repairExhausted, schedulerFailed, canceled, interrupted,
    budgetExceeded, providerContextExhausted, refused, mcpAuthorizationRequired]

def ofStr (s : String) : Option FailureCode :=
  all.find? fun code => code.asStr = s

end FailureCode

inductive DependencyStatus where
  | skipped
  | failed
deriving DecidableEq, Repr

namespace DependencyStatus

def asStr : DependencyStatus → String
  | skipped => "skipped"
  | failed => "failed"

def ofStr (s : String) : Option DependencyStatus :=
  [skipped, failed].find? fun status => status.asStr = s

end DependencyStatus

structure DependencyFailure where
  path : NodePath
  status : DependencyStatus
  message : String
deriving DecidableEq, Repr

/-- Amounts reported by the budget check that refused. -/
structure BudgetExhaustion where
  resource : String
  used : UInt64
  allowed : UInt64
  usedSubsecNanoseconds : Option UInt32
deriving DecidableEq, Repr

structure FailureDetail where
  code : FailureCode
  message : String
  dependencies : List DependencyFailure := []
  exhaustion : Option BudgetExhaustion := none
deriving DecidableEq, Repr

namespace FailureDetail

def new (code : FailureCode) (message : String) : FailureDetail := { code, message }

end FailureDetail

/-- Whether every member of an object is a declared field. -/
def onlyFields (fields : List String) (members : Json.Members) : Bool :=
  members.all fun member => fields.contains member.1

namespace DependencyFailure

def toValue (d : DependencyFailure) : Value :=
  .obj [("message", .str d.message), ("path", .str d.path), ("status", .str d.status.asStr)]

def ofValue (v : Value) : Option DependencyFailure := do
  let members ← v.asObject
  guard (onlyFields ["path", "status", "message"] members)
  let path ← v.getStr "path"
  let status ← DependencyStatus.ofStr (← v.getStr "status")
  let message ← v.getStr "message"
  return { path, status, message }

end DependencyFailure

namespace BudgetExhaustion

/-- An absent fractional part is left out of the object. -/
def subsecMember : Option UInt32 → Json.Members
  | none => []
  | some nanos => [("used_subsec_nanoseconds", .num nanos.toNat)]

def toValue (b : BudgetExhaustion) : Value :=
  .obj ([("allowed", .num b.allowed.toNat), ("resource", .str b.resource),
    ("used", .num b.used.toNat)] ++ subsecMember b.usedSubsecNanoseconds)

def u64OfValue (v : Value) : Option UInt64 :=
  v.asU64.map UInt64.ofNat

def u32OfValue (v : Value) : Option UInt32 := do
  let n ← v.asU64
  guard (n < 2 ^ 32)
  return UInt32.ofNat n

/-- An optional field is absent, `null`, or a value of its type. -/
def optionalField {α : Type} (decode : Value → Option α) : Option Value → Option (Option α)
  | none => some none
  | some .null => some none
  | some v => (decode v).map some

def ofValue (v : Value) : Option BudgetExhaustion := do
  let members ← v.asObject
  guard (onlyFields ["resource", "used", "allowed", "used_subsec_nanoseconds"] members)
  let resource ← v.getStr "resource"
  let used ← u64OfValue (← v.get "used")
  let allowed ← u64OfValue (← v.get "allowed")
  let usedSubsecNanoseconds ← optionalField u32OfValue (v.get "used_subsec_nanoseconds")
  return { resource, used, allowed, usedSubsecNanoseconds }

end BudgetExhaustion

namespace FailureDetail

/-- Empty dependency lists are left out of the object. -/
def dependenciesMember : List DependencyFailure → Json.Members
  | [] => []
  | ds => [("dependencies", .arr (ds.map DependencyFailure.toValue))]

def exhaustionMember : Option BudgetExhaustion → Json.Members
  | none => []
  | some b => [("exhaustion", b.toValue)]

def toValue (d : FailureDetail) : Value :=
  .obj (("code", .str d.code.asStr) :: dependenciesMember d.dependencies ++
    exhaustionMember d.exhaustion ++ [("message", .str d.message)])

def dependenciesOfValue : Option Value → Option (List DependencyFailure)
  | none => some []
  | some v => do (← v.asArray).mapM DependencyFailure.ofValue

def ofValue (v : Value) : Option FailureDetail := do
  let members ← v.asObject
  guard (onlyFields ["code", "message", "dependencies", "exhaustion"] members)
  let code ← FailureCode.ofStr (← v.getStr "code")
  let message ← v.getStr "message"
  let dependencies ← dependenciesOfValue (v.get "dependencies")
  let exhaustion ← BudgetExhaustion.optionalField BudgetExhaustion.ofValue (v.get "exhaustion")
  return { code, message, dependencies, exhaustion }

end FailureDetail

end Qcg
