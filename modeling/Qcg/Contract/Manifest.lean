import Qcg.State.Types

/-!
# Manifest and node definitions

The parts of a generator manifest that flow construction and the scheduler read.
-/

namespace Qcg

open Json (Value)

/-- When a node runs, given the outcomes of its needs. -/
inductive OnDeps where
  | allSucceeded
  | anySucceeded
  | noneFailed
deriving DecidableEq, Repr

/-- What happens when repair or regeneration attempts run out. -/
inductive ExhaustedAction where
  | fail
  | route (target : String)
  | askUser (title : Option String) (fields : List Value)
deriving DecidableEq

inductive OnFail where
  | repair (repair recheck : String) (maxAttempts : Nat) (onExhausted : ExhaustedAction)
  | regenerate (maxAttempts : Nat) (onExhausted : ExhaustedAction)
  | askUser
  | route (target : String)
  | fail
deriving DecidableEq

structure RetryPolicy where
  maxAttempts : Nat := 1
  onIndeterminate : RetryOnIndeterminate := .fail
deriving DecidableEq, Repr

structure NodeDef where
  id : String
  kind : String
  needs : List String := []
  when_ : Option String := none
  onDeps : OnDeps := .allSucceeded
  output : Option String := none
  onFail : Option OnFail := none
  retry : Option RetryPolicy := none
  params : BTreeMap Value := ∅
deriving DecidableEq

namespace NodeDef

def paramStr (node : NodeDef) (key : String) : Option String :=
  (node.params[key]?).bind Value.asStr

end NodeDef

structure Manifest where
  flow : List NodeDef
  parallel : List String := []
  blocks : BTreeMap (List NodeDef) := ∅

end Qcg
