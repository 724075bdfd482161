import Qcg.Contract.Manifest
import Qcg.Library.Kahn
import Qcg.Library.Checked

/-!
# The flow graph

Construction of the graph from a manifest: implicit dependencies, reference checks
and the topological order. A `Graph` carries what construction establishes, so the
scheduler never meets an order that misses a node or lists a need too late.
-/

namespace Qcg

inductive NodeState where
  | pending
  | running
  | success
  | skipped (reason : FailureDetail)
  | failed (reason : FailureDetail)
deriving DecidableEq, Repr

namespace NodeState

def isTerminal : NodeState → Bool
  | pending | running => false
  | success | skipped _ | failed _ => true

def isSuccess : NodeState → Bool
  | success => true
  | _ => false

def isFailed : NodeState → Bool
  | failed _ => true
  | _ => false

/-- Terminal without a failure. -/
def isUnfailed : NodeState → Bool
  | success | skipped _ => true
  | _ => false

end NodeState

def needsOf (nodes : BTreeMap NodeDef) (id : String) : List String :=
  match nodes[id]? with
  | some node => node.needs
  | none => []

def Keyed (nodes : BTreeMap NodeDef) : Prop :=
  ∀ (id : String) (node : NodeDef), nodes[id]? = some node → node.id = id

structure Graph where
  nodes : BTreeMap NodeDef
  order : List String
  keyed : Keyed nodes
  /-- The order lists exactly the nodes, each once. -/
  complete : order.Perm nodes.keys
  /-- The order lists every need before the node that names it. -/
  sorted : Kahn.Sorted (needsOf nodes) order

def parallelIndices (m : Manifest) : Except String (List Nat) :=
  m.parallel.mapM fun id =>
    match m.flow.findIdx? fun node => node.id = id with
    | some index => .ok index
    | none => .error ("parallel references unknown node `" ++ id ++ "`")

def parallelRange (indices : List Nat) : Except String (Option (Nat × Nat)) :=
  match indices.min?, indices.max? with
  | some first, some last =>
      if indices.length < 2 then .error "parallel must contain at least two node ids"
      else if last - first + 1 ≠ indices.length then
        .error "parallel node ids must be contiguous in flow order"
      else if (List.range' first (last - first + 1)).any fun index => !indices.contains index then
        .error "parallel node ids must be unique and contiguous"
      else .ok (some (first, last))
  | _, _ => .ok none

/-- Members of the group need the entry before it; the entry after it needs them all. -/
def linkParallel (m : Manifest) (first last : Nat) : Except String (List NodeDef) :=
  let anchor := if first = 0 then none else (m.flow[first - 1]?).map NodeDef.id
  m.flow.zipIdx.mapM fun (node, index) =>
    if first ≤ index ∧ index ≤ last then
      if node.needs ≠ [] then
        .error ("parallel node `" ++ node.id ++ "` must not also declare needs")
      else .ok { node with needs := anchor.toList }
    else if index = last + 1 ∧ node.needs = [] then .ok { node with needs := m.parallel }
    else .ok node

def inRange : Option (Nat × Nat) → Nat → Bool
  | none, _ => false
  | some (first, last), index => first ≤ index && index ≤ last

def linkSequential (flow : List NodeDef) (range : Option (Nat × Nat)) : List NodeDef :=
  flow.zipIdx.map fun (node, index) =>
    if node.needs = [] ∧ index ≠ 0 ∧ inRange range index = false then
      { node with needs := (flow[index - 1]?).toList.map NodeDef.id }
    else node

def flowWithImplicitDependencies (m : Manifest) : Except String (List NodeDef) := do
  let indices ← parallelIndices m
  let range ← parallelRange indices
  let flow ←
    match range with
    | some (first, last) => linkParallel m first last
    | none => .ok m.flow
  return linkSequential flow range

def validateExhaustedRef (node : NodeDef) (nodes : BTreeMap NodeDef) :
    ExhaustedAction → Except String Unit
  | .fail | .askUser _ _ => .ok ()
  | .route target =>
      if nodes.contains target then .ok ()
      else .error ("node `" ++ node.id ++
        "` on_fail on_exhausted route references unknown node `" ++ target ++ "`")

def validateOnFailRefs (node : NodeDef) (nodes : BTreeMap NodeDef) : Except String Unit :=
  match node.onFail with
  | some (.repair repair recheck _ onExhausted) =>
      if !nodes.contains repair then
        .error ("node `" ++ node.id ++ "` on_fail repair references unknown node `" ++ repair ++
          "`")
      else if !nodes.contains recheck then
        .error ("node `" ++ node.id ++ "` on_fail recheck references unknown node `" ++ recheck ++
          "`")
      else validateExhaustedRef node nodes onExhausted
  | some (.route target) =>
      if nodes.contains target then .ok ()
      else .error ("node `" ++ node.id ++ "` on_fail route references unknown node `" ++ target ++
        "`")
  | some (.regenerate _ onExhausted) => validateExhaustedRef node nodes onExhausted
  | some .askUser | some .fail | none => .ok ()

def validateForeach (m : Manifest) (node : NodeDef) : Except String Unit :=
  if node.kind = "foreach" then
    match node.paramStr "subflow" with
    | none => .error ("foreach node `" ++ node.id ++ "` must declare subflow")
    | some subflow =>
        match m.blocks[subflow]? with
        | none =>
            .error ("foreach node `" ++ node.id ++ "` references unknown block `" ++ subflow ++ "`")
        | some block =>
            match block.find? fun child => child.needs ≠ [] with
            | some child =>
                .error ("foreach block `" ++ subflow ++ "` child `" ++ child.id ++
                  "` must not declare `needs`; block children run in declared order")
            | none => .ok ()
  else .ok ()

def validateNode (m : Manifest) (nodes : BTreeMap NodeDef) (node : NodeDef) :
    Except String Unit := do
  match node.needs.find? fun need => !nodes.contains need with
  | some need =>
      .error ("node `" ++ node.id ++ "` depends on unknown node `" ++ need ++ "`")
  | none => .ok ()
  validateOnFailRefs node nodes
  validateForeach m node

theorem Keyed.insert {nodes : BTreeMap NodeDef} (h : Keyed nodes) (node : NodeDef) :
    Keyed (nodes.insert node.id node) := by
  intro id other hother
  rw [BTreeMap.get_insert] at hother
  split_ifs at hother with hid
  · cases hother
    exact hid.symm
  · exact h id other hother

def addNode (nodes : { nodes : BTreeMap NodeDef // Keyed nodes }) (node : NodeDef) :
    Except String { nodes : BTreeMap NodeDef // Keyed nodes } :=
  if nodes.1.contains node.id then .error ("duplicate node `" ++ node.id ++ "`")
  else .ok ⟨nodes.1.insert node.id node, nodes.2.insert node⟩

theorem keyed_empty : Keyed ∅ := by
  intro id node h
  simp at h

def cycleMessage (nodes : BTreeMap NodeDef) (order : List String) : String :=
  "cycle detected involving " ++
    ", ".intercalate (nodes.keys.filter fun id => !order.contains id)

def topoSort (nodes : BTreeMap NodeDef) (keyed : Keyed nodes) : Except String Graph :=
  let order := Kahn.sort nodes.keys (needsOf nodes)
  if h : order.length = nodes.keys.length then
    .ok {
      nodes, order, keyed
      complete := Kahn.sort_perm Std.ExtTreeMap.nodup_keys h
      sorted := Kahn.sort_sorted Std.ExtTreeMap.nodup_keys }
  else .error (cycleMessage nodes order)

namespace Graph

def build (m : Manifest) : Except String Graph := do
  let flow ← flowWithImplicitDependencies m
  let nodes ← flow.foldlM addNode ⟨∅, keyed_empty⟩
  nodes.1.values.forM (validateNode m nodes.1)
  topoSort nodes.1 nodes.2

/-- Whether an id is in a state that a policy asks for. -/
def needIs (states : BTreeMap NodeState) (p : NodeState → Bool) (need : String) : Bool :=
  (states[need]?).any p

def needsSatisfied (node : NodeDef) (states : BTreeMap NodeState) : Bool :=
  if node.needs.isEmpty then true
  else
    match node.onDeps with
    | .allSucceeded => node.needs.all (needIs states NodeState.isSuccess)
    | .anySucceeded => node.needs.any (needIs states NodeState.isSuccess)
    | .noneFailed => node.needs.all (needIs states NodeState.isUnfailed)

def failedNeeds (node : NodeDef) (states : BTreeMap NodeState) : List DependencyFailure :=
  node.needs.filterMap fun need =>
    match (states[need]? : Option NodeState) with
    | some (.skipped reason) =>
        some { path := need, status := .skipped, message := reason.message }
    | some (.failed reason) =>
        some { path := need, status := .failed, message := reason.message }
    | _ => none

def dependencyMessage (failure : DependencyFailure) : String :=
  "dependency `" ++ failure.path ++ "` " ++ failure.status.asStr ++ ": " ++ failure.message

def dependencyFailure (node : NodeDef) (states : BTreeMap NodeState) (code : FailureCode) :
    Option FailureDetail :=
  let dependencies := failedNeeds node states
  if dependencies.isEmpty then none
  else
    let message :=
      if code = .noDependencySucceeded then "on_deps=any_succeeded had no successful dependency"
      else "; ".intercalate (dependencies.map dependencyMessage)
    some { FailureDetail.new code message with dependencies }

def shouldSkipByDependencies (node : NodeDef) (states : BTreeMap NodeState) :
    Option FailureDetail :=
  if node.needs.isEmpty then none
  else
    match node.onDeps with
    | .allSucceeded => dependencyFailure node states .dependencyUnsatisfied
    | .anySucceeded =>
        if node.needs.all (needIs states NodeState.isTerminal) &&
            !node.needs.any (needIs states NodeState.isSuccess) then
          dependencyFailure node states .noDependencySucceeded
        else none
    | .noneFailed =>
        if node.needs.all (needIs states NodeState.isTerminal) &&
            node.needs.any (needIs states NodeState.isFailed) then
          dependencyFailure node states .dependencyUnsatisfied
        else none

end Graph

end Qcg
