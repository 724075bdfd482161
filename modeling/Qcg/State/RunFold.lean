import Qcg.State.Apply

/-!
# The run fold

`RunState.apply` checks an event against the folded position, identity and terminal
state and then runs the arm of its kind; `foldValues` folds a whole journal with the
typed validation of `RunEvent.fromFlat`.
-/

namespace Qcg

open Json (Value Members)

namespace RunState

/-- Sequence numbers are positive and strictly increasing. -/
def checkSeq (lastSeq : Nat) (event : Value) : Except JournalError Nat :=
  match event.getU64 "seq" with
  | none => .ok lastSeq
  | some seq =>
      if seq = 0 then .error (.invalidEvent "journal event seq must be greater than zero")
      else if seq ≤ lastSeq then
        .error (.invalidEvent ("journal event seq " ++ toString seq ++
          " is not greater than last_seq " ++ toString lastSeq))
      else .ok seq

/-- Only admission records rebind the identity; every other event must match it. -/
def checkIdentity (runId : Option String) (kindName : String) (event : Value) :
    Except JournalError Unit :=
  match runId, event.getStr "run_id" with
  | some expected, some actual =>
      if ! ["run_queued", "run_started", "run_forked"].contains kindName && actual != expected then
        .error (.invalidEvent ("run event belongs to `" ++ actual ++ "`, expected `" ++ expected ++
          "`"))
      else .ok ()
  | _, _ => .ok ()

/-- A final run accepts only explicit lifecycle restarts. -/
def checkTerminal (terminal : Option TerminalState) (kind : EventKind) :
    Except JournalError Unit :=
  if terminal.any TerminalState.isFinal && !(kind matches .runQueued | .runStarted | .runResumed)
  then .error (.invalidEvent ("final run cannot accept `" ++ kind.name ++ "`"))
  else .ok ()

def checkSchema (kind : EventKind) (event : Value) : Except JournalError Unit :=
  match kind, event.getU64 "schema_version" with
  | .runQueued, some version | .runStarted, some version =>
      if version ≠ 1 ∧ version ≠ journalSchemaVersion then
        .error (.invalidEvent ("unsupported journal schema_version " ++ toString version ++
          "; this runtime implements " ++ toString journalSchemaVersion))
      else .ok ()
  | _, _ => .ok ()

/-- The accounting mode an identity event declares; only schema 1 may omit it. -/
def identityMode (event : Value) : Except JournalError ElapsedBudgetMode := do
  let version := (event.getU64 "schema_version").getD 1
  let mode ←
    match event.get "elapsed_budget_mode" with
    | some v =>
        match ElapsedBudgetMode.ofValue v with
        | some mode => .ok mode
        | none => .error .json
    | none =>
        if version = 1 then .ok .wallClock
        else .error (.invalidEvent "missing elapsed_budget_mode")
  if version = 1 ∧ mode ≠ .wallClock then
    .error (.invalidEvent "schema 1 has only wall-clock accounting")
  return mode

/-- The first identity is also the zero, closed ledger of active accounting; a missing
ledger is never reconstructed later. -/
def identityLedger (s : FoldState) (mode : ElapsedBudgetMode) :
    Except JournalError FoldState :=
  if s.budget.startedAt.isSome ∧ s.budget.elapsedBudgetMode ≠ mode then
    .error (.invalidEvent "elapsed budget mode changed within lineage")
  else if mode = .activeExecution ∧ s.budget.elapsed.isNone then
    if s.contractSha256.isSome ∨ s.budget.startedAt.isSome ∨ s.executionStarted then
      .error (.invalidEvent "missing active ledger after identity")
    else .ok { s with budget :=
      { s.budget with
        elapsedBudgetMode := mode
        elapsed := some { activeNanoseconds := 0, activeStartedAt := none } } }
  else .ok { s with budget := { s.budget with elapsedBudgetMode := mode } }

/-- Another run id in one journal is only a fork that names its source. -/
def checkLineage (runId : Option String) (event : Value) : Except JournalError Unit :=
  match runId, event.getStr "run_id" with
  | some previous, some next =>
      if previous ≠ next ∧ event.getStr "parent_run_id" ≠ some previous then
        .error (.invalidEvent ("admission for `" ++ next ++ "` does not name `" ++ previous ++
          "` as its parent"))
      else .ok ()
  | _, _ => .ok ()

def admitPackage (s : FoldState) (event : Value) : Except JournalError FoldState :=
  let package := event.getStr "package_sha256"
  if s.packageSha256.isSome ∧ s.packageSha256 ≠ package then
    .error (.invalidEvent "generator package identity changed within lineage")
  else
    let s := { s with
      packageSha256 := package
      generatorPath := event.getStr "generator_path"
      contractSha256 := event.getStr "contract_sha256"
      generatorId := s.generatorId.or ((event.getStr "generator").map generatorIdOf) }
    let s :=
      match FoldState.objectField event "inputs" with
      | some inputs =>
          { s with
            inputs := some (BTreeMap.ofMembers inputs)
            vars := ValueBag.withInputs (BTreeMap.ofMembers inputs) }
      | none => s
    .ok { s with
      terminal := none
      budget := { s.budget with startedAt := s.budget.startedAt.or (event.getStr "ts") } }

/-- Boolean members of an object, the others left out. -/
def boolMembers (members : Members) : List (String × Bool) :=
  members.filterMap fun member => member.2.asBool.map fun b => (member.1, b)

/-- Queue position and pre-provided answers ride on `run_queued`. -/
def admitQueued (s : FoldState) (event : Value) : FoldState :=
  let s :=
    match (event.get "priority").bind Value.asI64 with
    | some priority => { s with priority := clampI32 priority }
    | none => s
  { s with
    parentRunId := event.getStr "parent_run_id"
    queuedAt := FoldState.queuedAtOf event
    answers := BTreeMap.extend s.answers ((FoldState.objectField event "answers").getD [])
    confirmations := BTreeMap.extend s.confirmations
      (boolMembers ((FoldState.objectField event "confirmations").getD [])) }

def admitLabels (s : FoldState) (event : Value) : FoldState :=
  match FoldState.objectField event "labels" with
  | some labels => { s with labels := BTreeMap.extend ∅ (stringMembers labels) }
  | none => s

/-- `run_queued` and `run_started` admit the run under the identity they carry. -/
def applyIdentity (s : RunState) (kind : EventKind) (event : Value) :
    Except JournalError RunState := do
  let mode ← identityMode event
  let f ← identityLedger s.toFoldState mode
  checkLineage s.runId event
  let f ← admitPackage f event
  let f := if kind = .runQueued then admitQueued f event else f
  let f := if kind = .runStarted then { f with executionStarted := true } else f
  return { s with toFoldState := admitLabels f event, runId := event.getStr "run_id" }

/-- The arm of a kind, after the checks that every event passes. -/
def applyKind (api : Api) (s : RunState) (kind : EventKind) (event : Value) :
    Except JournalError RunState :=
  match kind with
  | .runQueued | .runStarted => s.applyIdentity kind event
  | .elapsedAccounted => do
      let f ← s.toFoldState.applyElapsedAccounted api s.runId event
      return { s with toFoldState := f }
  | .runForked => .ok { s with runId := event.getStr "run_id" }
  | kind => do
      let f ← s.toFoldState.applyRecord api kind event
      return { s with toFoldState := f }

def apply (api : Api) (s : RunState) (event : Value) : Except JournalError RunState := do
  let lastSeq ← checkSeq s.lastSeq event
  let kindName ← required (event.getStr "t") "event kind is required"
  checkIdentity s.runId kindName event
  let kind ← required (EventKind.ofName kindName) ("unknown run event kind `" ++ kindName ++ "`")
  checkTerminal s.terminal kind
  checkSchema kind event
  let s := { s with lastSeq, toFoldState := s.toFoldState.noteSearchCost kind event }
  s.applyKind api kind event

/-- One journaled value with its typed validation. -/
def applyChecked (api : Api) (s : RunState) (event : Value) : Except JournalError RunState :=
  match RunEvent.fromFlat api event with
  | .error message => .error (.invalidEvent ("invalid journal event: " ++ message))
  | .ok _ => s.apply api event

def foldFrom (api : Api) (s : RunState) (events : List Value) : Except JournalError RunState :=
  events.foldlM (applyChecked api) s

/-- Folds already read values from the empty state. -/
def foldValues (api : Api) (events : List Value) : Except JournalError RunState :=
  foldFrom api {} events

end RunState

end Qcg
