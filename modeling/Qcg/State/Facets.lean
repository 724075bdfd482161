import Qcg.State.View

/-!
# Accounts of the run fold

Accounts that the fold keeps side by side: what the run has used, which prompts it shows and
which responses it took, which file revisions and resources it pins and whether it has ended.
Each has a transition of
its own here, total and without refusals, and an accepted record moves every account by
its transition.
-/

namespace Qcg

open Except (bind_eq_ok)

open Json (Value Members)

/-- Who asked what, by which record, and the prompt that is shown. -/
structure Prompts where
  pending : Option Interaction := none
  pendingSeq : Option Nat := none
  interactions : BTreeMap Interaction := ∅
  seqs : BTreeMap Nat := ∅

namespace Prompts

/-- Shows the prompt of the first owner. -/
def project (p : Prompts) : Prompts :=
  { p with
    pending := p.interactions.first?.map Prod.snd
    pendingSeq := p.interactions.first?.bind fun entry => p.seqs[entry.1]? }

def retire (p : Prompts) (path : String) : Prompts :=
  let retired := p.interactions[path]?
  let p := { p with interactions := p.interactions.erase path }
  let p :=
    match retired, p.pending with
    | some retired, some pending =>
        if pending.responseIdentity = retired.responseIdentity then p.project else p
    | _, _ => p
  { p with seqs := p.seqs.erase path }

/-- The seqs after the owner's prompt was asked anew, by a record with or without a position. -/
def stampSeq (seqs : BTreeMap Nat) (owner : String) (seq : Option Nat) : BTreeMap Nat :=
  match seq with
  | some seq => (seqs.erase owner).insert owner seq
  | none => seqs.erase owner

def install (p : Prompts) (owner : Option String) (interaction : Interaction)
    (seq : Option Nat) : Prompts :=
  match owner with
  | some owner =>
      ({ p with
        seqs := stampSeq p.seqs owner seq
        interactions := p.interactions.insert owner interaction } : Prompts).project
  | none => { p with pending := some interaction, pendingSeq := seq }

def owner (p : Prompts) (event : Value) (interaction : Interaction) : Option String :=
  match event.getStr "node" with
  | some path => some path
  | none =>
      (p.interactions.toList.find? fun entry =>
        entry.2.responseIdentity = interaction.responseIdentity).map Prod.fst

end Prompts

def promptOf (api : Api) (event : Value) (confirmation : Bool) : Option Interaction :=
  (event.get (if confirmation then "confirm" else "question")).bind fun payload =>
    FoldState.interactionOf api payload confirmation

namespace Prompts

def request (api : Api) (p : Prompts) (event : Value) (confirmation : Bool) : Prompts :=
  match promptOf api event confirmation with
  | some interaction =>
      p.install (p.owner event interaction) interaction (event.getU64 "seq")
  | none => p

def respond (p : Prompts) (kind : EventKind) (event : Value) : Prompts :=
  let interactions := p.interactions.filter fun _ i => !FoldState.settles kind event i
  let p := { p with
    interactions
    seqs := p.seqs.filter fun owner _ => interactions.contains owner }
  if p.pending.any (FoldState.settles kind event) then p.project else p

def report (api : Api) (p : Prompts) (event : Value) : Prompts :=
  let status := (event.getStr "status").getD ""
  if FoldState.suspendedStatus status then p.request api event (status = "needs_confirm")
  else p.retire ((event.getStr "node").getD "")

def step (api : Api) (p : Prompts) (kind : EventKind) (event : Value) : Prompts :=
  match kind with
  | .stepFinished => p.report api event
  | .stepSkipped =>
      match event.getStr "node" with
      | some path => p.retire path
      | none => p
  | .confirmRequest => p.request api event true
  | .runWaiting => p.request api event false
  | .userAnswered | .userConfirmed => p.respond kind event
  | .runFinished | .runError | .runCanceled | .runInterrupted =>
      { p with pending := none, pendingSeq := none }
  | _ => p

end Prompts

/-- The revisions of workspace files: the current ones, all there ever were, and the paths
whose file was removed. -/
structure Pins where
  latest : BTreeMap String := ∅
  historical : BTreeMap BTreeSet := ∅
  removed : BTreeSet := ∅

def pinList (event : Value) (key : String) : List FilePin :=
  ((event.get key).bind FilePin.listOfValue).getD []

def changesOf (event : Value) : AgentFileChanges :=
  match RunEvent.envelope event with
  | .ok parsed => (AgentFileChanges.ofValue parsed.data).getD ⟨[], []⟩
  | .error _ => ⟨[], []⟩

namespace Pins

def record (p : Pins) (pins : List FilePin) : Pins :=
  let keep := fun (m : BTreeMap BTreeSet) (pin : FilePin) =>
    m.insert pin.path ((m.getD pin.path ∅).insert pin.sha256)
  { p with historical := pins.foldl keep p.historical }

def write (p : Pins) (files : List FilePin) : Pins :=
  { p with
    latest := files.foldl (fun m pin => m.insert pin.path pin.sha256) p.latest
    removed := files.foldl (fun m pin => m.erase pin.path) p.removed }

def change (p : Pins) (changes : AgentFileChanges) : Pins :=
  { p with
    latest := changes.removedFiles.foldl (fun m path => m.erase path) p.latest
    removed := changes.writtenFiles.foldl (fun m path => m.erase path)
      (changes.removedFiles.foldl (fun m path => m.insert path) p.removed) }

/-- The pins of a report under a status; only some statuses move the workspace. -/
def report (p : Pins) (event : Value) (projects : Bool) : Pins :=
  let kept := p.record (pinList event "files" ++ pinList event "failed_files")
  if projects then kept.write (pinList event "files") else kept

end Pins

/-- Statuses whose files the workspace takes over. -/
def projectsWorkspace (status : String) : Bool :=
  FoldState.succeededStatus status || FoldState.suspendedStatus status

def Pins.step (p : Pins) (kind : EventKind) (event : Value) : Pins :=
  match kind with
  | .agentFileChanges => p.change (changesOf event)
  | .stepFinished => p.report event (projectsWorkspace ((event.getStr "status").getD ""))
  | .confirmRequest =>
      if (event.get "files").isSome ∧ (event.get "node").isSome then p.report event true else p
  | _ => p

/-- The amount of a charge; one when the record names none. -/
def amountOf (event : Value) : Nat :=
  match event.get "amount" with
  | none => 1
  | some v => v.asU64.getD 0

/-- A token count of a model call; zero when the call reports none. -/
def tokensOf (event : Value) (name : String) : Nat :=
  match (event.get "tokens").filter Value.isObject with
  | some tokens => (tokens.getU64 name).getD 0
  | none => 0

def BudgetState.step (b : BudgetState) (kind : EventKind) (event : Value) : BudgetState :=
  match kind with
  | .stepStarted => { b with stepsExecuted := b.stepsExecuted + 1 }
  | .budgetCharged =>
      { b with budgetCharged := b.budgetCharged + amountOf event, hasBudgetCharges := true }
  | .repairAttemptStarted => { b with repairAttempts := b.repairAttempts + 1 }
  | .regenerateAttemptStarted => { b with regenerateAttempts := b.regenerateAttempts + 1 }
  | .llmCall =>
      { b with
        llmCalls := b.llmCalls + 1
        tokensInput := b.tokensInput + tokensOf event "input"
        tokensOutput := b.tokensOutput + tokensOf event "output"
        tokensCachedInput := b.tokensCachedInput + tokensOf event "cached_input"
        tokensCacheCreationInput :=
          b.tokensCacheCreationInput + tokensOf event "cache_creation_input"
        costMicrousd := b.costMicrousd + (event.getU64 "cost_microusd").getD 0 }
  | .stepFinished =>
      let status := (event.getStr "status").getD ""
      if FoldState.suspendedStatus status then b
      else if FoldState.succeededStatus status then
        { b with stepsSucceeded := b.stepsSucceeded + 1 }
      else { b with stepsFailed := b.stepsFailed + 1 }
  | .stepSkipped => { b with stepsSkipped := b.stepsSkipped + 1 }
  | _ => b

/-- How a record opens or ends a run. -/
def terminalStep (terminal : Option TerminalState) (kind : EventKind) (event : Value) :
    Option TerminalState :=
  match kind with
  | .runResumed | .userAnswered | .userConfirmed => none
  | .runFinished | .runError | .runCanceled | .runInterrupted =>
      some (FoldState.terminalOf kind (event.getStr "status"))
  | _ => terminal

/-- What was answered and decided, and whether a cancel was asked for. -/
structure Responses where
  answers : BTreeMap Value
  confirmations : BTreeMap Bool
  cancelRequested : Bool

namespace Responses

def answer (r : Responses) (event : Value) : Responses :=
  match event.getStr "question_id", event.get "values" with
  | some id, some values => { r with answers := r.answers.insert id values }
  | _, _ => r

def decide (r : Responses) (event : Value) : Responses :=
  match event.getStr "confirmation_id", (event.get "approved").bind Value.asBool with
  | some id, some approved => { r with confirmations := r.confirmations.insert id approved }
  | _, _ => r

def step (r : Responses) (kind : EventKind) (event : Value) : Responses :=
  match kind with
  | .userAnswered => r.answer event
  | .userConfirmed => r.decide event
  | .userCancelRequested => { r with cancelRequested := true }
  | _ => r

end Responses

/-- The accounts together, with the part of the identity that no record moves. -/
structure Facets where
  contractSha256 : Option String
  packageSha256 : Option String
  generatorId : Option String
  executionStarted : Bool
  budget : BudgetState
  prompts : Prompts
  pins : Pins
  terminal : Option TerminalState
  resources : BTreeMap String
  responses : Responses

def resourceStep (pins : BTreeMap String) (kind : EventKind) (event : Value) : BTreeMap String :=
  match kind, event.getStr "name", event.getStr "sha256" with
  | .resource, some name, some digest => pins.insert name digest
  | _, _, _ => pins

def Facets.step (api : Api) (f : Facets) (kind : EventKind) (event : Value) : Facets :=
  { f with
    budget := f.budget.step kind event
    prompts := f.prompts.step api kind event
    pins := f.pins.step kind event
    terminal := terminalStep f.terminal kind event
    resources := resourceStep f.resources kind event
    responses := f.responses.step kind event }

namespace FoldState

def prompts (s : FoldState) : Prompts where
  pending := s.pending
  pendingSeq := s.pendingSeq
  interactions := s.pendingInteractions
  seqs := s.interactionSeqs

def pins (s : FoldState) : Pins where
  latest := s.latestFilePins
  historical := s.historicalFilePins
  removed := s.removedFiles

def responses (s : FoldState) : Responses where
  answers := s.answers
  confirmations := s.confirmations
  cancelRequested := s.cancelRequested

def facets (s : FoldState) : Facets where
  contractSha256 := s.contractSha256
  packageSha256 := s.packageSha256
  generatorId := s.generatorId
  executionStarted := s.executionStarted
  budget := s.budget
  prompts := s.prompts
  pins := s.pins
  terminal := s.terminal
  resources := s.resourcePins
  responses := s.responses

variable {api : Api} {s s' : FoldState} {event : Value} {kind : EventKind} {path status : String}

theorem retireInteraction_facets (s : FoldState) (path : String) :
    (s.retireInteraction path).facets = { s.facets with prompts := s.prompts.retire path } := by
  unfold retireInteraction Prompts.retire
  simp only [prompts]
  cases (s.pendingInteractions[path]? : Option Interaction) with
  | none => rfl
  | some retired =>
    cases hpending : s.pending with
    | none => simp [facets, prompts, hpending, pins, responses]
    | some pending =>
      simp only
      split_ifs <;> simp [facets, prompts, projectInteraction, Prompts.project, pins, responses]

theorem installInteraction_facets {confirmation : Bool}
    (h : s.installInteraction api event confirmation = .ok s') :
    s'.facets = { s.facets with prompts := s.prompts.request api event confirmation } := by
  unfold installInteraction at h
  split at h
  · next hnone =>
    cases h
    simp [Prompts.request, promptOf, hnone]
    rfl
  · next payload hpayload =>
    obtain ⟨interaction, hinteraction, h⟩ := bind_eq_ok.mp h
    have hprompt : promptOf api event confirmation = some interaction := by
      simp only [promptOf, hpayload, Option.bind_some]
      exact required_eq_ok.mp hinteraction
    have howner : s.prompts.owner event interaction = s.interactionOwner event interaction := rfl
    simp only [Prompts.request, hprompt, howner]
    split at h
    · next owner hsome =>
      cases h
      rw [hsome]
      cases event.getU64 "seq" <;> rfl
    · next hnone =>
      cases h
      rw [hnone]
      rfl

theorem recordHistoricalPins_facets (s : FoldState) (pins : List FilePin) :
    (s.recordHistoricalPins pins).facets = { s.facets with pins := s.pins.record pins } := by
  induction pins generalizing s with
  | nil => rfl
  | cons pin pins ih =>
    rw [recordHistoricalPins, List.foldl_cons, ← recordHistoricalPins, ih]
    rfl

theorem applyWorkspaceFilePins_facets (s : FoldState) (files : List FilePin) :
    (s.applyWorkspaceFilePins files).facets = { s.facets with pins := s.pins.write files } := by
  induction files generalizing s with
  | nil => rfl
  | cons pin files ih =>
    rw [applyWorkspaceFilePins, List.foldl_cons, ← applyWorkspaceFilePins, ih]
    rfl

theorem pinList_of_pinsOf {key : String} {pins : List FilePin}
    (h : pinsOf event key = .ok pins) : pinList event key = pins := by
  unfold pinsOf at h
  unfold pinList
  split at h
  · next hnone =>
    cases h
    simp [hnone]
  · next v hv =>
    simp [hv, required_eq_ok.mp h]

theorem finishExecution_facets (h : s.finishExecution path = .ok s') :
    s'.facets = { s.facets with prompts := s.prompts.retire path } := by
  obtain ⟨_, _, h⟩ := bind_eq_ok.mp h
  cases h
  exact retireInteraction_facets { s with checkpoints := s.checkpoints.erase path } path

theorem recordSuccess_facets {files : List FilePin}
    (h : s.recordSuccess event path files = .ok s') :
    s'.facets = { s.facets with
      budget := { s.budget with stepsSucceeded := s.budget.stepsSucceeded + 1 } } := by
  obtain ⟨n, hn, h⟩ := bind_eq_ok.mp h
  obtain ⟨-, rfl⟩ := checkedAdd_eq_ok.mp hn
  cases h
  rfl

theorem recordFailure_facets (h : s.recordFailure event path status = .ok s') :
    s'.facets = { s.facets with
      budget := { s.budget with stepsFailed := s.budget.stepsFailed + 1 } } := by
  obtain ⟨n, hn, h⟩ := bind_eq_ok.mp h
  obtain ⟨-, rfl⟩ := checkedAdd_eq_ok.mp hn
  obtain ⟨_, _, h⟩ := bind_eq_ok.mp h
  cases h
  rfl

theorem applyStepFinished_facets (h : s.applyStepFinished api event = .ok s') :
    s'.facets = { s.facets with
      budget := s.budget.step .stepFinished event
      prompts := s.prompts.report api event
      pins := s.pins.step .stepFinished event } := by
  obtain ⟨path, hpath, h⟩ := bind_eq_ok.mp h
  obtain ⟨status, hstatus, h⟩ := bind_eq_ok.mp h
  obtain ⟨files, hfiles, h⟩ := bind_eq_ok.mp h
  obtain ⟨failedFiles, hfailed, h⟩ := bind_eq_ok.mp h
  rw [required_eq_ok] at hpath hstatus
  have hlist := pinList_of_pinsOf hfiles
  have hfailedList := pinList_of_pinsOf hfailed
  -- The pins first: both updates leave every other account alone.
  obtain ⟨t, ht, h⟩ : ∃ t : FoldState,
      t.facets = { s.facets with pins := s.pins.step .stepFinished event } ∧
      (if suspendedStatus status then installInteraction api t event (status = "needs_confirm")
        else if succeededStatus status then
          t.recordSuccess event path files >>= fun u => u.finishExecution path
        else t.recordFailure event path status >>= fun u => u.finishExecution path) = .ok s' := by
    refine ⟨_, ?_, h⟩
    simp only [Pins.step, Pins.report, hstatus, Option.getD_some, projectsWorkspace, hlist,
      hfailedList]
    split_ifs
    · rw [applyWorkspaceFilePins_facets]
      have hkept := recordHistoricalPins_facets s (files ++ failedFiles)
      exact congrArg (fun f : Facets => { f with pins := f.pins.write files }) hkept
    · exact recordHistoricalPins_facets s (files ++ failedFiles)
  have hprompts : t.prompts = s.prompts := congrArg Facets.prompts ht
  have hbudget : t.budget = s.budget := congrArg Facets.budget ht
  simp only [BudgetState.step, Prompts.report, hstatus, hpath, Option.getD_some]
  split_ifs at h ⊢
  · rw [installInteraction_facets h, hprompts, ht]
    rfl
  · obtain ⟨u, hu, h⟩ := bind_eq_ok.mp h
    have hsuccess := recordSuccess_facets hu
    have hretired : u.prompts = s.prompts :=
      (congrArg Facets.prompts hsuccess).trans hprompts
    rw [finishExecution_facets h, hretired, hsuccess, ht, hbudget]
  · obtain ⟨u, hu, h⟩ := bind_eq_ok.mp h
    have hfailure := recordFailure_facets hu
    have hretired : u.prompts = s.prompts :=
      (congrArg Facets.prompts hfailure).trans hprompts
    rw [finishExecution_facets h, hretired, hfailure, ht, hbudget]

theorem applyStepSkipped_facets (h : s.applyStepSkipped event = .ok s') :
    s'.facets = s.facets.step api .stepSkipped event := by
  obtain ⟨n, hn, h⟩ := bind_eq_ok.mp h
  obtain ⟨-, rfl⟩ := checkedAdd_eq_ok.mp hn
  cases hpath : event.getStr "node" with
  | none =>
    simp only [hpath] at h
    cases h
    simp only [Facets.step, Prompts.step, hpath]
    rfl
  | some path =>
    simp only [hpath] at h
    obtain ⟨reason, _, h⟩ := bind_eq_ok.mp h
    cases h
    simp only [Facets.step, Prompts.step, hpath]
    exact retireInteraction_facets
      { s with
        budget := { s.budget with stepsSkipped := s.budget.stepsSkipped + 1 }
        nodes := s.nodes.insert path (.skipped reason) } path

end FoldState

namespace Prompts

variable {api : Api} {event event' : Value} {confirmation : Bool} (p : Prompts)

theorem install_install (owner : String) (interaction : Interaction) (seq : Option Nat) :
    (p.install (some owner) interaction seq).install (some owner) interaction seq =
      p.install (some owner) interaction seq := by
  have hseqs : stampSeq (stampSeq p.seqs owner seq) owner seq = stampSeq p.seqs owner seq := by
    apply Std.ExtTreeMap.ext_getElem?
    intro k
    cases seq <;> simp only [stampSeq, BTreeMap.get_insert,
      BTreeMap.get_erase] <;> split_ifs <;> rfl
  simp only [install, project, BTreeMap.insert_insert_self, hseqs]

theorem request_congr
    (hprompt : event'.get (if confirmation then "confirm" else "question") =
      event.get (if confirmation then "confirm" else "question"))
    (hnode : event'.getStr "node" = event.getStr "node")
    (hseq : event'.getU64 "seq" = event.getU64 "seq") :
    p.request api event' confirmation = p.request api event confirmation := by
  unfold request promptOf owner
  rw [hprompt, hnode, hseq]

/-- Asking again with the same record changes nothing. -/
theorem request_request {path : String} (hnode : event.getStr "node" = some path) :
    (p.request api event confirmation).request api event confirmation =
      p.request api event confirmation := by
  unfold request
  cases promptOf api event confirmation with
  | none => rfl
  | some interaction =>
    simp only [owner, hnode]
    exact install_install p path interaction _

end Prompts

namespace FoldState

variable {api : Api} {s s' : FoldState} {event : Value} {kind : EventKind}

/-- A confirmation that lists files is folded as a suspended report first; its prompt is then
installed a second time. -/
theorem confirmReport_facets {members : Members}
    (h : s.applyStepFinished api (.obj (Members.insert members "status" (.str "needs_confirm"))) =
      .ok s') :
    (∃ path, Value.getStr (.obj members) "node" = some path) ∧
      s'.facets = { s.facets with
        prompts := s.prompts.request api (.obj members) true
        pins := s.pins.report (.obj members) true } := by
  have hget : ∀ key, key ≠ "status" →
      Value.get (.obj (Members.insert members "status" (.str "needs_confirm"))) key =
        Value.get (.obj members) key := by
    intro key hkey
    simp [Members.get_insert_of_ne members _ hkey]
  have hstatus : Value.getStr (.obj (Members.insert members "status" (.str "needs_confirm")))
      "status" = some "needs_confirm" := by
    simp [Value.getStr]
  have hstr : ∀ key, key ≠ "status" →
      Value.getStr (.obj (Members.insert members "status" (.str "needs_confirm"))) key =
        Value.getStr (.obj members) key := by
    intro key hkey
    rw [Value.getStr, hget key hkey, Value.getStr]
  obtain ⟨path, hpath, -⟩ := bind_eq_ok.mp h
  rw [required_eq_ok, hstr _ (by decide)] at hpath
  refine ⟨⟨path, hpath⟩, ?_⟩
  rw [applyStepFinished_facets h]
  have hprompts : s.prompts.report api
      (.obj (Members.insert members "status" (.str "needs_confirm"))) =
        s.prompts.request api (.obj members) true := by
    simp only [Prompts.report, hstatus, Option.getD_some]
    rw [if_pos (by decide)]
    refine Prompts.request_congr s.prompts (hget _ (by decide)) (hstr _ (by decide)) ?_
    rw [Value.getU64, hget _ (by decide), Value.getU64]
  have hpins : s.pins.step .stepFinished
      (.obj (Members.insert members "status" (.str "needs_confirm"))) =
        s.pins.report (.obj members) true := by
    simp only [Pins.step, Pins.report, pinList, hstatus, Option.getD_some, hget "files" (by decide),
      hget "failed_files" (by decide)]
    rfl
  have hbudget : s.budget.step .stepFinished
      (.obj (Members.insert members "status" (.str "needs_confirm"))) = s.budget := by
    simp only [BudgetState.step, hstatus, Option.getD_some]
    rfl
  rw [hprompts, hpins, hbudget]
  rfl

theorem applyConfirmRequest_facets
    (h : s.applyInteractionRequest api .confirmRequest event = .ok s') :
    s'.facets = s.facets.step api .confirmRequest event := by
  unfold applyInteractionRequest at h
  simp only [Facets.step, Prompts.step, Pins.step]
  cases event with
  | obj members =>
    simp only at h
    split_ifs at h ⊢ with hlists
    · obtain ⟨t, ht, h⟩ := bind_eq_ok.mp h
      obtain ⟨⟨path, hpath⟩, hreport⟩ := confirmReport_facets ht
      have hinstall : t.installInteraction api (.obj members) true = .ok s' := h
      have hprompts : t.prompts = s.prompts.request api (.obj members) true :=
        congrArg Facets.prompts hreport
      rw [installInteraction_facets hinstall, hprompts, Prompts.request_request _ hpath, hreport]
      rfl
    · obtain ⟨t, ht, h⟩ := bind_eq_ok.mp h
      cases ht
      exact installInteraction_facets h
  | _ =>
    obtain ⟨t, ht, h⟩ := bind_eq_ok.mp h
    cases ht
    exact installInteraction_facets h

theorem applyRunWaiting_facets (h : s.applyInteractionRequest api .runWaiting event = .ok s') :
    s'.facets = s.facets.step api .runWaiting event := by
  obtain ⟨t, ht, h⟩ := bind_eq_ok.mp h
  cases ht
  exact installInteraction_facets h

theorem applyResponse_facets (hkind : kind = .userAnswered ∨ kind = .userConfirmed)
    (h : s.applyResponse kind event = .ok s') : s'.facets = s.facets.step api kind event := by
  have hstep : s.facets.step api kind event = { s.facets with
      prompts := s.prompts.respond kind event
      terminal := none
      responses := s.responses.step kind event } := by
    rcases hkind with rfl | rfl <;> rfl
  have hpending : s.prompts.pending = s.pending := rfl
  rw [hstep]
  obtain ⟨id, hid, h⟩ := bind_eq_ok.mp h
  rw [required_eq_ok] at hid
  -- Both kinds first note the response under its id.
  rcases hkind with rfl | rfl
  · obtain ⟨values, hvalues, h⟩ := bind_eq_ok.mp h
    rw [required_eq_ok] at hvalues
    cases h
    simp only [Prompts.respond, hpending, Responses.step, Responses.answer, hvalues]
    simp only [if_true] at hid
    simp only [hid]
    split_ifs <;> rfl
  · obtain ⟨approved, happroved, h⟩ := bind_eq_ok.mp h
    rw [required_eq_ok] at happroved
    cases h
    simp only [Prompts.respond, hpending, Responses.step, Responses.decide, happroved]
    simp only [reduceCtorEq, if_false] at hid
    simp only [hid]
    split_ifs <;> rfl

theorem removeFiles_facets (s : FoldState) (paths : List String) :
    (paths.foldl (fun (s : FoldState) path =>
      { s with
        latestFilePins := s.latestFilePins.erase path
        removedFiles := s.removedFiles.insert path }) s).facets =
      { s.facets with pins := s.pins.change { removedFiles := paths, writtenFiles := [] } } := by
  induction paths generalizing s with
  | nil => rfl
  | cons path paths ih =>
    rw [List.foldl_cons, ih]
    rfl

theorem restoreFiles_facets (s : FoldState) (paths : List String) :
    (paths.foldl (fun (s : FoldState) path =>
      { s with removedFiles := s.removedFiles.erase path }) s).facets =
      { s.facets with pins := s.pins.change { removedFiles := [], writtenFiles := paths } } := by
  induction paths generalizing s with
  | nil => rfl
  | cons path paths ih =>
    rw [List.foldl_cons, ih]
    rfl

theorem applyAgentFileChanges_facets (h : s.applyAgentFileChanges event = .ok s') :
    s'.facets = s.facets.step api .agentFileChanges event := by
  unfold applyAgentFileChanges at h
  split at h
  · next parsed hparsed =>
    obtain ⟨_, hok, h⟩ := bind_eq_ok.mp h
    cases hok
    obtain ⟨changes, hchanges, h⟩ := bind_eq_ok.mp h
    obtain ⟨_, _, h⟩ := bind_eq_ok.mp h
    have hof : changesOf event = changes := by
      simp [changesOf, hparsed, required_eq_ok.mp hchanges]
    simp only at h
    split_ifs at h
    · cases h
    · cases h
      simp only [Facets.step, Pins.step, hof]
      rw [restoreFiles_facets]
      have hremoved := removeFiles_facets s changes.removedFiles
      exact congrArg (fun f : Facets =>
        { f with pins := f.pins.change ⟨[], changes.writtenFiles⟩ }) hremoved
  · obtain ⟨_, hrefused, h⟩ := bind_eq_ok.mp h
    cases hrefused

theorem applyBudgetCharged_facets (h : s.applyBudgetCharged event = .ok s') :
    s'.facets = s.facets.step api .budgetCharged event := by
  unfold applyBudgetCharged at h
  simp only [Facets.step, BudgetState.step]
  split at h
  · next hnone =>
    have hamount : amountOf event = 1 := by rw [amountOf, hnone]
    obtain ⟨_, hone, h⟩ := bind_eq_ok.mp h
    cases hone
    obtain ⟨n, hn, h⟩ := bind_eq_ok.mp h
    obtain ⟨-, rfl⟩ := checkedAdd_eq_ok.mp hn
    cases h
    rw [hamount]
    rfl
  · next v hv =>
    obtain ⟨amount, hread, h⟩ := bind_eq_ok.mp h
    have hamount : amountOf event = amount := by
      simp only [amountOf, hv, required_eq_ok.mp hread, Option.getD_some]
    obtain ⟨n, hn, h⟩ := bind_eq_ok.mp h
    obtain ⟨-, rfl⟩ := checkedAdd_eq_ok.mp hn
    cases h
    rw [hamount]
    rfl

theorem tokenCounter_eq_ok {tokens : Value} {name : String} {n : Nat}
    (h : tokenCounter tokens name = .ok n) : tokens.getU64 name = some n := by
  obtain ⟨v, hv, h⟩ := bind_eq_ok.mp h
  rw [required_eq_ok] at hv h
  simp [Value.getU64, hv, h]

theorem addTokens_eq_ok {b b' : BudgetState} {tokens : Value} (h : addTokens b tokens = .ok b') :
    b' = { b with
      tokensInput := b.tokensInput + (tokens.getU64 "input").getD 0
      tokensOutput := b.tokensOutput + (tokens.getU64 "output").getD 0
      tokensCachedInput := b.tokensCachedInput + (tokens.getU64 "cached_input").getD 0
      tokensCacheCreationInput :=
        b.tokensCacheCreationInput + (tokens.getU64 "cache_creation_input").getD 0 } := by
  obtain ⟨input, hinput, h⟩ := bind_eq_ok.mp h
  obtain ⟨_, hn1, h⟩ := bind_eq_ok.mp h
  obtain ⟨output, houtput, h⟩ := bind_eq_ok.mp h
  obtain ⟨_, hn2, h⟩ := bind_eq_ok.mp h
  obtain ⟨cached, hcached, h⟩ := bind_eq_ok.mp h
  obtain ⟨_, hn3, h⟩ := bind_eq_ok.mp h
  obtain ⟨-, rfl⟩ := checkedAdd_eq_ok.mp hn1
  obtain ⟨-, rfl⟩ := checkedAdd_eq_ok.mp hn2
  obtain ⟨-, rfl⟩ := checkedAdd_eq_ok.mp hn3
  rw [tokenCounter_eq_ok hinput, tokenCounter_eq_ok houtput, tokenCounter_eq_ok hcached]
  split at h
  · obtain ⟨creation, hcreation, h⟩ := bind_eq_ok.mp h
    obtain ⟨_, hn4, h⟩ := bind_eq_ok.mp h
    obtain ⟨-, rfl⟩ := checkedAdd_eq_ok.mp hn4
    cases h
    rw [tokenCounter_eq_ok hcreation]
    rfl
  · next hnone =>
    obtain ⟨_, hzero, h⟩ := bind_eq_ok.mp h
    cases hzero
    obtain ⟨_, hn4, h⟩ := bind_eq_ok.mp h
    obtain ⟨-, rfl⟩ := checkedAdd_eq_ok.mp hn4
    cases h
    simp [Value.getU64, hnone]

theorem addCost_facets {calls : Nat} {budget : BudgetState}
    (hcalls : checkedAdd 64 s.budget.llmCalls 1 "LLM call count overflowed" = .ok calls)
    (hbudget : budget = { s.budget with
      llmCalls := calls
      tokensInput := s.budget.tokensInput + tokensOf event "input"
      tokensOutput := s.budget.tokensOutput + tokensOf event "output"
      tokensCachedInput := s.budget.tokensCachedInput + tokensOf event "cached_input"
      tokensCacheCreationInput :=
        s.budget.tokensCacheCreationInput + tokensOf event "cache_creation_input" })
    (h : (do
      let cost ← required (event.get "cost_microusd") "llm_call event is missing cost_microusd"
      let cost ← required cost.asU64 "invalid cost counter"
      let costMicrousd ← checkedAdd 64 budget.costMicrousd cost "cost counter overflowed"
      return { s with budget := { budget with costMicrousd } }) = Except.ok s') :
    s'.facets = s.facets.step api .llmCall event := by
  obtain ⟨costValue, hcost, h⟩ := bind_eq_ok.mp h
  obtain ⟨cost, hcost', h⟩ := bind_eq_ok.mp h
  obtain ⟨total, htotal, h⟩ := bind_eq_ok.mp h
  obtain ⟨-, rfl⟩ := checkedAdd_eq_ok.mp hcalls
  obtain ⟨-, rfl⟩ := checkedAdd_eq_ok.mp htotal
  rw [required_eq_ok] at hcost hcost'
  have hcharge : (event.getU64 "cost_microusd").getD 0 = cost := by
    simp [Value.getU64, hcost, hcost']
  cases h
  subst hbudget
  simp only [Facets.step, BudgetState.step, hcharge]
  rfl

theorem applyLlmCall_facets (h : s.applyLlmCall event = .ok s') :
    s'.facets = s.facets.step api .llmCall event := by
  obtain ⟨calls, hcalls, h⟩ := bind_eq_ok.mp h
  simp only at h
  split at h
  · next tokens htokens =>
    obtain ⟨budget, hbudget, h⟩ := bind_eq_ok.mp h
    refine addCost_facets hcalls ?_ h
    rw [addTokens_eq_ok hbudget]
    simp [tokensOf, htokens]
  · next hnone =>
    obtain ⟨budget, hbudget, h⟩ := bind_eq_ok.mp h
    refine addCost_facets hcalls ?_ h
    cases hbudget
    simp [tokensOf, hnone]

/-- Kinds that move none of the accounts. -/
def isBookkeeping : EventKind → Bool
  | .runResumed | .stepStarted | .budgetCharged | .llmCall | .agentFileChanges | .stepFinished
  | .stepSkipped | .repairAttemptStarted | .regenerateAttemptStarted | .resource | .confirmRequest
  | .runWaiting | .userAnswered | .userConfirmed | .userCancelRequested | .runFinished | .runError
  | .runCanceled | .runInterrupted => false
  | _ => true

theorem applyStatePatched_facets (h : s.applyStatePatched event = .ok s') :
    s'.facets = s.facets := by
  unfold applyStatePatched at h
  cases hinputs : objectField event "inputs" <;>
    cases houtputs : objectField event "step_outputs" <;>
      cases hstatuses : objectField event "step_statuses"
  all_goals
    simp only [hinputs, houtputs, hstatuses] at h
    first
    | obtain ⟨_, _, h⟩ := bind_eq_ok.mp h
      cases h
      rfl
    | cases h
      rfl

theorem applyTaskJoined_facets (h : s.applyTaskJoined kind event = .ok s') :
    s'.facets = s.facets := by
  unfold applyTaskJoined at h
  simp only at h
  split_ifs at h
  · cases h
    rfl
  all_goals
    obtain ⟨owner, _, h⟩ := bind_eq_ok.mp h
    try split_ifs at h
    all_goals
      cases h
      rfl

theorem applyOperationStarted_facets (h : s.applyOperationStarted event = .ok s') :
    s'.facets = s.facets := by
  unfold applyOperationStarted at h
  split at h
  · cases h
    rfl
  · obtain ⟨_, _, h⟩ := bind_eq_ok.mp h
    obtain ⟨_, _, h⟩ := bind_eq_ok.mp h
    obtain ⟨_, _, h⟩ := bind_eq_ok.mp h
    cases h
    rfl

theorem applyHookFailed_facets (s : FoldState) : (s.applyHookFailed event).facets = s.facets := by
  unfold applyHookFailed
  split
  · rfl
  · split_ifs <;> rfl

theorem applyRecord_bookkeeping (hkind : isBookkeeping kind = true)
    (h : s.applyRecord api kind event = .ok s') : s'.facets = s.facets := by
  cases kind <;> simp only [isBookkeeping, Bool.false_eq_true] at hkind
  case agentCheckpoint =>
    cases h
    unfold applyAgentCheckpoint
    split <;> rfl
  case statePatched => exact applyStatePatched_facets h
  case parallelTaskJoined => exact applyTaskJoined_facets h
  case foreachSiblingDrained => exact applyTaskJoined_facets h
  case foreachIterationSettled => exact applyTaskJoined_facets h
  case hookFailed =>
    cases h
    exact applyHookFailed_facets s
  case hookSkipped =>
    cases h
    unfold applyHookSkipped
    split <;> rfl
  case mcpInputPending =>
    cases h
    unfold applyMcpInputPending
    split <;> rfl
  case mcpContinuationConsumed =>
    cases h
    unfold applyMcpContinuationConsumed
    split <;> rfl
  case mcpContinuationResumed =>
    cases h
    unfold applyMcpContinuationResumed
    split <;> rfl
  case operationStarted => exact applyOperationStarted_facets h
  case operationFinished =>
    cases h
    unfold applyOperationFinished
    split <;> rfl
  all_goals
    cases h
    rfl

/-- Refinement: an accepted record moves every account by its own transition. -/
theorem applyRecord_facets (h : s.applyRecord api kind event = .ok s') :
    s'.facets = s.facets.step api kind event := by
  by_cases hkind : isBookkeeping kind = true
  · rw [applyRecord_bookkeeping hkind h]
    cases kind <;> first | rfl | simp [isBookkeeping] at hkind
  · cases kind <;> simp only [isBookkeeping, not_true_eq_false] at hkind
    case stepFinished => exact applyStepFinished_facets h
    case stepSkipped => exact applyStepSkipped_facets h
    case confirmRequest => exact applyConfirmRequest_facets h
    case runWaiting => exact applyRunWaiting_facets h
    case userAnswered => exact applyResponse_facets (.inl rfl) h
    case userConfirmed => exact applyResponse_facets (.inr rfl) h
    case userCancelRequested =>
      cases h
      unfold applyCancelRequested
      simp only
      split <;> rfl
    case agentFileChanges => exact applyAgentFileChanges_facets h
    case budgetCharged => exact applyBudgetCharged_facets h
    case llmCall => exact applyLlmCall_facets h
    case resource =>
      cases h
      unfold applyResource
      cases hname : event.getStr "name" <;> cases hdigest : event.getStr "sha256" <;>
        simp [Facets.step, resourceStep, hname, hdigest] <;> rfl
    case stepStarted | repairAttemptStarted | regenerateAttemptStarted =>
      obtain ⟨n, hn, h⟩ := bind_eq_ok.mp h
      obtain ⟨-, rfl⟩ := checkedAdd_eq_ok.mp hn
      cases h
      rfl
    all_goals
      cases h
      rfl

end FoldState

end Qcg
