import Qcg.Engine.Effect
import Qcg.Engine.Run

/-!
# What running a single node does

A node that is run alone touches its own state and, through a repair cycle, the states of
the two nodes of the cycle. When it comes back without an error all of them are settled.
-/

namespace Qcg

open Json (Value)
open EStateM (Returns Tracks returns_pure returns_throw spec_bind spec_ite spec_modify
  tracks_pure)

variable {env : Env} {replay : BTreeMap ReplayedStep} {S : String → Prop}

def Advances (live live' : Live) : Prop :=
  ∀ k : String, live'.states[k]? = live.states[k]? ∨ Terminal k live'

section Advances

variable {a b c : Live} {id : String}

theorem Terminal.frame (h : Terminal id a) (hb : Touches S a b) (hid : ¬ S id) : Terminal id b := by
  obtain ⟨state, hstate, hterm⟩ := h
  exact ⟨state, (hb.states id hid).trans hstate, hterm⟩

theorem Advances.refl (live : Live) : Advances live live :=
  fun _ => .inl rfl

theorem Advances.of_touches (h : Touches (id = ·) a b) (h' : Advances b c) (hid : Terminal id c) :
    Advances a c := by
  intro k
  by_cases hk : id = k
  · exact .inr (hk ▸ hid)
  · exact (h' k).imp_left fun hsame => hsame.trans (h.states k hk)

theorem Advances.trans (h : Advances a b) (h' : Advances b c) : Advances a c := by
  intro k
  rcases h' k with hsame | hterm
  · refine (h k).imp hsame.trans ?_
    rintro ⟨state, hstate, hterm⟩
    exact ⟨state, hsame.trans hstate, hterm⟩
  · exact .inr hterm

end Advances

/-- Touches one node, and leaves it terminal unless it fails. -/
def Settles {α : Type} (id : String) (m : EngineM α) : Prop :=
  ∀ live, Returns m live fun _ live' => Touches (id = ·) live live' ∧ Terminal id live'

section Settles

variable {α β : Type} {id : String} {state : NodeState}
variable {f : Unit → EngineM β}

/-- A state that is written first and not changed again. -/
theorem setState_still (hf : ∀ u, Tracks Still (f u)) (live : Live) :
    Returns (setState id state >>= f) live fun _ live' =>
      Touches (id = ·) live live' ∧ live'.states[id]? = some state := by
  refine spec_bind.mpr (spec_modify.mpr ((hf ()).returns.mono fun _ live' h => ?_))
  refine ⟨⟨fun k hk => ?_⟩, (h.states id fun h => h).trans (by simp)⟩
  exact (h.states k fun h => h).trans (BTreeMap.get_insert_of_ne _ _ (Ne.symm hk))

theorem settles_setState (hterm : state.isTerminal = true)
    (hf : ∀ u, Tracks Still (f u)) : Settles id (setState id state >>= f) :=
  fun live => (setState_still hf live).mono fun _ _ h => ⟨h.1, state, h.2, hterm⟩

variable {m : EngineM α}

theorem Settles.after {f : α → EngineM β} (hm : Tracks Still m) (hf : ∀ a, Settles id (f a)) :
    Settles id (m >>= f) :=
  fun _ => hm.returns.bind fun a mid h => (hf a mid).mono fun _ _ h' =>
    ⟨(Touches.of_still h).trans h'.1, h'.2⟩

theorem settles_throw (error : EngineError) :
    Settles id (m >>= fun _ => (throw error : EngineM β)) :=
  fun _ => .of_bind fun _ _ => returns_throw

theorem Settles.advances (h : Settles id m) (live : Live) :
    Returns m live fun _ live' => Advances live live' ∧ Terminal id live' :=
  (h live).mono fun _ _ h => ⟨.of_touches h.1 (.refl _) h.2, h.2⟩

end Settles

variable (outcome : StepOutcome)

section Named

variable {node : NodeDef} {graphNodeId : String}

theorem settleNamedNode_spec (live : Live) :
    Returns (settleNamedNode env node graphNodeId outcome) live fun _ live' =>
      Touches (graphNodeId = ·) live live' ∧
        (outcome.isInteraction = false → Terminal graphNodeId live') := by
  have hsync : Tracks Still (syncSubtree node.id) := still_syncSubtree _
  have hpin : Tracks Still (pinAttemptFiles env) := still_pinAttemptFiles
  have hasks : Tracks (Touches (graphNodeId = ·)) (pinAttemptFiles env) :=
    touches_of_still still_pinAttemptFiles
  cases outcome with
  | success output files =>
    have hsettles : Settles graphNodeId
        (settleNamedNode env node graphNodeId (.success output files)) :=
      .after hpin fun _ => settles_setState rfl fun _ => touches_event.bind fun _ =>
        (still_modifyVars _).bind fun _ => hsync
    exact (hsettles live).mono fun _ _ h => ⟨h.1, fun _ => h.2⟩
  | checkFailed findings output files =>
    have hsettles : Settles graphNodeId
        (settleNamedNode env node graphNodeId (.checkFailed findings output files)) :=
      .after hpin fun _ => settles_setState rfl fun _ => touches_event.bind fun _ => hsync
    exact (hsettles live).mono fun _ _ h => ⟨h.1, fun _ => h.2⟩
  | needsUser question files =>
    exact (hasks.bind fun _ => touches_event).returns.mono fun _ _ h =>
      ⟨h, by simp [StepOutcome.isInteraction]⟩
  | needsConfirm confirm files =>
    exact (hasks.bind fun _ => touches_event).returns.mono fun _ _ h =>
      ⟨h, by simp [StepOutcome.isInteraction]⟩

theorem executeNamedNode_spec {owner nodeId : String} {attempt : Nat} (live : Live) :
    Returns (executeNamedNode env replay owner nodeId attempt) live fun outcome live' =>
      Touches (nodeId = ·) live live' ∧
        (outcome.isInteraction = false → Terminal nodeId live') := by
  unfold executeNamedNode
  cases hfound : (env.graph.nodes[nodeId]? : Option NodeDef) with
  | none => exact returns_throw
  | some found =>
    obtain rfl := env.graph.keyed nodeId found hfound
    simp only
    cases (replay[NodePath.repairChild owner attempt found.id]? : Option ReplayedStep) with
    | some step =>
      have hsettles : Settles found.id
          (replayNamedNode env (NodePath.repairChild owner attempt found.id) found.id step) :=
        .after (still_modifyVars _) fun _ => settles_setState rfl fun _ =>
          touches_event.bind fun _ => (still_syncSubtree _).bind fun _ =>
            tracks_pure _
      exact (hsettles live).mono fun _ _ h => ⟨h.1, fun _ => h.2⟩
    | none =>
      refine (touches_setState _ rfl).returns.bind fun _ begun hbegun => ?_
      refine (touches_event (S := (found.id = ·))).returns.bind fun _ opened hopened => ?_
      refine (touches_of_still (S := (found.id = ·))
        still_executeNodeWithRetry.observe).returns.bind
        fun result mid hmid => ?_
      have hto := hbegun.trans (hopened.trans hmid)
      cases result with
      | ok outcome =>
        refine (settleNamedNode_spec outcome mid).bind fun _ live' h => ?_
        exact returns_pure ⟨hto.trans h.1, h.2⟩
      | error error =>
        refine spec_ite.mpr ⟨fun _ => returns_throw, fun _ => ?_⟩
        exact Returns.of_bind fun _ _ => .of_bind fun _ _ => .of_bind fun _ _ => returns_throw

end Named

def InCycle (plan : RepairPlan) (id : String) : Prop :=
  id = plan.repair ∨ id = plan.recheck

def CycleSettled (plan : RepairPlan) (live : Live) : Prop :=
  Terminal plan.repair live ∧ Terminal plan.recheck live

section Cycle

variable {owner : String} {plan : RepairPlan} (attempt : Nat)

theorem suspendAttempt_fails (outcome : StepOutcome) (live : Live)
    {Q : AttemptOutcome → Live → Prop} :
    Returns (suspendAttempt env owner attempt outcome) live Q := by
  cases outcome with
  | needsUser question files => exact .of_bind fun _ _ => returns_throw
  | needsConfirm confirm files => exact .of_bind fun _ _ => returns_throw
  | success output files => exact returns_throw
  | checkFailed findings output files => exact returns_throw

def AttemptEnd (plan : RepairPlan) (live live' : Live) (result : AttemptOutcome) : Prop :=
  Touches (InCycle plan) live live' ∧ ∀ output, result = .repaired output → CycleSettled plan live'

theorem recheckAttempt_spec (live : Live) (hrepair : Terminal plan.repair live) :
    Returns (recheckAttempt env replay owner plan attempt) live fun result live' =>
      AttemptEnd plan live live' result := by
  refine (executeNamedNode_spec live).bind fun outcome mid h => ?_
  have hto : Touches (InCycle plan) live mid := h.1.mono fun _ hid => .inr hid.symm
  cases outcome with
  | success output files =>
    refine (touches_event (S := fun _ => False)).returns.bind fun _ live' hlast =>
      returns_pure ⟨hto.trans (.of_still hlast), ?_⟩
    have hrecheck := (h.2 rfl).frame hlast fun h => h
    refine fun _ _ => ⟨?_, hrecheck⟩
    -- The recheck may run the repair node itself, which its own success covers.
    by_cases hsame : plan.recheck = plan.repair
    · exact hsame ▸ hrecheck
    · exact (hrepair.frame h.1 hsame).frame hlast fun h => h
  | checkFailed findings output files =>
    refine (touches_of_still (S := InCycle plan) (still_modifyVars _)).returns.bind
      fun _ set hset => ?_
    refine (touches_event (S := InCycle plan)).returns.bind fun _ live' hlast =>
      returns_pure ⟨hto.trans (hset.trans hlast), by simp⟩
  | needsUser question files => exact suspendAttempt_fails attempt _ mid
  | needsConfirm confirm files => exact suspendAttempt_fails attempt _ mid

theorem repairAttempt_spec (live : Live) :
    Returns (repairAttempt env replay owner plan attempt) live fun result live' =>
      AttemptEnd plan live live' result := by
  refine (touches_of_still (S := InCycle plan) still_runCheckpoint).returns.bind
    fun _ begun hbegun => ?_
  refine (touches_event (S := InCycle plan)).returns.bind fun _ opened hopened => ?_
  refine (executeNamedNode_spec opened).bind fun outcome mid h => ?_
  have hto : Touches (InCycle plan) live mid :=
    hbegun.trans (hopened.trans (h.1.mono fun _ hid => .inl hid.symm))
  cases outcome with
  | success output files =>
    exact (recheckAttempt_spec attempt mid (h.2 rfl)).mono fun _ _ h' => ⟨hto.trans h'.1, h'.2⟩
  | checkFailed findings output files =>
    exact (touches_event (S := InCycle plan)).returns.bind fun _ live' hlast =>
      returns_pure ⟨hto.trans hlast, by simp⟩
  | needsUser question files => exact suspendAttempt_fails attempt _ mid
  | needsConfirm confirm files => exact suspendAttempt_fails attempt _ mid

theorem repairAttempts_spec (left attempt : Nat) (lastReason : FailureDetail) (live : Live) :
    Returns (repairAttempts env replay owner plan left attempt lastReason) live fun result live' =>
      Touches (InCycle plan) live live' ∧ ∀ end_, result = .inl end_ → CycleSettled plan live' := by
  induction left generalizing attempt lastReason live with
  | zero => exact returns_pure ⟨.refl live, by simp⟩
  | succ left ih =>
    refine (repairAttempt_spec attempt live).bind fun result mid h => ?_
    cases result with
    | repaired recheck => exact returns_pure ⟨h.1, fun _ _ => h.2 _ rfl⟩
    | unrepaired reason => exact (ih _ _ mid).mono fun _ _ h' => ⟨h.1.trans h'.1, h'.2⟩

theorem exhaustRepair_spec (node : NodeDef) (lastReason : FailureDetail) (live : Live) :
    Returns (exhaustRepair env node plan lastReason) live fun _ live' =>
      Touches (InCycle plan) live live' ∧ CycleSettled plan live' := by
  refine spec_bind.mpr (spec_modify.mpr (spec_bind.mpr (spec_modify.mpr ?_)))
  set states := (live.states.insert plan.repair (.skipped cycleExhausted)).insert plan.recheck
    (.skipped cycleExhausted) with hstates
  have hrepair : states[plan.repair]? = some (.skipped cycleExhausted) := by
    rw [hstates, BTreeMap.get_insert]
    split_ifs <;> simp
  have hrecheck : states[plan.recheck]? = some (.skipped cycleExhausted) := by simp [hstates]
  have hothers : ∀ k, ¬ InCycle plan k → states[k]? = live.states[k]? := by
    intro k hk
    obtain ⟨hr, hc⟩ := not_or.mp hk
    rw [hstates, BTreeMap.get_insert_of_ne _ _ hc, BTreeMap.get_insert_of_ne _ _ hr]
  have hend : Touches (InCycle plan) live { live with states } ∧
      CycleSettled plan { live with states } :=
    ⟨⟨hothers⟩, ⟨_, hrepair, rfl⟩, ⟨_, hrecheck, rfl⟩⟩
  cases plan.onExhausted with
  | fail => exact returns_pure hend
  | route target => exact returns_pure hend
  | askUser title fields =>
    simp only
    cases (env.answers[(exhaustedQuestion node "repair" title fields).id]? : Option Value) with
    | some answer => exact returns_pure hend
    | none => exact returns_throw

/-- A cycle without attempts changes nothing; any other leaves both nodes settled. -/
theorem executeRepairCycle_spec (node : NodeDef) (findings : List Finding) (live : Live) :
    Returns (executeRepairCycle env replay node plan findings) live fun _ live' =>
      Advances live live' := by
  have hadvances : ∀ {live'}, Touches (InCycle plan) live live' → CycleSettled plan live' →
      Advances live live' := by
    intro live' htouch hsettled k
    by_cases hk : InCycle plan k
    · rcases hk with rfl | rfl
      · exact .inr hsettled.1
      · exact .inr hsettled.2
    · exact .inl (htouch.states k hk)
  unfold executeRepairCycle
  refine spec_ite.mpr ⟨fun _ => returns_pure (.refl live), fun _ => ?_⟩
  refine (touches_of_still (S := InCycle plan) (still_modifyVars _)).returns.bind
    fun _ begun hbegun => ?_
  refine (repairAttempts_spec _ _ _ begun).bind fun result mid h => ?_
  have hto := hbegun.trans h.1
  rcases result with ⟨attempt, recheck⟩ | lastReason
  · exact returns_pure (hadvances hto (h.2 _ rfl))
  · exact (exhaustRepair_spec node lastReason mid).mono fun _ _ h' =>
      hadvances (hto.trans h'.1) h'.2

end Cycle

theorem still_regenerateAttempts {node : NodeDef} (maxAttempts left attempt : Nat)
    (last : FailedRevision) :
    Tracks Still (regenerateAttempts env node maxAttempts left attempt last) := by
  induction left generalizing attempt last with
  | zero => exact tracks_pure _
  | succ left ih =>
    refine touches_event.bind fun _ => still_runCheckpoint.bind fun _ => ?_
    refine still_executeNodeWithRetry.bind fun outcome => ?_
    cases outcome with
    | checkFailed findings output files =>
      refine (still_modifyVars _).bind fun _ => ?_
      exact touches_event.bind fun _ => ih _ _
    | success output files => exact touches_event.bind fun _ => tracks_pure _
    | needsUser question files => exact tracks_pure _
    | needsConfirm confirm files => exact tracks_pure _

theorem still_executeRegenerate {node : NodeDef} (maxAttempts : Nat) (findings : List Finding) :
    Tracks Still (executeRegenerate env node maxAttempts findings) := by
  unfold executeRegenerate
  refine Tracks.ite (tracks_pure _) ?_
  exact (still_modifyVars _).bind fun _ => still_regenerateAttempts _ _ _ _

section Settle

variable {node : NodeDef} {payload : List (String × Value)}

theorem settles_settleSuccess (output : Option Value) :
    Settles node.id (settleSuccess env node output payload) :=
  .after (still_modifyVars _) fun _ => settles_setState rfl fun _ => touches_event

theorem settles_settleFailure (reason : FailureDetail) :
    Settles node.id (settleFailure env node reason payload) :=
  settles_setState rfl fun _ => touches_event

theorem settles_settleRepairCycle (evidence : Evidence) (outcome : RepairCycleOutcome) :
    Settles node.id (settleRepairCycle env node evidence outcome) := by
  cases outcome with
  | repaired output => exact settles_settleSuccess _
  | routed target output => exact settles_settleSuccess _
  | answered output => exact settles_settleSuccess _
  | failed reason => exact settles_settleFailure _

variable (findings : List Finding)

theorem settles_settleAskUser (evidence : Evidence) :
    Settles node.id (settleAskUser env node findings evidence) := by
  unfold settleAskUser
  simp only
  cases (env.answers[(onFailQuestion node).id]? : Option Value) with
  | some answer => exact settles_settleSuccess _
  | none => exact settles_throw _

theorem settles_settleRegenerate (onExhausted : ExhaustedAction) (outcome : StepOutcome) :
    Settles node.id (settleRegenerate env node onExhausted outcome) := by
  refine .after still_pinAttemptFiles fun _ => ?_
  cases outcome with
  | success output files => exact settles_settleSuccess _
  | needsUser question files => exact settles_throw _
  | needsConfirm confirm files => exact settles_throw _
  | checkFailed findings output files =>
    cases onExhausted with
    | fail => exact settles_settleFailure _
    | route target => exact settles_settleSuccess _
    | askUser title fields =>
      simp only [settleRegenerateExhausted]
      cases (env.answers[(exhaustedQuestion node "regenerate" title fields).id]? : Option
        Value) with
      | some answer => exact settles_settleSuccess _
      | none => exact settles_throw _

theorem settleCheckFailed_spec (evidence : Evidence) (live : Live) :
    Returns (settleCheckFailed env replay node findings evidence) live fun _ live' =>
      Advances live live' ∧ Terminal node.id live' := by
  unfold settleCheckFailed
  cases node.onFail with
  | none => exact (settles_settleFailure _).advances live
  | some policy =>
    cases policy with
    | fail => exact (settles_settleFailure _).advances live
    | askUser => exact (settles_settleAskUser findings evidence).advances live
    | route target => exact (settles_settleSuccess _).advances live
    | repair repair recheck maxAttempts onExhausted =>
      refine (executeRepairCycle_spec node findings live).bind fun result mid h => ?_
      exact ((settles_settleRepairCycle evidence result).advances mid).mono fun _ _ h' =>
        ⟨h.trans h'.1, h'.2⟩
    | regenerate maxAttempts onExhausted =>
      -- Regeneration executes the node again but leaves the states alone.
      refine Settles.advances (.after (still_executeRegenerate _ _) fun outcome => ?_) live
      exact settles_settleRegenerate onExhausted outcome

theorem settleOutcome_spec (live : Live) :
    Returns (settleOutcome env replay node outcome) live fun _ live' =>
      Advances live live' ∧ Terminal node.id live' := by
  refine still_pinAttemptFiles.returns.bind fun _ pinned hpinned => ?_
  have hto : Advances live pinned := fun k => .inl (hpinned.states k fun h => h)
  cases outcome with
  | success output files =>
    refine (Settles.advances (settles_setState rfl ?_) pinned).mono fun _ _ h =>
      ⟨hto.trans h.1, h.2⟩
    refine fun _ => touches_event.bind fun _ => ?_
    exact (still_modifyVars _).bind fun _ => still_syncLiveOutcomes
  | checkFailed findings output files =>
    exact (settleCheckFailed_spec findings _ pinned).mono fun _ _ h => ⟨hto.trans h.1, h.2⟩
  | needsUser question files => exact .of_bind fun _ _ => returns_throw
  | needsConfirm confirm files => exact .of_bind fun _ _ => returns_throw

end Settle

/-- A failed node whose recorded amounts say that a limit is used up. -/
def Exhausted (live : Live) : Prop :=
  ∃ (id : String) (reason : FailureDetail), live.states[id]? = some (.failed reason) ∧
    reason.exhaustion.isSome = true

/-- Exhausted limits journal the amounts that were used up. -/
theorem exhaustion_isSome {error : EngineError} (h : error.isExhaustion = true) :
    (failureDetailForError error).exhaustion.isSome = true := by
  cases error with
  | step error => cases error <;> first | rfl | simp [EngineError.isExhaustion,
      EngineError.isBudgetExhaustion, EngineError.isElapsedExhaustion] at h
  | _ => simp [EngineError.isExhaustion, EngineError.isBudgetExhaustion,
      EngineError.isElapsedExhaustion] at h

theorem runNode_spec {node : NodeDef} (live : Live) :
    Returns (runNode env replay node) live fun flow live' => Advances live live' ∧
      Terminal node.id live' ∧ flow ≠ .idle ∧ (flow = .stop → Exhausted live') := by
  have hstart : Tracks (Touches (node.id = ·)) (startNode env node) :=
    (touches_of_still still_runCheckpoint).bind fun _ =>
    (touches_of_still still_syncLiveOutcomes).bind
      fun _ => (touches_setState _ rfl).bind fun _ => touches_event
  refine hstart.returns.bind fun _ begun hbegun => ?_
  refine (touches_of_still (S := (node.id = ·)) still_executeNodeWithRetry.observe).returns.bind
    fun result mid hmid => ?_
  have hto := hbegun.trans hmid
  cases result with
  | ok outcome =>
    refine (settleOutcome_spec outcome mid).bind fun _ live' h => returns_pure ?_
    exact ⟨.of_touches hto h.1 h.2, h.2, by simp, by simp⟩
  | error error =>
    refine spec_ite.mpr ⟨fun _ => returns_throw, fun _ => ?_⟩
    refine (setState_still (fun _ => touches_event) mid).bind fun _ live' h => returns_pure ?_
    have hterm : Terminal node.id live' := ⟨_, h.2, rfl⟩
    refine ⟨.of_touches (hto.trans h.1) (.refl live') hterm, hterm, ?_, fun hstop => ?_⟩
    · split_ifs <;> simp
    · refine ⟨node.id, _, h.2, exhaustion_isSome ?_⟩
      by_contra hnot
      simp [hnot] at hstop

end Qcg
