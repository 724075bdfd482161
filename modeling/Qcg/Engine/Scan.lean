import Qcg.Contract.Dependencies
import Qcg.Engine.NodeEffect

/-!
# What a scan does

The scan visits the nodes in graph order. `Visit` lists everything that a visit can do to
the scan and to the states, with the guards that later proofs need.
-/

namespace Qcg

open EStateM (Returns returns_pure returns_throw spec_bind spec_get spec_ite spec_modify)

variable {env : Env} {replay : BTreeMap ReplayedStep}

inductive Visit (env : Env) (id : String) (scan : Scan) (live : Live) : Scan → Live → Prop
  | settled (hstate : ¬ Pending id live) : Visit env id scan live scan live
  | waiting {node : NodeDef} (hnode : env.graph.nodes[id]? = some node)
      (hskip : Graph.shouldSkipByDependencies node live.states = none)
      (hneeds : Graph.needsSatisfied node live.states = false) : Visit env id scan live scan live
  | settles {live' : Live} {state : NodeState} (hpending : Pending id live)
      (hstates : live'.states = live.states.insert id state)
      (hstate : state = .success ∨ ∃ reason, state = .skipped reason) :
      Visit env id scan live { scan with progressed := true } live'
  | ready {node : NodeDef} {live' : Live} (hpending : Pending id live)
      (hnode : env.graph.nodes[id]? = some node) (hstates : live'.states = live.states) :
      Visit env id scan live { scan with ready := scan.ready ++ [node] } live'

section Visits

variable {node : NodeDef} {live : Live} {scan : Scan}

theorem visit_skipNode {begun : Live} (hpending : Pending node.id live)
    (hstates : begun.states = live.states) (reason : FailureDetail) :
    Returns (do skipNode env node.id reason; return { scan with progressed := true }) begun
      (Visit env node.id scan live) := by
  refine spec_bind.mpr (spec_bind.mpr (spec_modify.mpr ?_))
  refine event_spec (fun journal _ _ => ?_) (fun _ => ?_) fun _ => trivial
  all_goals exact returns_pure (.settles hpending (by rw [← hstates]) (.inr ⟨reason, rfl⟩))

theorem visitRunnable_spec (hpending : Pending node.id live)
    (hnode : env.graph.nodes[node.id]? = some node) :
    Returns (visitRunnable env replay node scan) live (Visit env node.id scan live) := by
  unfold visitRunnable
  refine spec_bind.mpr (spec_modify.mpr ?_)
  refine spec_bind.mpr (spec_get.mpr ?_)
  dsimp only
  cases env.evalBool (live.vars.syncOutcomeMetadata live.journal.state.vars) node.when_ with
  | error message => exact returns_throw
  | ok answer =>
    cases answer with
    | false =>
      refine visit_skipNode hpending ?_ _
      rfl
    | true =>
      simp only
      cases (replay[node.id]? : Option ReplayedStep) with
      | none => exact returns_pure (.ready hpending hnode rfl)
      | some step =>
        refine spec_bind.mpr (spec_bind.mpr (spec_modify.mpr ?_))
        refine spec_bind.mpr (spec_modify.mpr ?_)
        refine event_spec (fun journal _ _ => ?_) (fun _ => ?_) fun _ => trivial
        all_goals exact returns_pure (.settles hpending rfl (.inl rfl))

theorem visit_spec (id : String) :
    Returns (visit env replay scan id) live (Visit env id scan live) := by
  unfold visit
  refine spec_bind.mpr (spec_get.mpr (spec_ite.mpr
    ⟨fun hpending => ?_, fun hstate => EStateM.spec_pure.mpr (.settled hstate)⟩))
  cases hnode : (env.graph.nodes[id]? : Option NodeDef) with
  | none => exact returns_throw
  | some node =>
    obtain rfl := env.graph.keyed id node hnode
    refine spec_bind.mpr (spec_get.mpr ?_)
    simp only
    cases hskip : Graph.shouldSkipByDependencies node live.states with
    | some reason => exact visit_skipNode hpending rfl reason
    | none =>
      refine spec_ite.mpr ⟨fun _ => visitRunnable_spec hpending hnode, fun hneeds => ?_⟩
      exact returns_pure (.waiting hnode hskip (by simpa using hneeds))

end Visits

end Qcg
