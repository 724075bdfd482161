import Qcg.Engine.Scan

/-!
# The run loop makes progress

Between passes every node of the graph is pending or terminal. A scan over such states
that settles nothing collects a ready node, and the dispatch of a single ready node settles
it, so the number of pending nodes bounds the number of passes. A wave need not settle
anything: the loop goes on after errors of its settlement.
-/

namespace Qcg

open List
open EStateM (Returns Spec Tracks returns_pure spec_bind spec_get spec_ite spec_modify spec_pure
  tracks_throw)

variable {env : Env} {replay : BTreeMap ReplayedStep}

/-- The states between passes: nothing runs, and the graph's nodes are all there. -/
structure Idle (env : Env) (live : Live) : Prop where
  present : ∀ id ∈ env.graph.order, Pending id live ∨ Terminal id live
  known : ∀ (id : String) (state : NodeState), live.states[id]? = some state →
    state.isTerminal = true ∨ state = .pending ∧ id ∈ env.graph.order

theorem Pending.not_terminal {id : String} {live : Live} (h : Pending id live) :
    ¬ Terminal id live := by
  rintro ⟨state, hstate, hterm⟩
  rw [h] at hstate
  cases hstate
  simp [NodeState.isTerminal] at hterm

theorem Idle.terminal_of_not_pending {live : Live} (h : Idle env live) {id : String}
    (hid : id ∈ env.graph.order) (hnot : ¬ Pending id live) : Terminal id live :=
  (h.present id hid).resolve_left hnot

theorem Idle.allTerminal_iff {live : Live} (h : Idle env live) :
    allTerminal live.states = true ↔ ∀ id ∈ env.graph.order, ¬ Pending id live := by
  unfold allTerminal
  rw [all_eq_true]
  refine ⟨fun hall id _ hpending => ?_, fun hnone state hstate => ?_⟩
  · have hterm := hall _ (BTreeMap.mem_values.mpr ⟨id, hpending⟩)
    simp [NodeState.isTerminal] at hterm
  · obtain ⟨id, hid⟩ := BTreeMap.mem_values.mp hstate
    rcases h.known id state hid with hterm | ⟨rfl, hmem⟩
    · exact hterm
    · exact absurd hid (hnone id hmem)

variable {live' mid : Live} {ready : List NodeDef}

/-- Changing some states to terminal ones keeps the loop idle. -/
theorem Idle.of_settled {live : Live} (h : Idle env live) (hstep : Advances live live') :
    Idle env live' := by
  refine ⟨fun id hid => ?_, fun id state hstate => ?_⟩
  · rcases hstep id with hsame | hterm
    · rcases h.present id hid with hpending | ⟨state, hstate, hterm⟩
      · exact .inl (hsame.trans hpending)
      · exact .inr ⟨state, hsame.trans hstate, hterm⟩
    · exact .inr hterm
  · rcases hstep id with hsame | ⟨t, ht, hterm⟩
    · exact h.known id state (hsame.symm.trans hstate)
    · rw [ht] at hstate
      cases hstate
      exact .inl hterm

/-- What a scan has done after visiting `visited`, from where it started. -/
structure Scanned (env : Env) (start : Live) (visited : List String) (scan : Scan) (live : Live) :
    Prop where
  idle : Idle env live
  kept : Graph.Extends start.states live.states
  ready : ∀ node ∈ scan.ready, env.graph.nodes[node.id]? = some node ∧ Pending node.id live ∧
    node.id ∈ visited
  nodup : (scan.ready.map NodeDef.id).Nodup
  progressed : scan.progressed = true → ∃ id, Pending id start ∧
    (live.states[id]? = some .success ∨ ∃ reason, live.states[id]? = some (.skipped reason))
  unchanged : scan.progressed = false → live.states = start.states
  complete : scan.progressed = false → scan.ready = [] → ∀ id ∈ visited, Terminal id live

theorem Scanned.start {live begun : Live} (h : Idle env live)
    (hstates : begun.states = live.states) :
    Scanned env live [] {} begun := by
  refine ⟨h.of_settled fun k => .inl (by rw [hstates]), ?_, by simp, by simp, by simp,
    fun _ => hstates, by simp⟩
  rw [hstates]
  exact .refl _

section Visits

variable {start live : Live} {l₁ l₂ : List String} {id : String} {scan : Scan}

theorem notMem_visited (horder : env.graph.order = l₁ ++ id :: l₂) : id ∉ l₁ := by
  have hnodup := env.graph.order_nodup
  rw [horder] at hnodup
  exact fun hmem => (nodup_append.mp hnodup).2.2 id hmem id (by simp) rfl

theorem mem_order (horder : env.graph.order = l₁ ++ id :: l₂) : id ∈ env.graph.order := by
  simp [horder]

theorem Scanned.pending_start (hidle : Idle env start) (h : Scanned env start l₁ scan live)
    (hid : id ∈ env.graph.order) (hpending : Pending id live) : Pending id start := by
  rcases hidle.present id hid with hstart | ⟨state, hstate, hterm⟩
  · exact hstart
  · exact absurd ⟨state, h.kept id state hstate hterm, hterm⟩ hpending.not_terminal

theorem Scanned.settle (hidle : Idle env start) (h : Scanned env start l₁ scan live)
    (horder : env.graph.order = l₁ ++ id :: l₂) (hpending : Pending id live) {state : NodeState}
    (hstates : live'.states = live.states.insert id state)
    (hstate : state = .success ∨ ∃ reason, state = .skipped reason) :
    Scanned env start (l₁ ++ [id]) { scan with progressed := true } live' := by
  have hterm : state.isTerminal = true := by
    rcases hstate with rfl | ⟨reason, rfl⟩ <;> rfl
  have hself : live'.states[id]? = some state := by simp [hstates]
  have hother : ∀ k : String, k ≠ id → live'.states[k]? = live.states[k]? := fun k hk => by
    rw [hstates, BTreeMap.get_insert_of_ne _ _ hk]
  refine ⟨h.idle.of_settled fun k => ?_, fun k t ht hk => ?_, fun node hnode => ?_,
    h.nodup, fun _ => ⟨id, ?_, ?_⟩, by simp, by simp⟩
  · by_cases hk : k = id
    · exact .inr ⟨state, hk ▸ hself, hterm⟩
    · exact .inl (hother k hk)
  · have hkept := h.kept k t ht hk
    by_cases hkid : k = id
    · exact absurd ⟨t, hkid ▸ hkept, hk⟩ hpending.not_terminal
    · exact (hother k hkid).trans hkept
  · obtain ⟨hnode, hready, hmem⟩ := h.ready node hnode
    have hne : node.id ≠ id := fun hid => notMem_visited horder (hid ▸ hmem)
    exact ⟨hnode, (hother _ hne).trans hready, by simp [hmem]⟩
  · exact h.pending_start hidle (mem_order horder) hpending
  · rcases hstate with rfl | ⟨reason, rfl⟩
    · exact .inl hself
    · exact .inr ⟨reason, hself⟩

theorem Scanned.visit (hidle : Idle env start) (h : Scanned env start l₁ scan live)
    (horder : env.graph.order = l₁ ++ id :: l₂) {scan' : Scan} {live' : Live}
    (hvisit : Visit env id scan live scan' live') :
    Scanned env start (l₁ ++ [id]) scan' live' := by
  have hwiden : ∀ node ∈ scan.ready, env.graph.nodes[node.id]? = some node ∧
      Pending node.id live ∧ node.id ∈ l₁ ++ [id] := fun node hnode =>
    ⟨(h.ready node hnode).1, (h.ready node hnode).2.1, by simp [(h.ready node hnode).2.2]⟩
  cases hvisit with
  | settled hstate =>
    refine ⟨h.idle, h.kept, hwiden, h.nodup, h.progressed, h.unchanged, ?_⟩
    intro hprogressed hready k hk
    rcases mem_append.mp hk with hk | hk
    · exact h.complete hprogressed hready k hk
    · rw [mem_singleton.mp hk]
      exact h.idle.terminal_of_not_pending (mem_order horder) hstate
  | @waiting node hnode hskip hneeds =>
    refine ⟨h.idle, h.kept, hwiden, h.nodup, h.progressed, h.unchanged, ?_⟩
    -- With every earlier node terminal the policies leave no node waiting.
    intro hprogressed hready
    have hterminal : Graph.NeedsTerminal node live.states := by
      intro need hneed
      obtain ⟨state, hneedState, hterm⟩ := h.complete hprogressed hready need
        (env.graph.needs_mem_of_split horder hnode need hneed)
      exact Graph.needIs_eq_true_iff.mpr ⟨state, hneedState, hterm⟩
    have hsome := Graph.shouldSkip_isSome_of_not_needsSatisfied hterminal hneeds
    simp [hskip] at hsome
  | settles hpending hstates hstate => exact h.settle hidle horder hpending hstates hstate
  | @ready node _ hpending hnode hstates =>
    have hid : node.id = id := env.graph.keyed id node hnode
    refine ⟨h.idle.of_settled fun k => .inl (by rw [hstates]), hstates ▸ h.kept, ?_, ?_, ?_,
      ?_, by simp⟩
    · intro n hn
      rw [Pending, hstates]
      rcases mem_append.mp hn with hn | hn
      · exact hwiden n hn
      · rw [mem_singleton.mp hn, hid]
        exact ⟨hnode, hpending, by simp⟩
    · rw [map_append, map_singleton, nodup_append]
      refine ⟨h.nodup, by simp, ?_⟩
      rintro a ha b hb rfl
      obtain ⟨n, hn, rfl⟩ := mem_map.mp ha
      have hn' : n.id = id := (mem_singleton.mp hb).trans hid
      exact notMem_visited horder (hn' ▸ (h.ready n hn).2.2)
    · exact hstates ▸ h.progressed
    · exact hstates ▸ h.unchanged

end Visits

theorem still_passGate : Tracks Still (passGate env) := by
  refine still_checkCancelled.bind fun _ => (still_ask _).bind fun yields => ?_
  refine Tracks.ite ?_ (EStateM.tracks_pure _)
  refine still_runCheckpoint.bind fun _ => touches_event.bind fun _ => ?_
  exact tracks_throw _

theorem Still.states_eq {live : Live} (h : Still live live') : live'.states = live.states :=
  Std.ExtTreeMap.ext_getElem? fun k => h.states k fun h => h

theorem scanPass_spec {live : Live} (hidle : Idle env live) :
    Returns (scanPass env replay) live fun scan mid =>
      Scanned env live env.graph.order scan mid := by
  refine still_passGate.returns.bind fun _ begun hbegun => ?_
  refine Returns.foldlM (I := fun visited scan s => Scanned env live visited scan s)
    (.start hidle hbegun.states_eq) fun l₁ id l₂ scan s horder h => ?_
  exact (visit_spec id).mono fun scan' s' hvisit => h.visit hidle horder hvisit

/-- A scan of idle states with a pending node settles one or finds one ready. -/
theorem Scanned.progress {live : Live} {scan : Scan} (h : Scanned env live env.graph.order scan mid)
    {id : String} (hid : id ∈ env.graph.order) (hpending : Pending id live) :
    scan.progressed = true ∨ scan.ready ≠ [] := by
  by_contra hnone
  obtain ⟨hprogressed, hready⟩ := not_or.mp hnone
  have hterm := h.complete (by simpa using hprogressed) (not_not.mp hready) id hid
  refine Pending.not_terminal ?_ hterm
  rw [Pending, h.unchanged (by simpa using hprogressed)]
  exact hpending

/-- A step that keeps the loop idle and settles a pending node. -/
structure Settling (env : Env) (live live' : Live) : Prop where
  idle : Idle env live'
  kept : ∀ id, Pending id live' → Pending id live
  settled : ∃ id ∈ env.graph.order, Pending id live ∧ ¬ Pending id live'

theorem Settling.of_settled {live : Live} (h : Idle env live) (hstep : Advances live live')
    {id : String} (hid : id ∈ env.graph.order) (hpending : Pending id live)
    (hterm : Terminal id live') :
    Settling env live live' := by
  refine ⟨h.of_settled hstep, fun k hk => ?_, id, hid, hpending, fun h => h.not_terminal hterm⟩
  rcases hstep k with hsame | hterm
  · exact hsame.symm.trans hk
  · exact absurd hterm hk.not_terminal

def DispatchEnd (env : Env) (ready : List NodeDef) (live live' : Live) : Flow → Prop
  | .idle => ready = [] ∧ live' = live
  | .stop => Exhausted live'
  | .again | .ran => Settling env live live'

theorem runNode_end {live : Live} (hidle : Idle env live) {node : NodeDef}
    (hid : node.id ∈ env.graph.order) (hpending : Pending node.id live) :
    Returns (runNode env replay node) live fun flow live' =>
      DispatchEnd env ready live live' flow := by
  refine (runNode_spec live).mono fun flow live' h => ?_
  obtain ⟨hadvances, hterm, hflow, hstop⟩ := h
  have hsettling : Settling env live live' := .of_settled hidle hadvances hid hpending hterm
  cases flow with
  | idle => exact absurd rfl hflow
  | stop => exact hstop rfl
  | again => exact hsettling
  | ran => exact hsettling

theorem dispatch_end {live : Live} {scan : Scan} (h : Scanned env live env.graph.order scan mid)
    (hwave : isWave env scan.ready = false) :
    Returns (dispatch env replay scan.ready) mid
      fun flow live' => DispatchEnd env scan.ready mid live' flow := by
  unfold dispatch
  rw [hwave, if_neg Bool.false_ne_true]
  cases hlist : scan.ready with
  | nil => exact returns_pure ⟨rfl, rfl⟩
  | cons node rest =>
    obtain ⟨-, hpending, hid⟩ := h.ready node (by simp [hlist])
    exact runNode_end h.idle hid hpending

def pendingCount (env : Env) (live : Live) : Nat :=
  (env.graph.order.filter fun id => live.states[id]? = some NodeState.pending).length

theorem pendingCount_lt {live : Live} (hkept : ∀ id, Pending id live' → Pending id live)
    (hsettled : ∃ id ∈ env.graph.order, Pending id live ∧ ¬ Pending id live') :
    pendingCount env live' < pendingCount env live := by
  obtain ⟨id, hid, hpending, hgone⟩ := hsettled
  have hfilter : (env.graph.order.filter fun id => live'.states[id]? = some NodeState.pending) =
      (env.graph.order.filter fun id => live.states[id]? = some NodeState.pending).filter
        fun id => live'.states[id]? = some NodeState.pending := by
    rw [filter_filter]
    refine filter_congr fun k _ => ?_
    have hk := hkept k
    by_cases hpending : live'.states[k]? = some NodeState.pending
    · simp [hpending, show live.states[k]? = some NodeState.pending from hk hpending]
    · simp [hpending]
  unfold pendingCount
  rw [hfilter, length_filter_lt_length_iff_exists]
  exact ⟨id, mem_filter.mpr ⟨hid, decide_eq_true hpending⟩, by simpa [Pending] using hgone⟩

def PassEnd (env : Env) (live live' : Live) (done : Bool) : Prop :=
  if done then (∀ id ∈ env.graph.order, Terminal id live') ∨ Exhausted live'
  else Idle env live' ∧ pendingCount env live' < pendingCount env live

/-- After an accepted dispatch the loop has ended or settled a node: it never stalls. -/
theorem conclude_end {live : Live} {scan : Scan} {flow : Flow}
    (h : Scanned env live env.graph.order scan mid) (hidle : Idle env live)
    (hend : DispatchEnd env scan.ready mid live' flow) :
    Spec (conclude scan.progressed flow) live'
      (fun done end_ => PassEnd env live end_ done) fun _ _ => False := by
  have hkept : ∀ id, Pending id mid → Pending id live := by
    intro id hid
    rcases h.idle.known id _ hid with hterm | ⟨-, hmem⟩
    · simp [NodeState.isTerminal] at hterm
    · exact h.pending_start hidle hmem hid
  have hall : Idle env live' → allTerminal live'.states = true →
      ∀ id ∈ env.graph.order, Terminal id live' := fun hidle' hall id hid =>
    hidle'.terminal_of_not_pending hid (hidle'.allTerminal_iff.mp hall id hid)
  have hran : Settling env mid live' →
      Idle env live' ∧ pendingCount env live' < pendingCount env live := by
    intro hs
    refine ⟨hs.idle, pendingCount_lt (fun id hid => hkept id (hs.kept id hid)) ?_⟩
    obtain ⟨id, hid, hpending, hgone⟩ := hs.settled
    exact ⟨id, hid, hkept id hpending, hgone⟩
  cases flow with
  | stop => exact spec_pure.mpr (.inr hend)
  | again => exact spec_pure.mpr (hran hend)
  | ran =>
    refine spec_bind.mpr (spec_get.mpr (spec_ite.mpr
      ⟨fun hdone => spec_pure.mpr (.inl (hall hend.idle hdone)), fun _ => ?_⟩))
    exact spec_ite.mpr ⟨fun _ => spec_pure.mpr (hran hend), fun hnot => absurd (by simp) hnot⟩
  | idle =>
    obtain ⟨hready, rfl⟩ := hend
    refine spec_bind.mpr (spec_get.mpr (spec_ite.mpr
      ⟨fun hdone => spec_pure.mpr (.inl (hall h.idle hdone)), fun hopen => ?_⟩))
    -- Some node is still pending and none was ready, so the scan itself has settled one.
    obtain ⟨id, hid, hpending⟩ : ∃ id ∈ env.graph.order, Pending id live' := by
      simpa [h.idle.allTerminal_iff] using hopen
    have hprogressed : scan.progressed = true :=
      (h.progress hid (hkept id hpending)).resolve_right (by simp [hready])
    refine spec_ite.mpr ⟨fun _ => ?_, fun hnot => absurd (by simp [hprogressed]) hnot⟩
    refine spec_pure.mpr ⟨h.idle, pendingCount_lt hkept ?_⟩
    obtain ⟨k, hk, hsettled⟩ := h.progressed hprogressed
    have hmem : k ∈ env.graph.order := by
      rcases hidle.known k _ hk with hterm | ⟨-, hmem⟩
      · simp [NodeState.isTerminal] at hterm
      · exact hmem
    refine ⟨k, hmem, hk, fun hstill => ?_⟩
    rw [Pending] at hstill
    rcases hsettled with hs | ⟨reason, hs⟩ <;> simp [hs] at hstill

/-- What the next scan finds ready is not dispatched as a wave: it is one node, or more than
may run at once, or one of the nodes may not run beside others. -/
def NextSequential (env : Env) (replay : BTreeMap ReplayedStep) (live : Live) : Prop :=
  Spec (scanPass env replay) live (fun scan _ => isWave env scan.ready = false) fun _ _ => True

instance (live : Live) : Decidable (NextSequential env replay live) := by
  unfold NextSequential
  infer_instance

def RaisedByWork (env : Env) (replay : BTreeMap ReplayedStep) (live : Live) (error : EngineError) :
    Prop :=
  (∃ mid, scanPass env replay live = .error error mid) ∨
    ∃ scan mid live', scanPass env replay live = .ok scan mid ∧
      dispatch env replay scan.ready mid = .error error live'

theorem pass_end {live : Live} (hidle : Idle env live)
    (hwave : NextSequential env replay live) :
    Spec (pass env replay) live (fun done live' => PassEnd env live live' done)
      fun error _ => RaisedByWork env replay live error := by
  refine spec_bind.mpr (Spec.intro (fun scan mid hscan => ?_)
    fun error mid hscan => .inl ⟨mid, hscan⟩)
  have hscanned := (scanPass_spec hidle).of_ok hscan
  refine spec_bind.mpr (Spec.intro (fun flow live' hflow => ?_)
    fun error live' hflow => .inr ⟨scan, mid, live', hscan, hflow⟩)
  have hend := (dispatch_end hscanned (hwave.of_ok hscan)).of_ok hflow
  exact (conclude_end hscanned hidle hend).mono (fun _ _ h => h) fun _ _ h => h.elim

/-- The states in which a run from `start` begins a pass: after its entry, and after every
pass that asks for another one. The passes before all began in `C`. -/
inductive AtLoopHead (env : Env) (C : BTreeMap ReplayedStep → Live → Prop) (start : Live)
    (replay : BTreeMap ReplayedStep) : Live → Prop
  | entered {live : Live} (h : enter env start = .ok replay live) :
      AtLoopHead env C start replay live
  | next {live live' : Live} (hhead : AtLoopHead env C start replay live) (hC : C replay live)
      (h : pass env replay live = .ok false live') : AtLoopHead env C start replay live'

/-- The states that an entry builds: one for each node of the graph, none of them running. -/
structure Seeded (env : Env) (states : BTreeMap NodeState) : Prop where
  keys : ∀ id : String, id ∈ env.graph.order ↔ states[id]? ≠ none
  resting : ∀ (id : String) (state : NodeState), states[id]? = some state →
    state = .pending ∨ state.isTerminal = true

theorem Seeded.idle {live : Live} (h : Seeded env live.states) : Idle env live := by
  refine ⟨fun id hid => ?_, fun id state hstate => ?_⟩
  · obtain ⟨state, hstate⟩ := Option.ne_none_iff_exists'.mp ((h.keys id).mp hid)
    rcases h.resting id state hstate with rfl | hterm
    · exact .inl hstate
    · exact .inr ⟨state, hstate, hterm⟩
  · exact (h.resting id state hstate).symm.imp_right
      fun hpending => ⟨hpending, (h.keys id).mpr (by simp [hstate])⟩

theorem seeded_seedStates (nodes : BTreeMap NodeOutcome) : Seeded env (seedStates env nodes) := by
  have hget : ∀ id : String, (seedStates env nodes)[id]? =
      (env.graph.nodes[id]?).map fun _ => seedState nodes id := by
    intro id
    simp [seedStates, Std.ExtTreeMap.getElem?_map]
  refine ⟨fun id => ?_, fun id state hstate => ?_⟩
  · rw [hget, Graph.mem_order_iff, Std.ExtTreeMap.contains_eq_isSome_getElem?]
    cases env.graph.nodes[id]? <;> simp
  · rw [hget, Option.map_eq_some_iff] at hstate
    obtain ⟨node, -, rfl⟩ := hstate
    unfold seedState
    split <;> simp [NodeState.isTerminal]

theorem Seeded.reenterForeach {states : BTreeMap NodeState} (h : Seeded env states)
    (fact : Json.Value) : Seeded env (reenterForeach env states fact) := by
  unfold Qcg.reenterForeach
  split
  · split_ifs
    · refine ⟨fun id => ?_, fun id state hstate => ?_⟩
      · rw [h.keys id, Std.ExtTreeMap.getElem?_map]
        simp
      · rw [Std.ExtTreeMap.getElem?_map, Option.map_eq_some_iff] at hstate
        obtain ⟨old, hold, rfl⟩ := hstate
        split_ifs
        · exact .inl rfl
        · exact h.resting id old hold
    · exact h
  · exact h

theorem enter_states (start : Live) :
    Returns (enter env) start fun _ live => live.states =
      start.journal.state.foreachReports.values.foldl (reenterForeach env)
        (seedStates env start.journal.state.nodes) := by
  refine spec_bind.mpr (spec_get.mpr ?_)
  refine Returns.of_bind fun _ _ => .of_bind fun _ _ => .of_bind fun _ _ => .of_bind fun inputs _ =>
    .of_bind fun _ opened => spec_bind.mpr (spec_modify.mpr ?_)
  have htasks : Tracks Still (authorizeAll env start.journal.state.unresolvedTasks.toList) := by
    unfold authorizeAll
    split
    · exact tracks_throw _
    · exact EStateM.tracks_forM fun _ _ => touches_event
  exact htasks.returns.bind fun _ live h => returns_pure h.states_eq

theorem idle_of_enter {start live : Live} (h : enter env start = .ok replay live) :
    Idle env live := by
  apply Seeded.idle
  rw [(enter_states start).of_ok h]
  generalize start.journal.state.foreachReports.values = reports
  have hseeds : Seeded env (seedStates env start.journal.state.nodes) := seeded_seedStates _
  generalize seedStates env start.journal.state.nodes = states at hseeds ⊢
  induction reports generalizing states with
  | nil => exact hseeds
  | cons fact reports ih => exact ih _ (hseeds.reenterForeach fact)

theorem AtLoopHead.idle {start live : Live}
    (h : AtLoopHead env (NextSequential env) start replay live) : Idle env live := by
  induction h with
  | entered h => exact idle_of_enter h
  | next _ hwave h ih => exact ((pass_end ih hwave).of_ok h).1

/-- None of the next `passes` passes dispatches a wave. -/
def Sequential (env : Env) (replay : BTreeMap ReplayedStep) : Nat → Live → Prop
  | 0, _ => True
  | passes + 1, live => NextSequential env replay live ∧
      Spec (pass env replay) live
        (fun done live' => done = false → Sequential env replay passes live') fun _ _ => True

instance Sequential.decidable : ∀ (passes : Nat) (live : Live),
    Decidable (Sequential env replay passes live)
  | 0, _ => .isTrue trivial
  | passes + 1, _ =>
      have := Sequential.decidable passes
      inferInstanceAs (Decidable (_ ∧ Spec _ _ _ _))

end Qcg
