import Qcg.State.Identity

/-!
# Prompts of a run

Which prompt a run shows. Reports and requests install prompts under their owner,
settlements and responses take them away, and the one shown is the first owner's for as
long as the run does not end.
-/

namespace Qcg

open BTreeMap (get_erase get_filter get_insert)
open Json (Value Members)

def asks (api : Api) (event : Value) : Option Interaction :=
  match kindOf event with
  | some .stepFinished =>
      let status := (event.getStr "status").getD ""
      if FoldState.suspendedStatus status then promptOf api event (status = "needs_confirm")
      else none
  | some .confirmRequest => promptOf api event true
  | some .runWaiting => promptOf api event false
  | _ => none

variable {p' : Prompts}

namespace Prompts

variable {api : Api} {p : Prompts} {event : Value} {kind : EventKind} {path : String}

/-- A position is kept only for an owner with a prompt. -/
def SeqsOwned (p : Prompts) : Prop :=
  ∀ (owner : String) (seq : Nat), p.seqs[owner]? = some seq →
    ∃ interaction, p.interactions[owner]? = some interaction

/-- The prompt shown is the first owner's. -/
def Projected (p : Prompts) : Prop :=
  p.pending = p.interactions.first?.map Prod.snd ∧
    p.pendingSeq = p.interactions.first?.bind fun entry => p.seqs[entry.1]?

theorem projected_project (p : Prompts) : p.project.Projected := ⟨rfl, rfl⟩

theorem projected_empty : ({} : Prompts).Projected := by
  have hnone : BTreeMap.first? (∅ : BTreeMap Interaction) = none := by
    rw [BTreeMap.first?_eq_none_iff]
    simp
  simp [Projected, hnone]

theorem step_cases (api : Api) (p : Prompts) (hkind : kindOf event = some kind) :
    (∃ interaction, asks api event = some interaction ∧
      p.step api kind event =
        p.install (p.owner event interaction) interaction (event.getU64 "seq")) ∨
    asks api event = none ∧
      ((∃ path, p.step api kind event = p.retire path) ∨
        p.step api kind event = p.respond kind event ∨
        kind.isTerminal = true ∧
          p.step api kind event = { p with pending := none, pendingSeq := none } ∨
        p.step api kind event = p) := by
  have hrequest : ∀ confirmation, asks api event = promptOf api event confirmation →
      (∃ interaction, asks api event = some interaction ∧
        p.request api event confirmation =
          p.install (p.owner event interaction) interaction (event.getU64 "seq")) ∨
      asks api event = none ∧ p.request api event confirmation = p := by
    intro confirmation hasks
    rw [hasks]
    unfold request
    cases promptOf api event confirmation with
    | none => exact .inr ⟨rfl, rfl⟩
    | some interaction => exact .inl ⟨interaction, rfl, rfl⟩
  cases kind
  case stepFinished =>
    simp only [step, report]
    by_cases hsuspended : FoldState.suspendedStatus ((event.getStr "status").getD "") = true
    · simp only [hsuspended, if_true]
      rcases hrequest (((event.getStr "status").getD "") = "needs_confirm")
        (by simp [asks, hkind, hsuspended]) with hasked | ⟨hnone, hsame⟩
      · exact .inl hasked
      · exact .inr ⟨hnone, .inr (.inr (.inr hsame))⟩
    · simp only [hsuspended]
      exact .inr ⟨by simp [asks, hkind, hsuspended], .inl ⟨_, rfl⟩⟩
  case confirmRequest =>
    rcases hrequest true (by simp [asks, hkind]) with hasked | ⟨hnone, hsame⟩
    · exact .inl hasked
    · exact .inr ⟨hnone, .inr (.inr (.inr hsame))⟩
  case runWaiting =>
    rcases hrequest false (by simp [asks, hkind]) with hasked | ⟨hnone, hsame⟩
    · exact .inl hasked
    · exact .inr ⟨hnone, .inr (.inr (.inr hsame))⟩
  case stepSkipped =>
    refine .inr ⟨by simp [asks, hkind], ?_⟩
    simp only [step]
    split
    · exact .inl ⟨_, rfl⟩
    · exact .inr (.inr (.inr rfl))
  all_goals refine .inr ⟨by simp [asks, hkind], ?_⟩
  case userAnswered => exact .inr (.inl rfl)
  case userConfirmed => exact .inr (.inl rfl)
  case runFinished => exact .inr (.inr (.inl ⟨rfl, rfl⟩))
  case runError => exact .inr (.inr (.inl ⟨rfl, rfl⟩))
  case runCanceled => exact .inr (.inr (.inl ⟨rfl, rfl⟩))
  case runInterrupted => exact .inr (.inr (.inl ⟨rfl, rfl⟩))
  all_goals exact .inr (.inr (.inr rfl))

theorem retire_interactions (p : Prompts) (path : String) :
    (p.retire path).interactions = p.interactions.erase path := by
  unfold retire
  simp only
  split
  · split_ifs <;> rfl
  · rfl

theorem retire_seqs (p : Prompts) (path : String) :
    (p.retire path).seqs = p.seqs.erase path := by
  unfold retire
  simp only
  split
  · split_ifs <;> rfl
  · rfl

theorem respond_interactions (p : Prompts) (kind : EventKind) (event : Value) :
    (p.respond kind event).interactions =
      p.interactions.filter fun _ i => !FoldState.settles kind event i := by
  unfold respond
  simp only
  split_ifs <;> rfl

theorem respond_seqs (p : Prompts) (kind : EventKind) (event : Value) :
    (p.respond kind event).seqs = p.seqs.filter fun owner _ =>
      (p.interactions.filter fun _ i => !FoldState.settles kind event i).contains owner := by
  unfold respond
  simp only
  split_ifs <;> rfl

/-- Owners may lose their prompt; one that keeps it keeps its position. -/
structure Shrinks (p p' : Prompts) : Prop where
  kept : ∀ (owner : String) (interaction : Interaction),
    p'.interactions[owner]? = some interaction →
      p.interactions[owner]? = some interaction ∧ p'.seqs[owner]? = p.seqs[owner]?
  owned : p.SeqsOwned → p'.SeqsOwned

theorem shrinks_retire (p : Prompts) (path : String) : p.Shrinks (p.retire path) := by
  constructor
  · intro owner interaction h
    rw [retire_interactions, get_erase] at h
    rw [retire_seqs, get_erase]
    split_ifs at h ⊢ with howner
    exact ⟨h, rfl⟩
  · intro howned owner seq h
    rw [retire_seqs, get_erase] at h
    rw [retire_interactions, get_erase]
    split_ifs at h ⊢ with howner
    exact howned owner seq h

theorem shrinks_respond (p : Prompts) (kind : EventKind) (event : Value) :
    p.Shrinks (p.respond kind event) := by
  constructor
  · intro owner interaction h
    rw [respond_interactions] at h
    have hcontains : (p.interactions.filter fun _ i =>
        !FoldState.settles kind event i).contains owner = true := by
      rw [Std.ExtTreeMap.contains_eq_isSome_getElem?, h]
      rfl
    rw [get_filter, Option.filter_eq_some_iff] at h
    refine ⟨h.1, ?_⟩
    rw [respond_seqs, get_filter]
    simp only [hcontains]
    cases (p.seqs[owner]? : Option Nat) <;> rfl
  · intro _ owner seq h
    rw [respond_seqs, get_filter, Option.filter_eq_some_iff] at h
    rw [respond_interactions]
    exact Option.isSome_iff_exists.mp
      (by rw [← Std.ExtTreeMap.contains_eq_isSome_getElem?]; exact h.2)

/-- Taking prompts away leaves the one shown in place as long as its own entry stays. -/
theorem Shrinks.projected {p : Prompts} (h : p.Shrinks p') (hp : p.Projected)
    (hpending : p'.pending = p.pending) (hseq : p'.pendingSeq = p.pendingSeq)
    (hstays : ∀ owner interaction, p.interactions.first? = some (owner, interaction) →
      p'.interactions[owner]? = some interaction) : p'.Projected := by
  unfold Projected
  rw [hpending, hseq, hp.1, hp.2]
  cases hmin : p.interactions.first? with
  | none =>
    have hempty : p'.interactions.first? = none := by
      rw [BTreeMap.first?_eq_none_iff] at hmin ⊢
      intro owner
      cases howner : (p'.interactions[owner]? : Option Interaction) with
      | none => rfl
      | some interaction =>
        have hgone := (h.kept owner interaction howner).1
        rw [hmin owner] at hgone
        cases hgone
    simp [hempty]
  | some entry =>
    obtain ⟨owner, interaction⟩ := entry
    have hsame := hstays owner interaction hmin
    have hmin' := BTreeMap.first?_of_le hmin hsame fun k v hk => (h.kept k v hk).1
    simp [hmin', (h.kept owner interaction hsame).2]

theorem projected_retire (hp : p.Projected) (path : String) : (p.retire path).Projected := by
  by_cases hshown : ∃ retired pending, p.interactions[path]? = some retired ∧
      p.pending = some pending ∧ pending.responseIdentity = retired.responseIdentity
  · obtain ⟨retired, pending, hretired, hpending, hsame⟩ := hshown
    have heq : p.retire path = { project { p with interactions := p.interactions.erase path } with
        seqs := p.seqs.erase path } := by
      simp [retire, hretired, hpending, hsame, project]
    rw [heq]
    refine ⟨rfl, ?_⟩
    show (BTreeMap.first? (p.interactions.erase path)).bind (fun entry => p.seqs[entry.1]?) =
      (BTreeMap.first? (p.interactions.erase path)).bind fun entry => (p.seqs.erase path)[entry.1]?
    cases hmin : BTreeMap.first? (p.interactions.erase path) with
    | none => rfl
    | some entry =>
      have hmem := (BTreeMap.first?_eq_some_iff.mp hmin).1
      rw [get_erase] at hmem
      simp only [Option.bind_some, get_erase]
      split_ifs at hmem ⊢
      rfl
  · have hkept : (p.retire path).pending = p.pending ∧
      (p.retire path).pendingSeq = p.pendingSeq := by
      unfold retire
      simp only
      split
      · next retired pending hretired hpending =>
        rw [if_neg fun hsame => hshown ⟨retired, pending, hretired, hpending, hsame⟩]
        exact ⟨rfl, rfl⟩
      · exact ⟨rfl, rfl⟩
    refine (shrinks_retire p path).projected hp hkept.1 hkept.2 ?_
    intro owner interaction hmin
    have hmem := (BTreeMap.first?_eq_some_iff.mp hmin).1
    have howner : owner ≠ path := by
      rintro rfl
      exact hshown ⟨interaction, interaction, hmem, by rw [hp.1, hmin]; rfl, rfl⟩
    rw [retire_interactions, get_erase, if_neg howner, hmem]

theorem projected_respond (hp : p.Projected) (kind : EventKind) (event : Value) :
    (p.respond kind event).Projected := by
  by_cases hany : p.pending.any (FoldState.settles kind event) = true
  · have hproject : p.respond kind event = project { p with
        interactions := p.interactions.filter fun _ i => !FoldState.settles kind event i
        seqs := p.seqs.filter fun owner _ => (p.interactions.filter fun _ i =>
          !FoldState.settles kind event i).contains owner } := by
      simp [respond, hany]
    rw [hproject]
    exact projected_project _
  · refine (shrinks_respond p kind event).projected hp ?_ ?_ ?_
    · simp [respond, hany]
    · simp [respond, hany]
    · intro owner interaction hmin
      have hshown : p.pending = some interaction := by rw [hp.1, hmin]; rfl
      rw [hshown] at hany
      rw [respond_interactions, get_filter, (BTreeMap.first?_eq_some_iff.mp hmin).1]
      simpa using hany

theorem seqsOwned_install (howned : p.SeqsOwned) (owner : Option String)
    (interaction : Interaction) (seq : Option Nat) :
    (p.install owner interaction seq).SeqsOwned := by
  cases owner with
  | none => exact howned
  | some owner =>
    intro k n hk
    change (stampSeq p.seqs owner seq)[k]? = some n at hk
    change ∃ i, (p.interactions.insert owner interaction)[k]? = some i
    rw [get_insert]
    by_cases hk' : k = owner
    · exact ⟨interaction, if_pos hk'⟩
    · rw [if_neg hk']
      apply howned k n
      cases seq <;> simpa [stampSeq, get_insert, get_erase, hk'] using hk

variable (seqs : BTreeMap Nat)

theorem stampSeq_self (owner : String) (seq : Option Nat) :
    (stampSeq seqs owner seq)[owner]? = seq := by
  cases seq <;> simp [stampSeq]

theorem stampSeq_of_ne {owner k : String} (seq : Option Nat) (h : k ≠ owner) :
    (stampSeq seqs owner seq)[k]? = seqs[k]? := by
  cases seq <;> simp [stampSeq, get_insert, get_erase, h]

theorem seqsOwned_step (howned : p.SeqsOwned) (hkind : kindOf event = some kind) :
    (p.step api kind event).SeqsOwned := by
  rcases step_cases api p hkind with ⟨interaction, -, hstep⟩ | ⟨-, hrest⟩
  · rw [hstep]
    exact seqsOwned_install howned _ _ _
  · rcases hrest with ⟨path, hstep⟩ | hstep | ⟨-, hstep⟩ | hstep
    all_goals rw [hstep]
    · exact (shrinks_retire p path).owned howned
    · exact (shrinks_respond p kind event).owned howned
    · exact howned
    · exact howned

theorem projected_step (hp : p.Projected) (hkind : kindOf event = some kind)
    (hrunning : kind.isTerminal = false)
    (hnamed : (asks api event).isSome = true → (event.getStr "node").isSome = true) :
    (p.step api kind event).Projected := by
  rcases step_cases api p hkind with ⟨interaction, hasks, hstep⟩ | ⟨-, hrest⟩
  · obtain ⟨node, hnode⟩ := Option.isSome_iff_exists.mp (hnamed (by simp [hasks]))
    rw [hstep]
    simp only [owner, hnode, install]
    exact projected_project _
  · rcases hrest with ⟨path, hstep⟩ | hstep | ⟨hends, -⟩ | hstep
    · rw [hstep]
      exact projected_retire hp path
    · rw [hstep]
      exact projected_respond hp kind event
    · rw [hrunning] at hends
      cases hends
    · rw [hstep]
      exact hp

end Prompts

/-- An owner's prompt was installed by the last event that asked for this owner. -/
def AskedBy (api : Api) (events : List Value) (owner : String) (interaction : Interaction)
    (seq : Option Nat) : Prop :=
  ∃ before event after, events = before ++ event :: after ∧
    asks api event = some interaction ∧ event.getStr "node" = some owner ∧
    event.getU64 "seq" = seq ∧
    ∀ later ∈ after, (asks api later).isSome = true → later.getStr "node" ≠ some owner

theorem AskedBy.append {api : Api} {events : List Value} {owner : String}
    {interaction : Interaction} {seq : Option Nat} {event : Value}
    (h : AskedBy api events owner interaction seq)
    (hother : (asks api event).isSome = true → event.getStr "node" ≠ some owner) :
    AskedBy api (events ++ [event]) owner interaction seq := by
  obtain ⟨before, asked, after, hsplit, hasks, hnode, hseq, hlater⟩ := h
  refine ⟨before, asked, after ++ [event], by simp [hsplit], hasks, hnode, hseq, ?_⟩
  intro later hmem
  rw [List.mem_append, List.mem_singleton] at hmem
  rcases hmem with hmem | rfl
  · exact hlater later hmem
  · exact hother

namespace Prompts

variable {api : Api} {p : Prompts} {event : Value} {kind : EventKind} {events : List Value}

/-- Every prompt goes back to the event that installed it, with its position. -/
def Asked (api : Api) (events : List Value) (p : Prompts) : Prop :=
  ∀ (owner : String) (interaction : Interaction), p.interactions[owner]? = some interaction →
    AskedBy api events owner interaction p.seqs[owner]?

theorem Shrinks.asked (h : p.Shrinks p') (hp : p.Asked api events) (hnone : asks api event = none) :
    p'.Asked api (events ++ [event]) := by
  intro owner interaction howner
  obtain ⟨hkept, hseq⟩ := h.kept owner interaction howner
  rw [hseq]
  exact (hp owner interaction hkept).append (by simp [hnone])

theorem asked_step (hp : p.Asked api events) (hkind : kindOf event = some kind)
    (hnamed : (asks api event).isSome = true → (event.getStr "node").isSome = true) :
    (p.step api kind event).Asked api (events ++ [event]) := by
  rcases step_cases api p hkind with ⟨interaction, hasks, hstep⟩ | ⟨hnone, hrest⟩
  · obtain ⟨node, hnode⟩ := Option.isSome_iff_exists.mp (hnamed (by simp [hasks]))
    rw [hstep]
    simp only [owner, hnode]
    intro k i hk
    change (p.interactions.insert node interaction)[k]? = some i at hk
    change AskedBy api (events ++ [event]) k i (stampSeq p.seqs node (event.getU64 "seq"))[k]?
    rw [get_insert] at hk
    split_ifs at hk with hself
    · cases hk
      subst hself
      exact ⟨events, event, [], rfl, hasks, hnode, (stampSeq_self _ _ _).symm, by simp⟩
    · rw [stampSeq_of_ne _ _ hself]
      refine (hp k i hk).append fun _ hk' => hself ?_
      rw [hnode, Option.some.injEq] at hk'
      exact hk'.symm
  · rcases hrest with ⟨path, hstep⟩ | hstep | ⟨-, hstep⟩ | hstep
    all_goals rw [hstep]
    · exact (shrinks_retire p path).asked hp hnone
    · exact (shrinks_respond p kind event).asked hp hnone
    · exact Shrinks.asked ⟨fun _ _ h => ⟨h, rfl⟩, id⟩ hp hnone
    · exact Shrinks.asked ⟨fun _ _ h => ⟨h, rfl⟩, id⟩ hp hnone

end Prompts

namespace RunState

variable {api : Api} {s s' : RunState} {event : Value} {events : List Value}

theorem apply_prompts (h : s.apply api event = .ok s') :
    ∃ kind, kindOf event = some kind ∧ s'.prompts = s.prompts.step api kind event := by
  obtain ⟨kind, h⟩ := accepted_of_apply h
  refine ⟨kind, h.kindOf_eq, ?_⟩
  rcases kind.isRecord_or with hrecord | rfl | rfl | hidentity
  · exact congrArg Facets.prompts (h.record hrecord).2
  · exact congrArg Facets.prompts h.forked.2
  · obtain ⟨-, -, next, -, -, hfacets⟩ := h.elapsed
    exact congrArg Facets.prompts hfacets
  · obtain ⟨-, -, -, mode, -, -, hfacets⟩ := h.admitted hidentity
    rcases hidentity with rfl | rfl <;> exact congrArg Facets.prompts hfacets

theorem foldlM_seqsOwned (h : events.foldlM (RunState.apply api) s = .ok s')
    (howned : s.prompts.SeqsOwned) : s'.prompts.SeqsOwned := by
  refine Except.foldlM_induction (P := fun s => s.prompts.SeqsOwned) h howned ?_
  intro s event s' _ howned hstep
  obtain ⟨kind, hkind, hprompts⟩ := apply_prompts hstep
  rw [hprompts]
  exact Prompts.seqsOwned_step howned hkind

/-- While the run goes on and every prompt names its owner, the first owner's prompt is shown
and every prompt goes back to the event that installed it. -/
theorem foldlM_prompts (h : events.foldlM (RunState.apply api) {} = .ok s)
    (hrunning : ∀ event ∈ events, ∀ kind, kindOf event = some kind → kind.isTerminal = false)
    (hnamed : ∀ event ∈ events, (asks api event).isSome = true →
      (event.getStr "node").isSome = true) :
    s.prompts.Projected ∧ s.prompts.Asked api events := by
  induction events using List.reverseRecOn generalizing s with
  | nil =>
    cases h
    refine ⟨Prompts.projected_empty, ?_⟩
    intro owner interaction howner
    change ((∅ : BTreeMap Interaction)[owner]?) = some interaction at howner
    simp at howner
  | append_singleton events event ih =>
    obtain ⟨mid, hmid, hlast⟩ := Except.foldlM_append_eq_ok.mp h
    obtain ⟨s', hs', hnil⟩ := Except.foldlM_cons_eq_ok.mp hlast
    cases hnil
    obtain ⟨hprojected, hasked⟩ := ih hmid (fun e he => hrunning e (by simp [he]))
      fun e he => hnamed e (by simp [he])
    obtain ⟨kind, hkind, hprompts⟩ := apply_prompts hs'
    rw [hprompts]
    exact ⟨Prompts.projected_step hprojected hkind (hrunning event (by simp) kind hkind)
        (hnamed event (by simp)),
      Prompts.asked_step hasked hkind (hnamed event (by simp))⟩

theorem prompts_follow_events (h : events.foldlM (RunState.apply api) {} = .ok s) :
    (∀ (owner : String) (seq : Nat), s.interactionSeqs[owner]? = some seq →
      ∃ interaction, s.pendingInteractions[owner]? = some interaction) ∧
    ((∀ event ∈ events, ∀ kind, kindOf event = some kind → kind.isTerminal = false) →
      (∀ event ∈ events, (asks api event).isSome = true → (event.getStr "node").isSome = true) →
      (s.pending.isSome = true ↔ s.pendingInteractions.isEmpty = false) ∧
      ∀ interaction, s.pending = some interaction →
        ∃ owner, s.pendingInteractions.first? = some (owner, interaction) ∧
          AskedBy api events owner interaction s.pendingSeq) ∧
    ∀ before event after kind p q, events = before ++ event :: after →
      before.foldlM (RunState.apply api) {} = .ok p → p.apply api event = .ok q →
      kindOf event = some kind → kind = .userAnswered ∨ kind = .userConfirmed →
      ∀ owner : String, q.pendingInteractions[owner]? =
        (p.pendingInteractions[owner]?).filter fun i => !FoldState.settles kind event i := by
  refine ⟨?_, ?_, ?_⟩
  · refine foldlM_seqsOwned h ?_
    intro owner seq howner
    change ((∅ : BTreeMap Nat)[owner]?) = some seq at howner
    simp at howner
  · intro hrunning hnamed
    obtain ⟨⟨hpending, hseq⟩, hasked⟩ := foldlM_prompts h hrunning hnamed
    change s.pending = s.pendingInteractions.first?.map Prod.snd at hpending
    change s.pendingSeq = s.pendingInteractions.first?.bind
      (fun entry => s.interactionSeqs[entry.1]?) at hseq
    constructor
    · rw [hpending, Option.isSome_map, BTreeMap.isSome_first?, Bool.not_eq_true']
    · intro interaction hshown
      rw [hpending, Option.map_eq_some_iff] at hshown
      obtain ⟨⟨owner, i⟩, hmin, rfl⟩ := hshown
      refine ⟨owner, hmin, ?_⟩
      rw [hseq, hmin]
      exact hasked owner i (BTreeMap.first?_eq_some_iff.mp hmin).1
  · intro before event after kind p q _ _ hq hkind hresponse owner
    obtain ⟨kind', hkind', hprompts⟩ := apply_prompts hq
    rw [hkind] at hkind'
    cases hkind'
    have hrespond : q.prompts = p.prompts.respond kind event := by
      rw [hprompts]
      rcases hresponse with rfl | rfl <;> rfl
    have howners : q.pendingInteractions = (p.prompts.respond kind event).interactions :=
      congrArg Prompts.interactions hrespond
    rw [howners, Prompts.respond_interactions, get_filter]
    rfl

end RunState

/-- Reports of two nodes that wait for the same question, and its answer. -/
def sharedQuestion : List Value :=
  let question : Value := .obj [("id", .str "q")]
  [journaled 1 .runQueued "run" [],
    journaled 2 .stepFinished "run" [("node", .str "a"), ("status", .str "needs_user"),
      ("question", question)],
    journaled 3 .stepFinished "run" [("node", .str "b"), ("status", .str "needs_user"),
      ("question", question)],
    journaled 4 .userAnswered "run" [("question_id", .str "q"), ("values", .null)]]

def waitingState : RunState :=
  (RunState.foldValues .plain (sharedQuestion.take 3)).toOption.get (by decide +kernel)

theorem prompts_follow_events_shared :
    waitingState.pending.isSome = true ∧ waitingState.pendingInteractions.isEmpty = false := by
  have hfold : (sharedQuestion.take 3).foldlM (RunState.apply .plain) {} = .ok waitingState := by
    decide +kernel
  have hshown := (RunState.prompts_follow_events hfold).2.1 (by decide +kernel) (by decide +kernel)
  have hpending : waitingState.pending.isSome = true := by decide +kernel
  exact ⟨hpending, hshown.1.mp hpending⟩

/-- The answer to one owner's question takes the other owner's prompt away as well. -/
theorem answer_removes_both :
    (waitingState.pendingInteractions.keys = ["a", "b"]) ∧
      (RunState.foldValues .plain sharedQuestion).map
        (fun s => s.pendingInteractions.keys) = .ok [] := by
  decide +kernel

end Qcg
