import Qcg.Engine.Run
import Qcg.Engine.Records
import Qcg.Service.ForkWorkspace
import Mathlib.Logic.Relation

/-!
# Resource pins

A fresh round records its start with the hashes of all its resources and then one `resource`
record for each of them. A later round compares the hashes it collects with the pins that the
`resource` records left, never with those of the start, and writes no further ones. A fork takes
over both kinds of records, up to any record of its source.
-/

namespace Qcg

open List
open Json (Value Members)

namespace RunState

variable {api : Api} {s s' : RunState} {event : Value} {kind : EventKind}

theorem Accepted.resources (h : Accepted api s kind event s') :
    s'.resourcePins = resourceStep s.resourcePins kind event ∧
      s'.executionStarted = if kind = .runStarted then true else s.executionStarted := by
  rcases kind.isRecord_or with hrecord | rfl | rfl | hidentity
  · have hfacets := (h.record hrecord).2
    have hstarted : kind ≠ .runStarted := by
      rintro rfl
      simp [EventKind.isRecord] at hrecord
    rw [if_neg hstarted]
    exact ⟨congrArg Facets.resources hfacets, congrArg Facets.executionStarted hfacets⟩
  · exact ⟨congrArg Facets.resources h.forked.2, congrArg Facets.executionStarted h.forked.2⟩
  · obtain ⟨-, -, next, -, -, hfacets⟩ := h.elapsed
    exact ⟨congrArg Facets.resources hfacets, congrArg Facets.executionStarted hfacets⟩
  · obtain ⟨-, -, -, mode, -, -, hfacets⟩ := h.admitted hidentity
    rcases hidentity with rfl | rfl
    · exact ⟨congrArg Facets.resources hfacets, congrArg Facets.executionStarted hfacets⟩
    · exact ⟨congrArg Facets.resources hfacets, congrArg Facets.executionStarted hfacets⟩

theorem Accepted.runId_isSome (h : Accepted api s kind event s')
    (hevent : (event.getStr "run_id").isSome = true) (hs : s.runId.isSome = true) :
    s'.runId.isSome = true := by
  rcases kind.isRecord_or with hrecord | rfl | rfl | hidentity
  · rwa [(h.record hrecord).1]
  · rwa [h.forked.1]
  · rwa [h.elapsed.2.1]
  · rwa [(h.admitted hidentity).1]

end RunState

/-- What a loader reports of a resource; the details are its type, source and trust. -/
structure ResourceSnapshot where
  name : String
  sha256 : String
  details : List (String × Value)
  details_apart : ∀ entry ∈ details, entry.1 ≠ "name" ∧ entry.1 ≠ "sha256"

def ResourceSnapshot.payload (snapshot : ResourceSnapshot) : Members :=
  ("name", .str snapshot.name) :: ("sha256", .str snapshot.sha256) :: snapshot.details

/-- The snapshots of a round, one for each resource of the manifest. -/
structure Collected where
  snapshots : List ResourceSnapshot
  names_nodup : (snapshots.map (·.name)).Nodup

namespace Collected

def current (collected : Collected) : BTreeMap String :=
  BTreeMap.extend ∅ (collected.snapshots.map fun snapshot => (snapshot.name, snapshot.sha256))

end Collected

def verifyPin (current : BTreeMap String) (pin : String × String) : Except EngineError Unit :=
  match (current[pin.1]? : Option String) with
  | none => .error (.failed ("pinned resource `" ++ pin.1 ++ "` is unavailable while resuming"))
  | some actual =>
    if actual ≠ pin.2 then
      .error (.failed ("resource `" ++ pin.1 ++ "` changed while resuming: expected " ++ pin.2 ++
        ", got " ++ actual))
    else .ok ()

def verifyResourcePins (s : RunState) (collected : Collected) : Except EngineError Unit :=
  if s.runId.isNone then .ok ()
  else s.resourcePins.toList.forM (verifyPin collected.current)

theorem verifyPin_eq_ok {current : BTreeMap String} {pin : String × String} :
    verifyPin current pin = .ok () ↔ (current[pin.1]? : Option String) = some pin.2 := by
  unfold verifyPin
  cases (current[pin.1]? : Option String) with
  | none => simp
  | some actual => simp

theorem verifyResourcePins_eq_ok {s : RunState} {collected : Collected}
    (hrun : s.runId.isSome = true) :
    verifyResourcePins s collected = .ok () ↔
      ∀ name expected : String, (s.resourcePins[name]? : Option String) = some expected →
        (collected.current[name]? : Option String) = some expected := by
  have hnone : s.runId.isNone = false := by simpa using hrun
  simp only [verifyResourcePins, hnone, Bool.false_eq_true, if_false, Except.forM_eq_ok,
    verifyPin_eq_ok]
  constructor
  · intro h name expected hpin
    exact h (name, expected) (Std.ExtTreeMap.mem_toList_iff_getElem?_eq_some.mpr hpin)
  · rintro h ⟨name, expected⟩ hpin
    exact h name expected (Std.ExtTreeMap.mem_toList_iff_getElem?_eq_some.mp hpin)

def startRecord (events : List Value) : Option Value :=
  events.find? fun event => kindOf event == some .runStarted

def hashIn (started : Value) (name : String) : Option String := do
  let hashes ← (started.get "resource_hashes").bind Value.asArray
  let hash ← hashes.find? fun hash => hash.getStr "name" == some name
  hash.getStr "sha256"

def recordedHash (events : List Value) (name : String) : Option String :=
  (startRecord events).bind (hashIn · name)

def pinStep (pins : BTreeMap String) (event : Value) : BTreeMap String :=
  match kindOf event with
  | some kind => resourceStep pins kind event
  | none => pins

def eventPins (events : List Value) : BTreeMap String :=
  events.foldl pinStep ∅

theorem eventPins_concat (events : List Value) {event : Value} {kind : EventKind}
    (h : kindOf event = some kind) :
    eventPins (events ++ [event]) = resourceStep (eventPins events) kind event := by
  simp [eventPins, pinStep, h]

/-- Records under increasing sequence numbers, none behind the last one. -/
structure Ordered (events : List Value) (last : Nat) : Prop where
  numbered : ∀ e ∈ events, ∃ n, e.getU64 "seq" = some n ∧ n ≤ last
  increasing : events.Pairwise fun a b => (a.getU64 "seq").getD 0 < (b.getU64 "seq").getD 0

theorem Ordered.concat {events : List Value} {event : Value} {last next : Nat}
    (h : Ordered events last) (hseq : event.getU64 "seq" = some next) (hlt : last < next) :
    Ordered (events ++ [event]) next := by
  constructor
  · intro e he
    rcases mem_append.mp he with he | he
    · obtain ⟨n, hn, hle⟩ := h.numbered e he
      exact ⟨n, hn, by omega⟩
    · rw [mem_singleton.mp he]
      exact ⟨next, hseq, le_rfl⟩
  · rw [pairwise_append]
    refine ⟨h.increasing, pairwise_singleton _ _, ?_⟩
    intro a ha b hb
    obtain ⟨n, hn, hle⟩ := h.numbered a ha
    rw [mem_singleton.mp hb, hn, hseq]
    exact hle.trans_lt hlt

/-- The fold holds the pins that the journal records, and knows whether it records a start. -/
structure Journal.Agrees (j : Journal) : Prop where
  ordered : Ordered j.events j.state.lastSeq
  pins : j.state.resourcePins = eventPins j.events
  started : j.state.executionStarted = (startRecord j.events).isSome
  runId : j.state.runId.isSome = true

theorem startRecord_concat (events : List Value) {event : Value} {kind : EventKind}
    (h : kindOf event = some kind) :
    startRecord (events ++ [event]) =
      (startRecord events).or (if kind = .runStarted then some event else none) := by
  simp only [startRecord, List.find?_append, List.find?_cons, List.find?_nil, h]
  by_cases hkind : kind = .runStarted
  · simp [hkind]
  · simp [hkind, beq_eq_false_iff_ne.mpr hkind]

variable {j : Journal} {env : Env}

theorem Journal.Agrees.append {j' : Journal} {kind : EventKind} {payload : Members} (h : j.Agrees)
    (happend : j.append env kind payload = .ok j') :
    j'.Agrees ∧ ∃ event, j'.events = j.events ++ [event] ∧ kindOf event = some kind ∧
      event = j.record env kind payload := by
  obtain ⟨hfits, happly, hevents⟩ := Journal.append_eq_ok happend
  have hkind : kindOf (j.record env kind payload) = some kind := by
    simp [kindOf, Journal.record, Stamps.getStr_stamp_kind, EventKind.ofName_name]
  obtain ⟨kind', haccepted⟩ := RunState.accepted_of_apply happly
  obtain rfl : kind = kind' := by
    have := haccepted.kindOf_eq
    rw [hkind] at this
    exact Option.some.inj this
  obtain ⟨hpins, hstarted⟩ := haccepted.resources
  have hseq : (j.record env kind payload).getU64 "seq" = some j.nextSeq := by
    rw [Value.getU64, Journal.record, Stamps.get_stamp_seq]
    exact Value.asU64_natCast hfits
  obtain ⟨hlast, hlt⟩ := haccepted.getU64_seq hseq
  refine ⟨⟨?_, ?_, ?_, ?_⟩, _, hevents, hkind, rfl⟩
  · rw [hevents]
    exact h.ordered.concat (hlast ▸ hseq) hlt
  · rw [hpins, h.pins, hevents, eventPins_concat _ hkind]
  · rw [hstarted, h.started, hevents, startRecord_concat _ hkind]
    split_ifs
    · simp
    · simp
  · apply haccepted.runId_isSome _ h.runId
    simp [Journal.record, Stamps.getStr_stamp_runId]

variable {events : List Value}

theorem Journal.Agrees.reopen (h : Journal.reopen env events = .ok j) :
    j.Agrees ∧ j.events = events := by
  obtain ⟨state, hstate, h⟩ := Except.bind_eq_ok.mp h
  cases h
  have hfold : Ordered events state.lastSeq ∧ state.resourcePins = eventPins events ∧
      state.executionStarted = (startRecord events).isSome := by
    clear * - hstate
    induction events using List.reverseRecOn generalizing state with
    | nil =>
      cases hstate
      exact ⟨⟨by simp, .nil⟩, rfl, rfl⟩
    | append_singleton events event ih =>
      obtain ⟨mid, hmid, hlast⟩ := Except.foldlM_append_eq_ok.mp hstate
      obtain ⟨final, hfinal, hnil⟩ := Except.foldlM_cons_eq_ok.mp hlast
      cases hnil
      have happly := (RunState.applyChecked_eq_ok hfinal).2
      obtain ⟨kind, haccepted⟩ := RunState.accepted_of_apply happly
      obtain ⟨hpins, hstarted⟩ := haccepted.resources
      obtain ⟨hmidOrdered, hmidPins, hmidStarted⟩ := ih mid hmid
      obtain ⟨hseq, hlt⟩ := RunState.applyChecked_seq hfinal
      refine ⟨hmidOrdered.concat hseq hlt, ?_⟩
      rw [hpins, hstarted, hmidPins, hmidStarted, eventPins_concat _ haccepted.kindOf_eq,
        startRecord_concat _ haccepted.kindOf_eq]
      refine ⟨rfl, ?_⟩
      split_ifs
      · simp
      · simp
  exact ⟨⟨hfold.1, hfold.2.1, hfold.2.2, by cases state.runId <;> rfl⟩, rfl⟩

/-- Where the process of a run is: absent, writing its remaining pins, or past its entry. -/
inductive Phase where
  | idle
  | pinning (rest : List ResourceSnapshot)
  | running

structure PinRun where
  journal : Journal
  phase : Phase

/-- A step of a run over any number of rounds, or from a run to a fork of it at a checkpoint.
Nodes are executed while it is running. -/
inductive PinRun.Step : Option Nat → PinRun → PinRun → Prop
  /-- A fresh round records its start. -/
  | start {env : Env} {j j' : Journal} (collected : Collected) (inputs : BTreeMap Value)
      (fresh : j.state.executionStarted = false)
      (hashes : env.resourceHashes = collected.snapshots.map ResourceSnapshot.payload)
      (append : j.append env .runStarted
        (Members.ofList (runStartedPayload env j.state.toFoldState inputs)) = .ok j') :
      Step none ⟨j, .idle⟩ ⟨j', .pinning collected.snapshots⟩
  | pin {env : Env} {j j' : Journal} {snapshot : ResourceSnapshot} {rest : List ResourceSnapshot}
      (append : j.append env .resource (Members.ofList snapshot.payload) = .ok j') :
      Step none ⟨j, .pinning (snapshot :: rest)⟩ ⟨j', .pinning rest⟩
  | opened {j : Journal} : Step none ⟨j, .pinning []⟩ ⟨j, .running⟩
  /-- A later round goes on if the pins agree with what it collects. -/
  | resume {j : Journal} (collected : Collected) (started : j.state.executionStarted = true)
      (verified : verifyResourcePins j.state collected = .ok ()) :
        Step none ⟨j, .idle⟩ ⟨j, .running⟩
  /-- Any other record, of this process or of a peer. -/
  | work {env : Env} {j j' : Journal} {phase : Phase} {kind : EventKind} {payload : Members}
      (notStart : kind ≠ .runStarted) (notPin : kind ≠ .resource)
      (append : j.append env kind payload = .ok j') : Step none ⟨j, phase⟩ ⟨j', phase⟩
  /-- The process ends, and what is durable is folded again. -/
  | crash {env : Env} {j j' : Journal} {phase : Phase}
      (reopened : Journal.reopen env j.events = .ok j') : Step none ⟨j, phase⟩ ⟨j', .idle⟩
  | fork {env : Env} {j j' : Journal} {phase : Phase} {stamps : Stamps} {store : Fork.Store}
      {sourceId targetId : String} {atSeq : Nat} {patch : Fork.StatePatch} {source : Fork.Source}
      {forked : Fork.Forked} (durable : source.durable = j.events)
      (populated : Fork.populateCheckpointFork env.api stamps store sourceId targetId atSeq patch
        source = .ok forked)
      (opened : Journal.reopen env forked.streams.journal = .ok j') :
      Step (some atSeq) ⟨j, phase⟩ ⟨j', .idle⟩

namespace ResourceSnapshot

section

variable (snapshot : ResourceSnapshot)

include snapshot

theorem get_payload_name :
    (Value.obj snapshot.payload).getStr "name" = some snapshot.name := by
  simp [payload, Value.getStr, Value.get, Members.get_cons, Value.asStr]

theorem get_payload_sha256 :
    (Value.obj snapshot.payload).getStr "sha256" = some snapshot.sha256 := by
  simp [payload, Value.getStr, Value.get, Members.get_cons, Value.asStr]

theorem get_details {key : String}
    (hkey : key = "name" ∨ key = "sha256") : Members.get snapshot.details.reverse key = none := by
  cases hget : Members.get snapshot.details.reverse key with
  | none => rfl
  | some value =>
    have hmem := snapshot.details_apart _ (mem_reverse.mp (Members.mem_of_get hget))
    rcases hkey with rfl | rfl
    · exact absurd rfl hmem.1
    · exact absurd rfl hmem.2

theorem get_ofList_payload {key : String}
    (hkey : key = "name" ∨ key = "sha256") :
    Members.get (Members.ofList snapshot.payload) key = Members.get snapshot.payload key := by
  have happend : Members.get (snapshot.details.reverse ++
      [("sha256", .str snapshot.sha256), ("name", .str snapshot.name)]) key =
        (Members.get snapshot.details.reverse key).or
          (Members.get [("sha256", .str snapshot.sha256), ("name", .str snapshot.name)] key) :=
    lookup_append
  rw [Members.get_ofList]
  simp only [payload, reverse_cons, append_assoc, cons_append, nil_append]
  rw [happend, snapshot.get_details hkey, Option.none_or]
  rcases hkey with rfl | rfl
  · simp [Members.get_cons]
  · simp [Members.get_cons]

theorem resourceStep_record (env : Env) (j : Journal)
    (pins : BTreeMap String) :
    resourceStep pins .resource (j.record env .resource (Members.ofList snapshot.payload)) =
      pins.insert snapshot.name snapshot.sha256 := by
  have hname : (j.record env .resource (Members.ofList snapshot.payload)).getStr "name" =
      some snapshot.name := by
    rw [Journal.getStr_record (by decide), get_ofList_payload _ (Or.inl rfl)]
    exact snapshot.get_payload_name
  have hsha : (j.record env .resource (Members.ofList snapshot.payload)).getStr "sha256" =
      some snapshot.sha256 := by
    rw [Journal.getStr_record (by decide), get_ofList_payload _ (Or.inr rfl)]
    exact snapshot.get_payload_sha256
  simp [resourceStep, hname, hsha]

end

end ResourceSnapshot

theorem recordedHash_concat {event : Value} {kind : EventKind} (hkind : kindOf event = some kind)
    (h : kind ≠ .runStarted ∨ (startRecord events).isSome = true) (name : String) :
    recordedHash (events ++ [event]) name = recordedHash events name := by
  have hrecord : startRecord (events ++ [event]) = startRecord events := by
    rw [startRecord_concat _ hkind]
    rcases h with h | h
    · simp [h]
    · obtain ⟨started, hstarted⟩ := Option.isSome_iff_exists.mp h
      simp [hstarted]
  simp [recordedHash, hrecord]

theorem recordedHash_start {collected : Collected} {inputs : BTreeMap Value}
    (hnone : startRecord j.events = none)
    (hhashes : env.resourceHashes = collected.snapshots.map ResourceSnapshot.payload)
    (name : String) :
    recordedHash (j.events ++ [j.record env .runStarted
        (Members.ofList (runStartedPayload env j.state.toFoldState inputs))]) name =
      (collected.snapshots.find? fun snapshot => snapshot.name == name).map (·.sha256) := by
  have hkind : kindOf (j.record env .runStarted
      (Members.ofList (runStartedPayload env j.state.toFoldState inputs))) = some .runStarted := by
    simp [kindOf, Journal.record, Stamps.getStr_stamp_kind, EventKind.ofName_name]
  have hget : (j.record env .runStarted
      (Members.ofList (runStartedPayload env j.state.toFoldState inputs))).get "resource_hashes" =
        some (.arr (collected.snapshots.map fun snapshot => .obj snapshot.payload)) := by
    rw [Journal.get_record (by decide), Members.get_ofList]
    simp [runStartedPayload, Members.get_cons, hhashes]
  simp only [recordedHash, hashIn, startRecord_concat _ hkind, hnone, Option.none_or, if_true,
    Option.bind_eq_bind, Option.bind_some, hget, Value.asArray]
  induction collected.snapshots with
  | nil => rfl
  | cons snapshot rest ih =>
    by_cases hname : snapshot.name = name
    · simp [hname, ResourceSnapshot.get_payload_name, ResourceSnapshot.get_payload_sha256]
    · simpa [hname, ResourceSnapshot.get_payload_name, beq_eq_false_iff_ne.mpr hname] using ih

theorem Collected.find?_eq (collected : Collected) {snapshot : ResourceSnapshot}
    (h : snapshot ∈ collected.snapshots) :
    (collected.snapshots.find? fun other => other.name == snapshot.name) = some snapshot := by
  have hnodup := collected.names_nodup
  generalize collected.snapshots = snapshots at h hnodup
  induction snapshots with
  | nil => simp at h
  | cons first rest ih =>
    rw [map_cons, nodup_cons] at hnodup
    rcases mem_cons.mp h with rfl | h
    · simp
    · have hne : first.name ≠ snapshot.name := by
        intro heq
        exact hnodup.1 (heq ▸ mem_map_of_mem h)
      simpa [beq_eq_false_iff_ne.mpr hne] using ih h hnodup.2

theorem Collected.current_of_mem (collected : Collected) {snapshot : ResourceSnapshot}
    (h : snapshot ∈ collected.snapshots) :
    (collected.current[snapshot.name]? : Option String) = some snapshot.sha256 := by
  apply BTreeMap.get_extend_of_mem
  · rw [map_map]
    exact collected.names_nodup
  · exact mem_map.mpr ⟨snapshot, h, rfl⟩

theorem resourceStep_of_ne {pins : BTreeMap String} {kind : EventKind} {event : Value}
    (h : kind ≠ .resource) : resourceStep pins kind event = pins := by
  cases kind <;> first | rfl | exact absurd rfl h

/-- A record that is neither a start nor a pin. -/
def Inert (event : Value) : Prop :=
  kindOf event ≠ some .runStarted ∧ kindOf event ≠ some .resource

theorem Inert.eventPins_concat {event : Value} (h : Inert event) :
    eventPins (events ++ [event]) = eventPins events := by
  cases hkind : kindOf event with
  | none => simp [eventPins, pinStep, hkind]
  | some kind =>
    rw [Qcg.eventPins_concat _ hkind, resourceStep_of_ne]
    rintro rfl
    exact h.2 hkind

theorem Inert.startRecord_concat {event : Value} (h : Inert event) :
    startRecord (events ++ [event]) = startRecord events := by
  simp [startRecord, h.1]

/-- The second journal takes over the starts and the pins of the first one. -/
inductive Carried : List Value → List Value → Prop
  | nil : Carried [] []
  | left {events written : List Value} {e : Value} (h : Carried events written) (inert : Inert e) :
      Carried (events ++ [e]) written
  | right {events written : List Value} {w : Value} (h : Carried events written)
      (inert : Inert w) : Carried events (written ++ [w])
  | both {events written : List Value} {e w : Value} (h : Carried events written)
      (kind : kindOf w = kindOf e) (pins : ∀ pins, pinStep pins w = pinStep pins e)
      (hashes : ∀ name, hashIn w name = hashIn e name) : Carried (events ++ [e]) (written ++ [w])

namespace Carried

variable {events' written written' : List Value}

theorem append (h : Carried events written) (h' : Carried events' written') :
    Carried (events ++ events') (written ++ written') := by
  induction h' with
  | nil => simpa using h
  | left _ inert ih =>
    rw [← append_assoc]
    exact ih.left inert
  | right _ inert ih =>
    rw [← append_assoc]
    exact ih.right inert
  | both _ kind pins hashes ih =>
    rw [← append_assoc, ← append_assoc]
    exact ih.both kind pins hashes

theorem eventPins_eq (h : Carried events written) : eventPins written = eventPins events := by
  induction h with
  | nil => rfl
  | left _ inert ih => rw [ih, inert.eventPins_concat]
  | right _ inert ih => rw [inert.eventPins_concat, ih]
  | both _ kind pins hashes ih =>
    simp only [eventPins, foldl_append, foldl_cons, foldl_nil] at ih ⊢
    rw [pins, ih]

theorem startRecord_eq (h : Carried events written) :
    (startRecord written).isSome = (startRecord events).isSome ∧
      ∀ name, recordedHash written name = recordedHash events name := by
  induction h with
  | nil => exact ⟨rfl, fun _ => rfl⟩
  | left _ inert ih => simpa only [recordedHash, inert.startRecord_concat] using ih
  | right _ inert ih => simpa only [recordedHash, inert.startRecord_concat] using ih
  | @both events written e w _ kind pins hashes ih =>
    have hconcat (events : List Value) (e : Value) : startRecord (events ++ [e]) =
        (startRecord events).or (if kindOf e == some .runStarted then some e else none) := by
      simp only [startRecord, find?_append, find?_cons, find?_nil]
      split <;> simp_all
    simp only [recordedHash, hconcat, kind] at ih ⊢
    obtain ⟨hsome, hsame⟩ := ih
    cases hevents : startRecord events with
    | some started =>
      rw [hevents, Option.isSome_some] at hsome
      obtain ⟨started', hstarted'⟩ := Option.isSome_iff_exists.mp hsome
      simpa [hevents, hstarted'] using hsame
    | none =>
      rw [hevents, Option.isSome_none, Option.isSome_eq_false_iff, Option.isNone_iff_eq_none]
        at hsome
      rw [hsome]
      split_ifs
      · simpa using hashes
      · simp

end Carried

section Fork

open Fork

variable {stamps : Stamps} {targetId : String} {e : Value}

theorem carryOver_of_not_inert (h : ¬Inert e) : carryOver e = some e := by
  have hkind : e.getStr "t" = some "run_started" ∨ e.getStr "t" = some "resource" := by
    rw [Inert, not_and_or, not_ne_iff, not_ne_iff, kindOf_eq_some_iff, kindOf_eq_some_iff] at h
    exact h
  rcases hkind with hkind | hkind
  · simp [carryOver, hkind, leftBehind]
  · simp [carryOver, hkind, leftBehind]

theorem inert_suspended (members : Members) : Inert (.obj (suspended members)) := by
  have hkind : kindOf (.obj (suspended members)) = some .stepFinished := by
    rw [kindOf_eq_some_iff]
    simp [Value.getStr, suspended, Members.get_insert, EventKind.name, Value.asStr]
  simp [Inert, hkind]

theorem carried_restamp (members : Members) (seq : Nat) :
    Carried [.obj members] [.obj (restamp stamps targetId seq members)] := by
  have hkind : kindOf (.obj (restamp stamps targetId seq members)) = kindOf (.obj members) := by
    rw [kindOf, getStr_restamp (by decide), kindOf]
  apply @Carried.both [] [] _ _ .nil hkind
  · intro pins
    simp (disch := decide) only [pinStep, hkind, resourceStep, getStr_restamp]
  · intro name
    simp (disch := decide) only [hashIn, Value.get_obj, get_restamp]

theorem carried_written {written : List Fork.Entry}
    (h : List.Forall₂ (Rewritten stamps targetId)
      (durableEntries (events.filterMap carryOver)) written) :
    Carried events (written.map Fork.Entry.event) := by
  induction events generalizing written with
  | nil =>
    cases h
    exact .nil
  | cons e events ih =>
    cases hcarry : carryOver e with
    | none =>
      rw [filterMap_cons_none hcarry] at h
      have hinert : Inert e := by
        by_contra hpin
        rw [carryOver_of_not_inert hpin] at hcarry
        cases hcarry
      exact (Carried.nil.left hinert).append (ih h)
    | some e' =>
      rw [filterMap_cons_some hcarry] at h
      obtain ⟨w, rest, ⟨-, members, hmembers, hevent⟩, hrest, rfl⟩ :=
        List.forall₂_cons_left_iff.mp h
      have hmembers : e' = .obj members := hmembers
      have hcarried : Carried [e'] [w.event] := by
        rw [hmembers, hevent]
        exact carried_restamp members w.seq
      have hfirst : Carried [e] [w.event] →
          Carried (e :: events) ((w :: rest).map Fork.Entry.event) :=
        fun hfirst => hfirst.append (ih hrest)
      apply hfirst
      by_cases hinert : Inert e
      · -- A prompt becomes a step of its own; every other record is taken over as it is.
        unfold carryOver at hcarry
        dsimp only at hcarry
        split_ifs at hcarry
        · split at hcarry
          · next members' _ _ _ =>
            cases hcarry
            cases hmembers
            have hwritten : Inert w.event := by
              have hkind : kindOf w.event = kindOf (.obj (suspended members')) := by
                rw [hevent, kindOf, getStr_restamp (by decide), kindOf]
              simpa only [Inert, hkind] using inert_suspended members'
            exact (Carried.nil.left hinert).right hwritten
          · cases hcarry
        · cases hcarry
          exact hcarried
      · rw [carryOver_of_not_inert hinert] at hcarry
        cases hcarry
        exact hcarried

theorem carried_fork {api : Api} {store : Store} {sourceId : String} {atSeq last : Nat}
    {patch : StatePatch} {source : Source} {forked : Forked}
    (hordered : Ordered source.durable last)
    (h : populateCheckpointFork api stamps store sourceId targetId atSeq patch source =
      .ok forked) :
    Carried (through source.durable atSeq) forked.streams.journal := by
  obtain ⟨events, hselect, h⟩ := Except.bind_eq_ok.mp h
  obtain ⟨plan, -, h⟩ := Except.bind_eq_ok.mp h
  obtain ⟨workspace, -, h⟩ := Except.bind_eq_ok.mp h
  obtain ⟨streams, hstreams, h⟩ := Except.bind_eq_ok.mp h
  have hforked : forked.streams = streams := by
    dsimp only at h
    split at h
    · cases h
      rfl
    · cases h
  rw [select_eq_ok hselect] at hstreams
  obtain ⟨hwritten, hown⟩ := writeStreams_eq_ok hstreams
  have hdurable := Rewritten.durable (renumber_eq_ok hwritten).1
  rw [history_durable (pairwise_durableEntries hordered.increasing)] at hdurable
  have hinert : ∀ e ∈ streams.own, Inert e := by
    rw [hown]
    intro e he
    rcases kindOf_own e he with hkind | hkind
    · simp [Inert, hkind]
    · simp [Inert, hkind]
  have hcarried := carried_written hdurable
  rw [hforked, Streams.journal]
  generalize streams.own = own at hinert
  induction own using List.reverseRecOn with
  | nil => simpa using hcarried
  | append_singleton own e ih =>
    rw [← append_assoc]
    exact (ih fun e he => hinert e (mem_append_left _ he)).right (hinert e (by simp))

end Fork

/-- At every moment the pins agree with the start. -/
def PinsSound (events : List Value) : Prop :=
  ∀ kept, kept <+: events → ∀ name digest : String,
    ((eventPins kept)[name]? : Option String) = some digest → recordedHash kept name = some digest

theorem pinsSound_concat {event : Value} : PinsSound (events ++ [event]) ↔
    PinsSound events ∧ ∀ name digest : String,
      ((eventPins (events ++ [event]))[name]? : Option String) = some digest →
        recordedHash (events ++ [event]) name = some digest := by
  simp only [PinsSound, prefix_concat_iff, or_imp, forall_and, forall_eq]
  exact and_comm

theorem PinsSound.carried {written : List Value} (h : PinsSound events)
    (hcarried : Carried events written) : PinsSound written := by
  induction hcarried with
  | nil => exact h
  | left _ _ ih => exact ih (pinsSound_concat.mp h).1
  | @right events written w hrest inert ih =>
    have hboth := hrest.right inert
    rw [pinsSound_concat, hboth.eventPins_eq]
    refine ⟨ih h, ?_⟩
    intro name digest hpin
    rw [hboth.startRecord_eq.2]
    exact h events prefix_rfl name digest hpin
  | both hrest kind pins hashes ih =>
    have hboth := hrest.both kind pins hashes
    rw [pinsSound_concat, hboth.eventPins_eq]
    refine ⟨ih (pinsSound_concat.mp h).1, ?_⟩
    intro name digest hpin
    rw [hboth.startRecord_eq.2]
    exact h _ prefix_rfl name digest hpin

structure PinRun.Admitted (r : PinRun) : Prop where
  idle : r.phase = .idle
  reopened : ∃ env, Journal.reopen env r.journal.events = .ok r.journal
  unstarted : ∀ event ∈ r.journal.events, Inert event

namespace PinRun

/-- No pin contradicts the start, and those still to be written are of the start. -/
structure Sound (r : PinRun) : Prop where
  agrees : r.journal.Agrees
  pins : PinsSound r.journal.events
  rest : ∀ rest, r.phase = .pinning rest → (startRecord r.journal.events).isSome = true ∧
    ∀ snapshot ∈ rest, recordedHash r.journal.events snapshot.name = some snapshot.sha256

variable {r : PinRun}

theorem recordedHash_eq_none (h : startRecord events = none)
    (name : String) : recordedHash events name = none := by
  simp [recordedHash, h]

theorem Admitted.carried (h : r.Admitted) : Carried [] r.journal.events := by
  have hkinds := h.unstarted
  generalize r.journal.events = events at hkinds
  induction events using List.reverseRecOn with
  | nil => exact .nil
  | append_singleton events event ih =>
    exact (ih fun other hother => hkinds other (mem_append_left _ hother)).right
      (hkinds event (by simp))

theorem Admitted.sound (h : r.Admitted) : r.Sound := by
  obtain ⟨env, hreopen⟩ := h.reopened
  refine ⟨(Journal.Agrees.reopen hreopen).1, PinsSound.carried ?_ h.carried, ?_⟩
  · intro kept hkept name digest hpin
    rw [prefix_nil] at hkept
    simp [hkept, eventPins] at hpin
  · intro rest hphase
    rw [h.idle] at hphase
    cases hphase

theorem fork_carries {j : Journal} {api : Api} {stamps : Stamps} {store : Fork.Store}
    {sourceId targetId : String} {atSeq : Nat} {patch : Fork.StatePatch} {source : Fork.Source}
    {forked : Fork.Forked} (h : j.Agrees) (durable : source.durable = j.events)
    (populated : Fork.populateCheckpointFork api stamps store sourceId targetId atSeq patch source =
      .ok forked) :
    Carried (Fork.through j.events atSeq) forked.streams.journal ∧
      Fork.through j.events atSeq <+: j.events := by
  have hordered := h.ordered
  constructor
  · rw [← durable] at hordered ⊢
    exact carried_fork hordered populated
  · apply Fork.through_prefix _ hordered.increasing
    intro e he
    obtain ⟨n, hn, -⟩ := hordered.numbered e he
    exact ⟨n, hn⟩

theorem Sound.step {r r' : PinRun} {cut : Option Nat} (h : r.Sound) (hstep : Step cut r r') :
    r'.Sound := by
  cases hstep with
  | @start env j j' collected inputs fresh hashes append =>
    obtain ⟨hagrees, event, hevents, hkind, hrecord⟩ := h.agrees.append append
    have hnone : startRecord j.events = none := by
      have hstarted := h.agrees.started
      rw [fresh] at hstarted
      simpa using hstarted.symm
    have hpins : eventPins (j.events ++ [event]) = eventPins j.events := by
      rw [eventPins_concat _ hkind, resourceStep_of_ne (by decide)]
    refine ⟨hagrees, ?_, ?_⟩
    · rw [hevents, pinsSound_concat, hpins]
      refine ⟨h.pins, ?_⟩
      intro name digest hpin
      have hrecorded := h.pins _ prefix_rfl name digest hpin
      rw [recordedHash_eq_none hnone] at hrecorded
      cases hrecorded
    · intro rest hphase
      cases hphase
      refine ⟨by rw [hevents, startRecord_concat _ hkind]; simp, ?_⟩
      intro snapshot hsnapshot
      rw [hevents, hrecord, recordedHash_start hnone hashes, collected.find?_eq hsnapshot]
      rfl
  | @pin env j j' snapshot rest append =>
    obtain ⟨hagrees, event, hevents, hkind, hrecord⟩ := h.agrees.append append
    obtain ⟨hstarted, hrest⟩ := h.rest _ rfl
    have hkeep : ∀ name, recordedHash (j.events ++ [event]) name = recordedHash j.events name :=
      recordedHash_concat hkind (Or.inl (by decide))
    refine ⟨hagrees, ?_, ?_⟩
    · rw [hevents, pinsSound_concat]
      refine ⟨h.pins, ?_⟩
      intro name digest hpin
      rw [eventPins_concat _ hkind, hrecord, snapshot.resourceStep_record] at hpin
      rw [hkeep]
      by_cases hname : name = snapshot.name
      · subst hname
        rw [BTreeMap.get_insert, if_pos rfl] at hpin
        rw [← hpin]
        exact hrest snapshot mem_cons_self
      · rw [BTreeMap.get_insert_of_ne _ _ hname] at hpin
        exact h.pins _ prefix_rfl name digest hpin
    · intro rest' hphase
      cases hphase
      refine ⟨by rw [hevents, startRecord_concat _ hkind]; simp [hstarted], ?_⟩
      intro other hother
      rw [hevents, hkeep]
      exact hrest other (mem_cons_of_mem _ hother)
  | opened => exact ⟨h.agrees, h.pins, fun rest hphase => nomatch hphase⟩
  | resume collected started verified =>
    exact ⟨h.agrees, h.pins, fun rest hphase => nomatch hphase⟩
  | @work env j j' phase kind payload notStart notPin append =>
    obtain ⟨hagrees, event, hevents, hkind, hrecord⟩ := h.agrees.append append
    have hkeep : ∀ name, recordedHash (j.events ++ [event]) name = recordedHash j.events name :=
      recordedHash_concat hkind (Or.inl notStart)
    refine ⟨hagrees, ?_, ?_⟩
    · rw [hevents, pinsSound_concat]
      refine ⟨h.pins, ?_⟩
      intro name digest hpin
      rw [eventPins_concat _ hkind, resourceStep_of_ne notPin] at hpin
      rw [hkeep]
      exact h.pins _ prefix_rfl name digest hpin
    · intro rest hphase
      obtain ⟨hstarted, hrest⟩ := h.rest rest hphase
      refine ⟨by rw [hevents, startRecord_concat _ hkind]; simp [hstarted], ?_⟩
      intro other hother
      rw [hevents, hkeep]
      exact hrest other hother
  | crash reopened =>
    obtain ⟨hagrees, hevents⟩ := Journal.Agrees.reopen reopened
    refine ⟨hagrees, ?_, fun rest hphase => nomatch hphase⟩
    rw [hevents]
    exact h.pins
  | fork durable populated opened =>
    obtain ⟨hagrees, hevents⟩ := Journal.Agrees.reopen opened
    refine ⟨hagrees, ?_, fun rest hphase => nomatch hphase⟩
    rw [hevents]
    obtain ⟨hcarried, hprefix⟩ := fork_carries h.agrees durable populated
    exact PinsSound.carried (fun kept hkept => h.pins kept (hkept.trans hprefix)) hcarried

/-- A round that collects another hash for a resource than the start recorded. -/
def Changed (events : List Value) (collected : Collected) : Prop :=
  ∃ name recorded actual, recordedHash events name = some recorded ∧
    (collected.current[name]? : Option String) = some actual ∧ actual ≠ recorded

/-- Every hash of the start has its own durable `resource` record. -/
def PinsComplete (events : List Value) : Prop :=
  ∀ name recorded : String, recordedHash events name = some recorded →
    ((eventPins events)[name]? : Option String) = some recorded

/-- The pins of the journal, and one more resource that they do not mention. -/
def withUnpinned (pins : BTreeMap String) (name sha256 : String)
    (h : (pins[name]? : Option String) = none) : Collected where
  snapshots := ⟨name, sha256, [], by simp⟩ ::
    pins.toList.map fun pin => ⟨pin.1, pin.2, [], by simp⟩
  names_nodup := by
    have hkeys : pins.toList.map Prod.fst = pins.keys := Std.ExtTreeMap.map_fst_toList_eq_keys
    have hmap : (pins.toList.map fun pin => (⟨pin.1, pin.2, [], by simp⟩ : ResourceSnapshot)).map
        (·.name) = pins.keys := by
      rw [← hkeys, List.map_map]
      rfl
    rw [List.map_cons, hmap, List.nodup_cons]
    refine ⟨?_, Std.ExtTreeMap.nodup_keys⟩
    rw [Std.ExtTreeMap.mem_keys]
    intro hmem
    simp [Std.ExtTreeMap.getElem?_eq_some_getElem hmem] at h

theorem Sound.refused_iff (h : r.Sound) :
    (∀ collected, Changed r.journal.events collected →
        ∃ error, verifyResourcePins r.journal.state collected = .error error) ↔
      PinsComplete r.journal.events := by
  have hverify := @verifyResourcePins_eq_ok r.journal.state
  constructor
  · intro hrefused name recorded hrecorded
    by_contra hmissing
    have hnone : ((eventPins r.journal.events)[name]? : Option String) = none := by
      cases hpin : ((eventPins r.journal.events)[name]? : Option String) with
      | none => rfl
      | some digest =>
        have hdigest := h.pins _ prefix_rfl name digest hpin
        rw [hrecorded] at hdigest
        exact absurd (hpin.trans hdigest.symm) hmissing
    -- a round that finds this one resource changed passes the check
    set collected := withUnpinned (eventPins r.journal.events) name (recorded ++ "'") hnone
    have hpassed : verifyResourcePins r.journal.state collected = .ok () := by
      apply (hverify h.agrees.runId).mpr
      intro other expected hpin
      rw [h.agrees.pins] at hpin
      have hmem := Std.ExtTreeMap.mem_toList_iff_getElem?_eq_some.mpr hpin
      exact @Collected.current_of_mem collected ⟨other, expected, [], by simp⟩
        (mem_cons_of_mem _ (mem_map.mpr ⟨(other, expected), hmem, rfl⟩))
    have hchanged : Changed r.journal.events collected := by
      refine ⟨name, recorded, recorded ++ "'", hrecorded, ?_, ?_⟩
      · exact @Collected.current_of_mem collected ⟨name, recorded ++ "'", [], by simp⟩
          mem_cons_self
      · simp
    obtain ⟨error, herror⟩ := hrefused collected hchanged
    rw [hpassed] at herror
    cases herror
  · rintro hcomplete collected ⟨name, recorded, actual, hrecorded, hactual, hne⟩
    cases hresult : verifyResourcePins r.journal.state collected with
    | error error => exact ⟨error, rfl⟩
    | ok _ =>
      have hpin := hcomplete name recorded hrecorded
      rw [← h.agrees.pins] at hpin
      have hcurrent := (hverify h.agrees.runId).mp hresult name recorded hpin
      rw [hactual] at hcurrent
      exact absurd (Option.some.inj hcurrent) hne

/-- The process ends before it has written all its pins, or the checkpoint of a fork lies
between the start and the last of its pins. -/
def Interrupts : Option Nat → PinRun → PinRun → Prop
  | none, r, r' => r'.phase = .idle ∧ ∃ snapshot rest, r.phase = .pinning (snapshot :: rest)
  | some atSeq, r, _ => ¬PinsComplete (Fork.through r.journal.events atSeq)

/-- The pins are complete, or the process is still writing those that are not there. -/
def Completing (r : PinRun) : Prop :=
  PinsComplete r.journal.events ∨ ∃ rest, r.phase = .pinning rest ∧
    ∀ name recorded : String, recordedHash r.journal.events name = some recorded →
      ((eventPins r.journal.events)[name]? : Option String) = some recorded ∨
        ∃ snapshot ∈ rest, snapshot.name = name

theorem Completing.pinsComplete (h : r.Completing)
    (hphase : ∀ rest, r.phase ≠ .pinning rest) : PinsComplete r.journal.events := by
  rcases h with h | ⟨rest, hpinning, -⟩
  · exact h
  · exact absurd hpinning (hphase rest)

theorem Completing.step {r r' : PinRun} {cut : Option Nat} (h : r.Completing) (hsound : r.Sound)
    (hstep : Step cut r r') (hinterrupts : ¬Interrupts cut r r') : r'.Completing := by
  cases hstep with
  | @start env j j' collected inputs fresh hashes append =>
    obtain ⟨-, event, hevents, hkind, hrecord⟩ := hsound.agrees.append append
    have hnone : startRecord j.events = none := by
      have hstarted := hsound.agrees.started
      rw [fresh] at hstarted
      simpa using hstarted.symm
    right
    refine ⟨collected.snapshots, rfl, ?_⟩
    intro name recorded hrecorded
    rw [hevents, hrecord, recordedHash_start hnone hashes, Option.map_eq_some_iff] at hrecorded
    obtain ⟨snapshot, hfind, -⟩ := hrecorded
    exact Or.inr ⟨snapshot, List.mem_of_find?_eq_some hfind, by
      simpa using List.find?_some hfind⟩
  | @pin env j j' snapshot rest append =>
    obtain ⟨-, event, hevents, hkind, hrecord⟩ := hsound.agrees.append append
    have hkeep : ∀ name, recordedHash (j.events ++ [event]) name = recordedHash j.events name :=
      recordedHash_concat hkind (Or.inl (by decide))
    have hsame := (hsound.rest _ rfl).2 snapshot mem_cons_self
    right
    refine ⟨rest, rfl, ?_⟩
    intro name recorded hrecorded
    rw [hevents, hkeep] at hrecorded
    rw [hevents, eventPins_concat _ hkind, hrecord, snapshot.resourceStep_record]
    by_cases hname : name = snapshot.name
    · subst hname
      rw [hsame] at hrecorded
      left
      rw [BTreeMap.get_insert, if_pos rfl, hrecorded]
    · rw [BTreeMap.get_insert_of_ne _ _ hname]
      rcases h with hcomplete | ⟨rest', hphase, hpinned⟩
      · exact Or.inl (hcomplete name recorded hrecorded)
      · cases hphase
        apply (hpinned name recorded hrecorded).imp_right
        rintro ⟨other, hother, hothername⟩
        rcases mem_cons.mp hother with rfl | hother
        · exact absurd hothername.symm hname
        · exact ⟨other, hother, hothername⟩
  | opened =>
    left
    rcases h with hcomplete | ⟨rest, hphase, hpinned⟩
    · exact hcomplete
    · cases hphase
      intro name recorded hrecorded
      rcases hpinned name recorded hrecorded with hpin | ⟨snapshot, hsnapshot, -⟩
      · exact hpin
      · simp at hsnapshot
  | resume collected started verified =>
    exact Or.inl (h.pinsComplete fun rest hphase => nomatch hphase)
  | @work env j j' phase kind payload notStart notPin append =>
    obtain ⟨-, event, hevents, hkind, hrecord⟩ := hsound.agrees.append append
    have hkeep : ∀ name, recordedHash (j.events ++ [event]) name = recordedHash j.events name :=
      recordedHash_concat hkind (Or.inl notStart)
    have hpins : eventPins (j.events ++ [event]) = eventPins j.events := by
      rw [eventPins_concat _ hkind, resourceStep_of_ne notPin]
    simpa only [Completing, PinsComplete, hevents, hkeep, hpins] using h
  | @crash env j j' phase reopened =>
    obtain ⟨-, hevents⟩ := Journal.Agrees.reopen reopened
    left
    rw [hevents]
    rcases h with hcomplete | ⟨rest, hphase, hpinned⟩
    · exact hcomplete
    · cases rest with
      | cons snapshot rest => exact absurd ⟨rfl, snapshot, rest, hphase⟩ hinterrupts
      | nil =>
        intro name recorded hrecorded
        rcases hpinned name recorded hrecorded with hpin | ⟨snapshot, hsnapshot, -⟩
        · exact hpin
        · simp at hsnapshot
  | fork durable populated opened =>
    obtain ⟨-, hevents⟩ := Journal.Agrees.reopen opened
    obtain ⟨hcarried, -⟩ := fork_carries hsound.agrees durable populated
    left
    have hkept := not_not.mp hinterrupts
    intro name recorded hrecorded
    rw [hevents, hcarried.startRecord_eq.2] at hrecorded
    rw [hevents, hcarried.eventPins_eq]
    exact hkept name recorded hrecorded

theorem Admitted.completing (h : r.Admitted) : r.Completing := by
  left
  intro name recorded hrecorded
  rw [h.carried.startRecord_eq.2] at hrecorded
  cases hrecorded

/-- A changed resource is refused at every state of a run and of its forks exactly if every hash
of the start has its own durable record. It has, past its entry, wherever no end of a process and
no checkpoint of a fork separates the start from its pins. -/
theorem resource_pins_iff {start : PinRun} (hstart : start.Sound) :
    (∀ r, Relation.ReflTransGen (fun r r' => ∃ cut, Step cut r r') start r →
      ((∀ collected, Changed r.journal.events collected →
          ∃ error, verifyResourcePins r.journal.state collected = .error error) ↔
        PinsComplete r.journal.events)) ∧
    (start.Completing →
      ∀ r, Relation.ReflTransGen (fun r r' => ∃ cut, Step cut r r' ∧ ¬Interrupts cut r r') start r →
        (∀ rest, r.phase ≠ .pinning rest) → PinsComplete r.journal.events) := by
  constructor
  · intro r hrun
    have hsound : r.Sound := by
      induction hrun with
      | refl => exact hstart
      | tail _ hstep ih =>
        obtain ⟨cut, hstep⟩ := hstep
        exact ih.step hstep
    exact hsound.refused_iff
  · intro hcompleting r hrun
    have hboth : r.Sound ∧ r.Completing := by
      induction hrun with
      | refl => exact ⟨hstart, hcompleting⟩
      | tail _ hstep ih =>
        obtain ⟨cut, hstep, hinterrupts⟩ := hstep
        obtain ⟨hsound, hcompleting⟩ := ih
        exact ⟨hsound.step hstep, hcompleting.step hsound hstep hinterrupts⟩
    exact hboth.2.pinsComplete

def specHash (sha256 : String) : Collected where
  snapshots := [⟨"spec", sha256, [], by simp⟩]
  names_nodup := by simp

def specEnv : Env :=
  { Env.plain ((Graph.build { flow := [] }).toOption.get (by decide +kernel)) with
    resourceHashes := (specHash "aa").snapshots.map ResourceSnapshot.payload }

def specQueued : Journal := (Journal.reopen specEnv []).toOption.get (by decide +kernel)

def specStarted : Journal :=
  (specQueued.append specEnv .runStarted (Members.ofList
    (runStartedPayload specEnv specQueued.state.toFoldState ∅))).toOption.get (by decide +kernel)

def specReopened : Journal :=
  (Journal.reopen specEnv specStarted.events).toOption.get (by decide +kernel)

theorem specQueued_admitted : PinRun.Admitted ⟨specQueued, .idle⟩ := by
  have hreopen : Journal.reopen specEnv [] = .ok specQueued := Except.eq_ok_get _ _
  have hevents : specQueued.events = [] := (Journal.Agrees.reopen hreopen).2
  refine ⟨rfl, ⟨specEnv, ?_⟩, ?_⟩
  · rw [hevents]
    exact hreopen
  · simp [hevents]

theorem specReopened_reached :
    Relation.ReflTransGen (fun r r' => ∃ cut, Step cut r r') ⟨specQueued, .idle⟩
      ⟨specReopened, .idle⟩ := by
  have hstart : Step none ⟨specQueued, .idle⟩ ⟨specStarted, .pinning (specHash "aa").snapshots⟩ :=
    .start (specHash "aa") ∅ (by decide +kernel) rfl (Except.eq_ok_get _ _)
  exact (Relation.ReflTransGen.single ⟨_, hstart⟩).tail ⟨_, .crash (Except.eq_ok_get _ _)⟩

theorem specReopened_facts :
    specReopened.state.executionStarted = true ∧
      recordedHash specReopened.events "spec" = some "aa" ∧
      ((specHash "bb").current["spec"]? : Option String) = some "bb" ∧
      (verifyResourcePins specReopened.state (specHash "bb")).toOption = some () := by
  decide +kernel

/-- The process ends between the start and the `resource` record; the next round takes another
content for the same resource. -/
theorem unpinned_resource_accepted :
    Relation.ReflTransGen (fun r r' => ∃ cut, Step cut r r') ⟨specQueued, .idle⟩
      ⟨specReopened, .idle⟩ ∧
      specReopened.state.executionStarted = true ∧
      recordedHash specReopened.events "spec" = some "aa" ∧
      ((specHash "bb").current["spec"]? : Option String) = some "bb" ∧
      (verifyResourcePins specReopened.state (specHash "bb")).toOption = some () :=
  ⟨specReopened_reached, specReopened_facts⟩

theorem resource_pins_iff_interrupted :
    PinRun.Sound ⟨specQueued, .idle⟩ ∧ PinRun.Completing ⟨specQueued, .idle⟩ ∧
      ¬PinsComplete specReopened.events ∧ PinsComplete specQueued.events := by
  have hpins := resource_pins_iff specQueued_admitted.sound
  refine ⟨specQueued_admitted.sound, specQueued_admitted.completing, fun hcomplete => ?_, ?_⟩
  · have hrefused := (hpins.1 _ specReopened_reached).mpr hcomplete
    obtain ⟨-, hrecorded, hcurrent, hverified⟩ := specReopened_facts
    obtain ⟨error, herror⟩ :=
      hrefused (specHash "bb") ⟨"spec", "aa", "bb", hrecorded, hcurrent, by decide⟩
    rw [herror] at hverified
    cases hverified
  · exact hpins.2 specQueued_admitted.completing _ .refl fun rest hphase => nomatch hphase

end PinRun

end Qcg
