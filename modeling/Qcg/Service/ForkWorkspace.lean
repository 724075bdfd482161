import Qcg.Service.ForkJournal

/-!
# The workspace of a fork

A fork rebuilds the workspace from the raw events, apart from the fold of its journal. Both are
last-writer registers of every path. They differ in one point: the workspace also takes over the
files of a failed attempt that a successful or suspended report lists, which the fold only keeps
in the history.
-/

namespace Qcg

open List
open Except (bind_eq_ok)

open Json (Value Members)

namespace Fork

variable {api : Api} {stamps : Stamps} {store : Store} {sourceId targetId : String} {atSeq : Nat}
  {e w : Value} {s s' : RunState} {members : Members} {events : List Value} {path : String}

/-- The files of a failed attempt that a report lists besides the ones it projects. -/
def failedBy (event : Value) : List FilePin :=
  if isPinning event then pinList event "failed_files" else []

/-- What a failed attempt in a report does to the workspace of a fork. -/
def failedEffect (path : String) (event : Value) : Option (Option String) :=
  (lastPin (failedBy event) path).map some

def workspaceEffect (path : String) (event : Value) : Option (Option String) :=
  (failedEffect path event).or (pinEffect path event)

theorem lastPin_append (pins pins' : List FilePin) (path : String) :
    lastPin (pins ++ pins') path = (lastPin pins' path).or (lastPin pins path) := by
  induction pins' using List.reverseRecOn with
  | nil => simp [lastPin]
  | append_singleton pins' pin ih =>
    rw [← append_assoc, lastPin_concat, lastPin_concat, ih]
    split_ifs <;> simp

variable {plan plan' : Plan}

theorem addPin_eq_ok {projects : Bool} {file : Value} (h : plan.addPin projects file = .ok plan') :
    ∃ pin, FilePin.ofValue file = some pin ∧ plan'.latestFiles =
      if projects then plan.latestFiles.insert pin.path pin.sha256 else plan.latestFiles := by
  unfold Plan.addPin at h
  cases hpath : file.getStr "path" with
  | none =>
    rw [hpath] at h
    cases h
  | some path =>
    cases hsafe : Policy.isSafeRelativePath path with
    | false =>
      simp only [hpath, bind, Except.bind, hsafe, Bool.not_false, if_true] at h
      cases h
    | true =>
      cases hdigest : file.getStr "sha256" with
      | none =>
        simp only [hpath, bind, Except.bind, hsafe, hdigest, Bool.not_true, Bool.false_eq_true,
          if_false] at h
        cases h
      | some digest =>
        simp only [hpath, hdigest] at h
        obtain ⟨_, hok, h⟩ := bind_eq_ok.mp h
        cases hok
        simp only [hsafe, Bool.not_true, Bool.false_eq_true, if_false] at h
        obtain ⟨_, hok, h⟩ := bind_eq_ok.mp h
        cases hok
        obtain ⟨_, -, h⟩ := bind_eq_ok.mp h
        refine ⟨⟨path, digest⟩, by simp [FilePin.ofValue, hpath, hdigest], ?_⟩
        cases h
        rfl

theorem addPins_eq_ok {projects : Bool} {files : List Value}
    (h : files.foldlM (Plan.addPin projects) plan = .ok plan') :
    ∃ pins, files.mapM FilePin.ofValue = some pins ∧ ∀ path : String,
      plan'.latestFiles[path]? =
        if projects then (lastPin pins path).or plan.latestFiles[path]?
        else plan.latestFiles[path]? := by
  induction files generalizing plan with
  | nil =>
    cases h
    exact ⟨[], rfl, fun path => by simp [lastPin]⟩
  | cons file files ih =>
    obtain ⟨mid, hmid, hrest⟩ := Except.foldlM_cons_eq_ok.mp h
    obtain ⟨pin, hpin, hlatest⟩ := addPin_eq_ok hmid
    obtain ⟨pins, hpins, hrest⟩ := ih hrest
    refine ⟨pin :: pins, by simp [mapM_cons, hpin, hpins], ?_⟩
    intro path
    rw [hrest path, hlatest]
    cases projects with
    | false => rfl
    | true =>
      have hcons : lastPin (pin :: pins) path = (lastPin pins path).or (lastPin [pin] path) :=
        lastPin_append [pin] pins path
      simp only [if_true, BTreeMap.get_insert, hcons]
      by_cases hpath : path = pin.path
      · cases lastPin pins path <;> simp [hpath, lastPin]
      · cases lastPin pins path <;> simp [hpath, Ne.symm hpath, lastPin]

def listAt (event : Value) (key : String) : List Value :=
  ((event.get key).bind Value.asArray).getD []

theorem pinList_of_mapM {key : String} {pins : List FilePin}
    (h : (listAt e key).mapM FilePin.ofValue = some pins) : pinList e key = pins := by
  unfold listAt at h
  unfold pinList FilePin.listOfValue
  cases hvalue : e.get key with
  | none =>
    rw [hvalue] at h
    cases h
    rfl
  | some v =>
    rw [hvalue] at h
    simp only [Option.bind_some] at h ⊢
    cases hitems : v.asArray with
    | none =>
      rw [hitems] at h
      cases h
      rfl
    | some items =>
      rw [hitems] at h
      simp only [Option.getD_some] at h
      simp [h]

theorem pinEntries_eq (e : Value) : pinEntries e = listAt e "files" ++ listAt e "failed_files" := by
  simp [pinEntries, listAt]

theorem projects_eq (e : Value) : projects e = projectsWorkspace ((e.getStr "status").getD "") := by
  unfold projects
  cases e.getStr "status" with
  | none => rfl
  | some status => rfl

variable {kind : EventKind}

theorem kindOf_eq_some_iff :
    kindOf e = some kind ↔ e.getStr "t" = some kind.name := by
  unfold kindOf
  cases e.getStr "t" with
  | none => simp
  | some name =>
    rw [Option.bind_some, EventKind.ofName_eq_some_iff, Option.some.injEq, eq_comm]

theorem addEvent_latest (h : plan.addEvent e = .ok plan')
    (hconfirm : kindOf e ≠ some .confirmRequest)
    (hchanges : kindOf e = some .agentFileChanges → removedBy e = stringsAt e "removed_files")
    (path : String) :
    plan'.latestFiles[path]? = (workspaceEffect path e).getD plan.latestFiles[path]? := by
  unfold Plan.addEvent at h
  by_cases hfinished : kindOf e = some .stepFinished
  · have hname : e.getStr "t" = some "step_finished" := kindOf_eq_some_iff.mp hfinished
    simp only [hname, Option.some.injEq, String.reduceEq, if_false, ne_eq, not_true_eq_false] at h
    obtain ⟨pins, hpins, hlatest⟩ := addPins_eq_ok h
    rw [pinEntries_eq, mapM_append] at hpins
    simp only [Option.bind_eq_bind, Option.pure_def, Option.bind_eq_some_iff, Option.some.injEq]
      at hpins
    obtain ⟨files, hfiles, failed, hfailed, rfl⟩ := hpins
    have hfailedBy : failedBy e = if projects e then failed else [] := by
      simp only [failedBy, isPinning, hfinished, ← projects_eq, pinList_of_mapM hfailed]
    have hpinnedBy : pinnedBy e = if projects e then files else [] := by
      simp only [pinnedBy, isPinning, hfinished, ← projects_eq, pinList_of_mapM hfiles]
    have hremovedBy : removedBy e = [] := by simp [removedBy, hfinished]
    rw [hlatest path, lastPin_append, workspaceEffect, failedEffect, pinEffect, hremovedBy,
      hfailedBy,
      hpinnedBy]
    cases projects e with
    | false => simp [lastPin]
    | true =>
      simp only [if_true]
      cases lastPin failed path <;> cases lastPin files path <;> simp
  · have hname : e.getStr "t" ≠ some "step_finished" := fun h =>
      hfinished (kindOf_eq_some_iff.mpr h)
    simp only [hname, ne_eq, not_false_eq_true, if_true, Except.ok.injEq] at h
    have hpinning : isPinning e = false := by
      unfold isPinning
      split
      · next hkind => exact absurd hkind hfinished
      · next hkind => exact absurd hkind hconfirm
      · rfl
    have hfailedBy : failedBy e = [] := by simp [failedBy, hpinning]
    have hpinnedBy : pinnedBy e = [] := by simp [pinnedBy, hpinning]
    rw [workspaceEffect, failedEffect, pinEffect, hfailedBy, hpinnedBy, ← h]
    by_cases hkind : kindOf e = some .agentFileChanges
    · have hname : e.getStr "t" = some "agent_file_changes" := kindOf_eq_some_iff.mp hkind
      rw [hchanges hkind, if_pos hname]
      have herased := BTreeMap.get_foldl_erase plan.latestFiles (stringsAt e "removed_files") path
      refine herased.trans ?_
      split_ifs <;> simp [lastPin]
    · have hname : e.getStr "t" ≠ some "agent_file_changes" :=
        fun h => hkind (kindOf_eq_some_iff.mpr h)
      simp [hname, removedBy, hkind, lastPin]

/-- The events of a history as both sides read them: confirmations are already rewritten, and
the removed files are the listed texts. -/
structure Plain (e : Value) : Prop where
  notConfirm : kindOf e ≠ some .confirmRequest
  changes : kindOf e = some .agentFileChanges → removedBy e = stringsAt e "removed_files"

theorem plan_latest (h : events.foldlM Plan.addEvent plan = .ok plan')
    (hplain : ∀ e ∈ events, Plain e) (path : String) :
    plan'.latestFiles[path]? =
      LastWriter.value (workspaceEffect path) plan.latestFiles[path]? events := by
  induction events generalizing plan with
  | nil =>
    cases h
    rfl
  | cons e events ih =>
    obtain ⟨mid, hmid, hrest⟩ := Except.foldlM_cons_eq_ok.mp h
    have he := hplain e (by simp)
    rw [ih hrest fun e he => hplain e (by simp [he]),
      addEvent_latest hmid he.notConfirm he.changes path]
    rfl

variable {strings : List String} {streams : Streams}

theorem filterMap_of_mapM_asStr {items : List Value} (h : items.mapM Value.asStr = some strings) :
    items.filterMap Value.asStr = strings := by
  induction items generalizing strings with
  | nil =>
    cases h
    rfl
  | cons item items ih =>
    rw [mapM_cons] at h
    simp only [Option.bind_eq_bind, Option.bind_eq_some_iff] at h
    obtain ⟨text, htext, texts, htexts, h⟩ := h
    cases h
    rw [filterMap_cons_some htext, ih htexts]

theorem stringsAt_of_strings {key : String} {v : Value} (hget : e.get key = some v)
    (h : AgentFileChanges.stringsOfValue v = some strings) :
    stringsAt e key = strings := by
  obtain ⟨items, hitems, h⟩ := Option.bind_eq_some_iff.mp h
  rw [stringsAt, hget, Option.bind_some, hitems, Option.getD_some]
  exact filterMap_of_mapM_asStr h

theorem removedBy_of_accepted (hs : RunState.Accepted api s kind e s')
    (hkind : kindOf e = some .agentFileChanges) : removedBy e = stringsAt e "removed_files" := by
  have hkind' : kind = .agentFileChanges := by
    rw [hs.kindOf_eq, Option.some.injEq] at hkind
    exact hkind
  subst hkind'
  obtain ⟨f, hf, -⟩ := RunState.applyKind_record rfl hs.arm
  have hf : FoldState.applyAgentFileChanges _ e = .ok f := hf
  unfold FoldState.applyAgentFileChanges at hf
  split at hf
  · next parsed hparsed =>
    obtain ⟨_, hok, hf⟩ := bind_eq_ok.mp hf
    cases hok
    obtain ⟨changes, hchanges, -⟩ := bind_eq_ok.mp hf
    rw [FoldState.required_eq_ok] at hchanges
    have hof : removedBy e = changes.removedFiles := by
      simp [removedBy, hkind, changesOf, hparsed, hchanges]
    cases e with
    | obj members =>
      obtain ⟨parsed', hparsed', -, hdata⟩ :=
        RunEvent.envelope_of_enveloped (RunEvent.enveloped_of_envelope hparsed)
      rw [hparsed] at hparsed'
      cases hparsed'
      have hget : parsed.data.get "removed_files" = Value.get (.obj members) "removed_files" := by
        rw [hdata]
        exact Members.get_filter members "removed_files" fun v => by simp [RunEvent.commonFields]
      unfold AgentFileChanges.ofValue at hchanges
      simp only [Option.bind_eq_bind, Option.bind_eq_some_iff] at hchanges
      obtain ⟨_, -, _, -, value, hvalue, removed, hremoved, _, -, _, -, hend⟩ := hchanges
      rw [hget] at hvalue
      cases hend
      rw [hof, stringsAt_of_strings hvalue hremoved]
    | _ => cases hparsed
  · obtain ⟨_, hrefused, -⟩ := bind_eq_ok.mp hf
    cases hrefused

theorem plain_selected (h : RunState.foldFrom api s events = .ok s') :
    ∀ e ∈ selected events atSeq, Plain e ∧
      ∀ members, e = .obj members → RunEvent.Enveloped (.obj members) := by
  intro e he
  obtain ⟨source, hsource, hcarry⟩ := mem_filterMap.mp he
  obtain ⟨before, after, hsplit⟩ := append_of_mem (mem_of_mem_filter hsource)
  rw [hsplit] at h
  obtain ⟨p, -, hrest⟩ := Except.foldlM_append_eq_ok.mp h
  obtain ⟨q, hq, -⟩ := Except.foldlM_cons_eq_ok.mp hrest
  obtain ⟨⟨parsed, hparsed⟩, happly⟩ := RunState.applyChecked_eq_ok hq
  obtain ⟨kind, hs⟩ := RunState.accepted_of_apply happly
  have henveloped : RunEvent.Enveloped source := by
    obtain ⟨envelope, henvelope, -⟩ := bind_eq_ok.mp hparsed
    exact RunEvent.enveloped_of_envelope henvelope
  rw [carryOver_eq hs.kind_eq] at hcarry
  split_ifs at hcarry with hleft hconfirm
  · split at hcarry
    · next members _ =>
      cases hcarry
      have hkind : kindOf (.obj (suspended members)) = some .stepFinished := by
        rw [kindOf_eq_some_iff]
        simp [Value.getStr, suspended, Members.get_insert, EventKind.name]
      refine ⟨⟨by simp [hkind], by simp [hkind]⟩, ?_⟩
      rintro _ ⟨rfl⟩
      exact enveloped_suspended henveloped
    · cases hcarry
  · cases hcarry
    refine ⟨⟨?_, removedBy_of_accepted hs⟩, ?_⟩
    · rw [hs.kindOf_eq]
      simpa using hconfirm
    · rintro members rfl
      exact henveloped

theorem pinEffect_same (h : SamePayload e w) (path : String) :
    pinEffect path w = pinEffect path e := by
  have hkind : kindOf w = kindOf e := by
    rw [kindOf, h.getStr "t" (by decide), kindOf]
  have hpins (key : String) (hkey : key ∉ placeKeys) : pinList w key = pinList e key := by
    rw [pinList, h.get key hkey, pinList]
  have hpinning : isPinning w = isPinning e := by
    simp (disch := decide) only [isPinning, hkind, h.getStr, h.get]
  have hchanges : changesOf w = changesOf e := by
    obtain ⟨parsed, parsed', hparsed, hparsed', -, hdata⟩ := h.envelope
    simp only [changesOf, hparsed, hparsed', hdata]
  have hremoved : removedBy w = removedBy e := by
    rw [removedBy, hkind, hchanges, removedBy]
  have hpinned : pinnedBy w = pinnedBy e := by
    rw [pinnedBy, hpinning, hpins "files" (by decide), pinnedBy]
  rw [pinEffect, hremoved, hpinned, pinEffect]

theorem pinEffect_of_quiet (hkind : kindOf e = some kind) (hchanges : kind ≠ .agentFileChanges)
    (hfinished : kind ≠ .stepFinished) (hconfirm : kind ≠ .confirmRequest) (path : String) :
    pinEffect path e = none := by
  have hpinning : isPinning e = false := by
    unfold isPinning
    rw [hkind]
    split
    · next h => exact absurd (Option.some.inj h) hfinished
    · next h => exact absurd (Option.some.inj h) hconfirm
    · rfl
  simp [pinEffect, removedBy, hkind, hchanges, pinnedBy, hpinning, lastPin]

variable {patch : StatePatch}

theorem kindOf_own {seq : Nat} :
    ∀ e ∈ forkEvent stamps sourceId targetId atSeq seq :: patchEvents stamps targetId patch
      (seq + 1),
      kindOf e = some .runForked ∨ kindOf e = some .statePatched := by
  intro e he
  rcases mem_cons.mp he with rfl | he
  · left
    rw [kindOf_eq_some_iff, Value.getStr, get_forkEvent]
    simp [ownMembers, Members.get_cons, EventKind.name]
  · right
    unfold patchEvents at he
    split_ifs at he
    · cases he
    · rw [mem_singleton] at he
      rw [kindOf_eq_some_iff, Value.getStr, he, Value.get_obj, Members.get_ofList]
      simp [ownMembers, Members.get_cons, EventKind.name]

theorem pinEffect_own {seq : Nat} (path : String) :
    ∀ e ∈ forkEvent stamps sourceId targetId atSeq seq :: patchEvents stamps targetId patch
      (seq + 1),
      pinEffect path e = none := by
  intro e he
  rcases kindOf_own e he with hkind | hkind
  · exact pinEffect_of_quiet hkind (by decide) (by decide) (by decide) path
  · exact pinEffect_of_quiet hkind (by decide) (by decide) (by decide) path

theorem writeStreams_eq_ok {audit : List Value}
    (h : writeStreams stamps sourceId targetId atSeq patch events audit = .ok streams) :
    renumber stamps targetId 0 (history events audit atSeq) = .ok streams.written ∧
      streams.own = forkEvent stamps sourceId targetId atSeq (streams.written.length + 1) ::
        patchEvents stamps targetId patch (streams.written.length + 2) := by
  obtain ⟨written, hwritten, h⟩ := bind_eq_ok.mp h
  cases h
  exact ⟨hwritten, rfl⟩

theorem select_eq_ok {selection : List Value} (h : select sourceId events atSeq = .ok selection) :
    selection = selected events atSeq := by
  unfold select at h
  split_ifs at h
  cases h
  rfl

theorem materialize_eq_ok {workspace : BTreeMap String}
    (h : materialize store plan = .ok workspace) : workspace = plan.latestFiles := by
  obtain ⟨_, -, h⟩ := bind_eq_ok.mp h
  obtain ⟨_, -, h⟩ := bind_eq_ok.mp h
  obtain ⟨_, -, h⟩ := bind_eq_ok.mp h
  cases h
  rfl

/-- Wherever the files of a failed attempt are the last word on a path, the fold of the events
up to the report holds the same revision. -/
def FailedPinsHarmless (events : List Value) : Prop :=
  ∀ path before event after digest, events = before ++ event :: after →
    lastPin (failedBy event) path = some digest →
    (∀ later ∈ after, lastPin (failedBy later) path = none ∧ pinEffect path later = none) →
    LastWriter.value (pinEffect path) none (before ++ [event]) = some digest

theorem failedPinsHarmless_iff (events : List Value) :
    FailedPinsHarmless events ↔ ∀ path, LastWriter.value (workspaceEffect path) none events =
      LastWriter.value (pinEffect path) none events := by
  apply forall_congr'
  intro path
  have hiff := LastWriter.value_override_eq_iff (pinEffect path) (failedEffect path) none events
  unfold workspaceEffect
  rw [hiff]
  constructor
  · intro h before event after content hsplit hcontent hlater
    obtain ⟨digest, hdigest, rfl⟩ := Option.map_eq_some_iff.mp hcontent
    apply h before event after digest hsplit hdigest
    intro later hmem
    obtain ⟨hfailed, hpin⟩ := hlater later hmem
    exact ⟨Option.map_eq_none_iff.mp hfailed, hpin⟩
  · intro h before event after digest hsplit hdigest hlater
    apply h before event after (some digest) hsplit (by simp [failedEffect, hdigest])
    intro later hmem
    obtain ⟨hfailed, hpin⟩ := hlater later hmem
    exact ⟨by simp [failedEffect, hfailed], hpin⟩

theorem journal_pins {source : Source} {state src : RunState}
    (hfold : RunState.foldValues api source.durable = .ok src)
    (hstreams : writeStreams stamps sourceId targetId atSeq patch
      (selected source.durable atSeq) source.audit = .ok streams)
    (hstate : RunState.foldValues api streams.journal = .ok state) (path : String) :
    state.latestFilePins[path]? =
      LastWriter.value (pinEffect path) none (selected source.durable atSeq) := by
  obtain ⟨hwritten, hown⟩ := writeStreams_eq_ok hstreams
  obtain ⟨hrewritten, -⟩ := renumber_eq_ok hwritten
  obtain ⟨hplace, -⟩ := renumber_places hwritten
  have hlength := hrewritten.length_eq
  have hfits : ∀ w ∈ streams.written, w.seq < 2 ^ 64 := by
    intro w hw
    have hle := (hplace w hw).2
    have hhistory := length_history_le source atSeq
    have hsource := source.fits
    omega
  have hstart : (({} : RunState).latestFilePins[path]? : Option String) = none := by
    change ((∅ : BTreeMap String)[path]?) = none
    simp
  rw [RunState.foldlM_latest (RunState.foldlM_apply_of_foldFrom hstate) path, hstart,
    Streams.journal, hown, LastWriter.value_append,
      LastWriter.value_of_untouched (pinEffect_own path)]
  symm
  apply LastWriter.value_congr
  have hdurable := Rewritten.durable hrewritten
  rw [history_durable (pairwise_durableEntries (RunState.foldFrom_seqs hfold).2)] at hdurable
  rw [durableEntries, List.forall₂_map_left_iff] at hdurable
  rw [List.forall₂_map_right_iff, List.forall₂_iff_zip]
  refine ⟨hdurable.length_eq, ?_⟩
  intro e w hmem
  obtain ⟨he, hw⟩ := of_mem_zip hmem
  obtain ⟨members, hmembers, hevent⟩ := (List.forall₂_zip hdurable hmem).event
  have hmembers : e = .obj members := hmembers
  have henveloped := (plain_selected hfold e he).2 members hmembers
  rw [hmembers, hevent]
  exact (pinEffect_same (samePayload_restamp henveloped
    (hfits w (mem_of_mem_filter hw))) path).symm

/-- The workspace of a fork is the folded one exactly if no failed attempt has the last word. -/
theorem fork_workspace_iff {source : Source} {patch : StatePatch} {src : RunState} {forked : Forked}
    (hfold : RunState.foldValues api source.durable = .ok src)
    (h : populateCheckpointFork api stamps store sourceId targetId atSeq patch source =
      .ok forked) :
    forked.workspace = forked.state.latestFilePins ↔
      FailedPinsHarmless (selected source.durable atSeq) := by
  obtain ⟨events, hselect, h⟩ := bind_eq_ok.mp h
  obtain ⟨plan, hplan, h⟩ := bind_eq_ok.mp h
  obtain ⟨workspace, hworkspace, h⟩ := bind_eq_ok.mp h
  obtain ⟨streams, hstreams, h⟩ := bind_eq_ok.mp h
  dsimp only at h
  split at h
  · next state hstate =>
    cases h
    obtain rfl := select_eq_ok hselect
    obtain rfl := materialize_eq_ok hworkspace
    have hleft (path : String) : plan.latestFiles[path]? =
        LastWriter.value (workspaceEffect path) none (selected source.durable atSeq) := by
      rw [plan_latest hplan (fun e he => (plain_selected hfold e he).1) path]
      congr 1
    have hright (path : String) := journal_pins hfold hstreams hstate path
    rw [failedPinsHarmless_iff]
    constructor
    · intro heq path
      rw [← hleft, ← hright, ← heq]
    · intro hall
      apply Std.ExtTreeMap.ext_getElem?
      intro path
      exact (hleft path).trans ((hall path).trans (hright path).symm)
  · cases h

def goodDigest : String := "aaaaaaaaaaaaaaaaaaaaaaaaaaaaaaaaaaaaaaaaaaaaaaaaaaaaaaaaaaaaaaaa"

def badDigest : String := "bbbbbbbbbbbbbbbbbbbbbbbbbbbbbbbbbbbbbbbbbbbbbbbbbbbbbbbbbbbbbbbb"

/-- A repaired step that also lists what its failed attempt had left at the same path. -/
def repairedSource (failed : String) : Source where
  durable :=
    [journaled 1 .runQueued "source" [],
      journaled 2 .stepFinished "source" [("node", .str "a"), ("status", .str "repaired"),
        ("files", FilePin.listToValue [⟨"out.txt", goodDigest⟩]),
        ("failed_files", FilePin.listToValue [⟨"out.txt", failed⟩])]]
  audit := []
  fits := by simp

/-- Every blob is there and every set of paths is fine. -/
def fullStore : Store where
  pathTree _ := .ok ()
  blob _ := .intact

def forkOf (failed : String) : Except ServiceError Forked :=
  populateCheckpointFork .plain plainStamps fullStore "source" "fork" 2 {} (repairedSource failed)

def repairedRun (failed : String) : Except JournalError RunState :=
  RunState.foldValues .plain (repairedSource failed).durable

/-- The workspace of the fork holds the revision of the failed attempt. -/
theorem repaired_fork_workspace_stale :
    (repairedRun badDigest).isOk = true ∧
      (forkOf badDigest).toOption.map (fun forked => forked.workspace["out.txt"]?) =
        some (some badDigest) ∧
      (forkOf badDigest).toOption.map (fun forked => forked.state.latestFilePins["out.txt"]?) =
        some (some goodDigest) := by
  decide +kernel

theorem fork_workspace_iff_repaired :
    ∃ forked, forkOf goodDigest = .ok forked ∧
      (forked.workspace = forked.state.latestFilePins ↔
        FailedPinsHarmless (selected (repairedSource goodDigest).durable 2)) := by
  have hfold : (repairedRun goodDigest).isOk = true := by decide +kernel
  have hfork : (forkOf goodDigest).isOk = true := by decide +kernel
  cases hrun : repairedRun goodDigest with
  | error error =>
    rw [hrun] at hfold
    cases hfold
  | ok src =>
    cases hforked : forkOf goodDigest with
    | error error =>
      rw [hforked] at hfork
      cases hfork
    | ok forked => exact ⟨forked, rfl, fork_workspace_iff hrun hforked⟩

end Fork

end Qcg
