import Qcg.Engine.Records
import Qcg.Engine.Run
import Qcg.State.Ledger

/-!
# Active execution time across restarts

One interval per engine episode is charged to the run. An episode that a crash leaves
open is closed by the next start, which charges the time up to it; the journal's fold
keeps the ledger itself legal.
-/

namespace Qcg

open Except (bind_eq_ok)

open Json (Value Members)

/-- Wall-clock instants, in nanoseconds, and the texts they are journaled as. -/
structure Clock (api : Api) where
  parse : String → Option Int
  toRfc3339 : Int → String
  parse_isSome : ∀ text, (parse text).isSome = api.rfc3339 text

namespace Elapsed

def invalid (message : String) : EngineError :=
  .failed ("active elapsed accounting refused: " ++ message)

def nanos (duration : Nat) : Except EngineError Nat :=
  if duration < 2 ^ 64 then .ok duration else .error (invalid "nanoseconds overflow")

def add (total duration : Nat) : Except EngineError Nat := do
  let nanos ← nanos duration
  if total + nanos < 2 ^ 64 then .ok (total + nanos)
  else .error (invalid "active total overflow")

def payload (total : Nat) (anchor : Option String) : Members :=
  Members.ofList [("active_nanoseconds", .num total),
    ("active_started_at", match anchor with
      | some text => .str text
      | none => .null)]

def record (env : Env) (j : Journal) (total : Nat) (anchor : Option String) :
    Except EngineError Journal :=
  (j.append env .elapsedAccounted (payload total anchor)).mapError .journal

section

variable (env : Env) (clock : Clock env.api)

def parseAnchor (text : String) : Except EngineError Int :=
  match clock.parse text with
  | some anchor => .ok anchor
  | none => .error (invalid "invalid anchor")

def signedDurationSince (now anchor : Int) : Except EngineError Nat :=
  if anchor ≤ now then .ok (now - anchor).toNat
  else .error (invalid "wall clock moved backwards")

/-- Charges the downtime of an open interval, once, and returns the total. -/
def recover (j : Journal) (now : Int) : Except EngineError (Nat × Journal) :=
  match j.state.budget.elapsed with
  | none => .error (invalid "missing ledger")
  | some ledger =>
      match ledger.activeStartedAt with
      | none => .ok (ledger.activeNanoseconds, j)
      | some text => do
          let anchor ← parseAnchor env clock text
          let elapsed ← signedDurationSince now anchor
          let total ← add ledger.activeNanoseconds elapsed
          let j ← record env j total none
          return (total, j)

end

def remaining (limit total : Nat) : Except EngineError Nat :=
  if total < limit * 10 ^ 9 then .ok (limit * 10 ^ 9 - total)
  else .error (.step (.elapsedExpiredBeforeStart (.ofNat limit)
    { secs := .ofNat (total / 10 ^ 9), subsecNanos := .ofNat (total % 10 ^ 9) }))

end Elapsed

/-- The writer's own conditions on the next record: a free position, room under the limits,
the run's identity, a run that has not ended and a payload of the public interface. -/
structure Journal.Takes (env : Env) (j : Journal) (kind : EventKind) (payload : Members) :
    Prop where
  seq : j.nextSeq < 2 ^ 64
  count : Journal.checkCount env.maxEventCount j.events = .ok ()
  owner : j.state.runId = some env.runId
  running : RunState.checkTerminal j.state.terminal kind = .ok ()
  typed : ∃ e, RunEvent.fromFlat env.api (j.record env kind payload) = .ok e

namespace RunState

variable {api : Api} {s : RunState} {event : Value} {seq : Nat} {next : ElapsedAccounted}

theorem apply_elapsed (hkind : event.getStr "t" = some EventKind.elapsedAccounted.name)
    (hseq : event.getU64 "seq" = some seq) (hlt : s.lastSeq < seq)
    (hid : event.getStr "run_id" = s.runId) (hrun : s.runId ≠ none)
    (hrunning : checkTerminal s.terminal .elapsedAccounted = .ok ())
    (hmode : s.budget.elapsedBudgetMode = .activeExecution)
    (hnext : FoldState.elapsedOf api event = .ok next)
    (hlegal : FoldState.legalElapsed s.budget.elapsed next = true) :
    ∃ s', s.apply api event = .ok s' ∧ s'.budget.elapsed = some next := by
  have hposition : checkSeq s.lastSeq event = .ok seq := by
    have hpos : ¬ seq = 0 := by omega
    have hgt : ¬ seq ≤ s.lastSeq := by omega
    simp [checkSeq, hseq, hpos, hgt]
  have hidentity : checkIdentity s.runId EventKind.elapsedAccounted.name event = .ok () := by
    unfold checkIdentity
    rw [hid]
    cases s.runId with
    | none => rfl
    | some id => simp
  have hschema : checkSchema .elapsedAccounted event = .ok () := rfl
  refine ⟨{ s with
    lastSeq := seq
    toFoldState := { s.toFoldState with budget := { s.budget with elapsed := some next } } }, ?_,
      rfl⟩
  rw [apply, hposition, hkind]
  simp only [required, bind, Except.bind, hidentity, EventKind.ofName_name, hrunning, hschema,
    applyKind, FoldState.applyElapsedAccounted]
  simp [FoldState.noteSearchCost, hmode, hrun, hnext, hlegal, pure, Except.pure]

end RunState

theorem Journal.append_of_takes {env : Env} {j : Journal} {kind : EventKind} {payload : Members}
    {s' : RunState} (htakes : j.Takes env kind payload)
    (hid : Members.get payload "run_id" = none)
    (happly : j.state.apply env.api (j.record env kind payload) = .ok s') :
    j.append env kind payload =
      .ok { events := j.events ++ [j.record env kind payload], state := s' } := by
  obtain ⟨e, htyped⟩ := htakes.typed
  have hseq : checkOverflow j.nextSeq = .ok () := by
    have hfree := htakes.seq
    rw [checkOverflow, if_neg (by omega)]
  have hrun : checkRunId env.runId payload = .ok () := by
    rw [checkRunId, hid]
    rfl
  refine bind_eq_ok.mpr ⟨(), hseq, bind_eq_ok.mpr ⟨(), hrun, ?_⟩⟩
  refine bind_eq_ok.mpr ⟨e, ?_, bind_eq_ok.mpr ⟨s', happly, ?_⟩⟩
  · rw [record] at htyped
    rw [htyped]
    rfl
  · exact bind_eq_ok.mpr ⟨(), htakes.count, rfl⟩

namespace Elapsed

variable {env : Env} {clock : Clock env.api} {j j' : Journal} {l : ElapsedAccounted}
  {text : String} {anchor now : Int} {total : Nat}

theorem get_payload_total (total : Nat) (anchor : Option String) :
    Members.get (payload total anchor) "active_nanoseconds" = some (.num total) := by
  rw [payload.eq_def, Members.get_ofList]
  simp [Members.get_cons]

theorem get_payload_anchor (total : Nat) :
    Members.get (payload total none) "active_started_at" = some .null := by
  rw [payload, Members.get_ofList]
  simp [Members.get_cons]

theorem elapsedOf_record (htotal : total < 2 ^ 64) :
    FoldState.elapsedOf env.api (j.record env .elapsedAccounted (payload total none)) =
      .ok { activeNanoseconds := total, activeStartedAt := none } := by
  have h1 : (j.record env .elapsedAccounted (payload total none)).get "active_nanoseconds" =
      some (.num total) :=
    (Journal.get_record (by decide)).trans (get_payload_total total none)
  have h2 : (j.record env .elapsedAccounted (payload total none)).get "active_started_at" =
      some .null :=
    (Journal.get_record (by decide)).trans (get_payload_anchor total)
  simp [FoldState.elapsedOf, h1, h2, required, Value.asU64_natCast htotal, bind, Except.bind, pure,
    Except.pure]

theorem record_closes (htakes : j.Takes env .elapsedAccounted (payload total none))
    (hmode : j.state.budget.elapsedBudgetMode = .activeExecution)
    (hl : j.state.budget.elapsed = some l) (hopen : l.activeStartedAt = some text)
    (hle : l.activeNanoseconds ≤ total) (htotal : total < 2 ^ 64) :
    ∃ j', record env j total none = .ok j' ∧
      j'.state.budget.elapsed = some { activeNanoseconds := total, activeStartedAt := none } := by
  have hseq : (j.record env .elapsedAccounted (payload total none)).getU64 "seq" =
      some j.nextSeq := by
    rw [Value.getU64, Journal.record, Stamps.get_stamp_seq]
    exact Value.asU64_natCast htakes.seq
  have hlegal : FoldState.legalElapsed j.state.budget.elapsed
      { activeNanoseconds := total, activeStartedAt := none } = true := by
    simp [FoldState.legalElapsed, hl, hopen, hle]
  have hkind : (j.record env .elapsedAccounted (payload total none)).getStr "t" =
      some EventKind.elapsedAccounted.name := Stamps.getStr_stamp_kind _ _ _ _ _
  have hlt : j.state.lastSeq < j.nextSeq := by
    simp only [Journal.nextSeq]
    omega
  obtain ⟨s', hs', helapsed⟩ := RunState.apply_elapsed hkind hseq hlt
    ((Stamps.getStr_stamp_runId _ _ _ _ _).trans htakes.owner.symm) (by simp [htakes.owner])
    htakes.running hmode (elapsedOf_record htotal) hlegal
  have happend := Journal.append_of_takes htakes (by simp [payload, Members.get_ofList,
    Members.get_cons]) hs'
  refine ⟨⟨j.events ++ [j.record env .elapsedAccounted (payload total none)], s'⟩, ?_, helapsed⟩
  rw [record, happend]
  rfl

theorem recover_closed (hl : j.state.budget.elapsed = some l) (hclosed : l.activeStartedAt = none)
    (now : Int) : recover env clock j now = .ok (l.activeNanoseconds, j) := by
  simp [recover, hl, hclosed]

theorem recover_open (hl : j.state.budget.elapsed = some l) (hopen : l.activeStartedAt = some text)
    (hanchor : clock.parse text = some anchor) (hforward : anchor ≤ now)
    (htotal : total = l.activeNanoseconds + (now - anchor).toNat) (hfits : total < 2 ^ 64)
    (hrecord : record env j total none = .ok j') :
    recover env clock j now = .ok (total, j') := by
  subst htotal
  have helapsed : (now - anchor).toNat < 2 ^ 64 := by omega
  unfold recover
  simp only [hl, hopen, parseAnchor, hanchor]
  refine bind_eq_ok.mpr ⟨anchor, rfl, bind_eq_ok.mpr ⟨(now - anchor).toNat, ?_, ?_⟩⟩
  · rw [signedDurationSince, if_pos hforward]
  · refine bind_eq_ok.mpr ⟨_, ?_, bind_eq_ok.mpr ⟨j', hrecord, rfl⟩⟩
    refine bind_eq_ok.mpr ⟨(now - anchor).toNat, ?_, ?_⟩
    · rw [nanos, if_pos helapsed]
    · rw [if_pos hfits]

def recoverAll (env : Env) (clock : Clock env.api) (j : Journal) (starts : List Int) :
    Except EngineError Journal :=
  starts.foldlM (fun j now => Prod.snd <$> recover env clock j now) j

theorem recoverAll_closed (hl : j.state.budget.elapsed = some l)
    (hclosed : l.activeStartedAt = none) (starts : List Int) :
    recoverAll env clock j starts = .ok j := by
  induction starts with
  | nil => rfl
  | cons now starts ih =>
    refine Except.foldlM_cons_eq_ok.mpr ⟨j, ?_, ih⟩
    rw [recover_closed hl hclosed]
    rfl

theorem remaining_antitone {limit used more left : Nat} (hle : used ≤ more)
    (h : remaining limit more = .ok left) :
    ∃ before, remaining limit used = .ok before ∧ left ≤ before := by
  unfold remaining at h ⊢
  split_ifs at h with hmore
  cases h
  rw [if_pos (by omega)]
  exact ⟨_, rfl, by omega⟩

/-- How a ledger has moved on over some events: same mode, episodes in turn, no total lowered
and no allowance raised. -/
structure Continues (api : Api) (before : BudgetState) (l : ElapsedAccounted)
    (events : List Value) (after : BudgetState) : Prop where
  mode : after.elapsedBudgetMode = before.elapsedBudgetMode
  kept : after.elapsed = some ((ledgerEntries api events).getLastD l)
  alternate : ((l :: ledgerEntries api events).map ElapsedAccounted.isOpen).IsChain (· ≠ ·)
  total : (l :: ledgerEntries api events).IsChain fun a b =>
    a.activeNanoseconds ≤ b.activeNanoseconds
  allowance : ∀ ledger, after.elapsed = some ledger → ∀ limit left,
    remaining limit ledger.activeNanoseconds = .ok left →
      ∃ was, remaining limit l.activeNanoseconds = .ok was ∧ left ≤ was

/-- The ledger of every sequence of dated events that the fold accepts, and the recovery of
an episode that is open at its end. -/
theorem ledger_kept_and_recovered (clock : Clock env.api) {events : List Value} {s : RunState}
    (hts : ∀ event ∈ events, (event.getStr "ts").isSome = true)
    (h : events.foldlM (RunState.apply env.api) {} = .ok s) :
    (∀ before after p l, events = before ++ after →
      before.foldlM (RunState.apply env.api) {} = .ok p → p.budget.elapsed = some l →
        Continues env.api p.budget l after s.budget) ∧
      ∀ (j : Journal) l text now, j.state = s → s.budget.elapsed = some l →
        l.activeStartedAt = some text →
        ∃ anchor, clock.parse text = some anchor ∧
          ∀ total, total = l.activeNanoseconds + (now - anchor).toNat → anchor ≤ now →
            total < 2 ^ 64 → j.Takes env .elapsedAccounted (payload total none) →
            ∃ j', recover env clock j now = .ok (total, j') ∧
              j'.state.budget.elapsed =
                some { activeNanoseconds := total, activeStartedAt := none } ∧
              ∀ starts, recoverAll env clock j' starts = .ok j' := by
  have hempty : RunState.LedgerValid env.api ({} : RunState).budget := by
    intro l hl
    cases hl
  constructor
  · intro before after p l hsplit hp hl
    subst hsplit
    obtain ⟨p', hp', hafter⟩ := Except.foldlM_append_eq_ok.mp h
    rw [hp] at hp'
    cases hp'
    have hvalid := RunState.foldlM_ledgerValid hp (fun e he => hts e (by simp [he])) hempty
    obtain ⟨hmode, hchain, hlast⟩ :=
      RunState.foldlM_ledger hafter (fun e he => hts e (by simp [he])) hvalid hl
    refine ⟨hmode, hlast, ?_, ?_, ?_⟩
    · exact List.isChain_map_of_isChain _ (fun _ _ hfollows => hfollows.flips) hchain
    · exact hchain.imp fun _ _ hfollows => hfollows.total_le
    · intro ledger hledger limit left hleft
      rw [hlast] at hledger
      cases hledger
      exact remaining_antitone (ElapsedAccounted.total_le_getLastD hchain) hleft
  · intro j l text now hj hl hopen
    obtain ⟨-, hactive, -, hrfc⟩ := RunState.foldlM_ledgerValid h hts hempty l hl
    obtain ⟨anchor, hanchor⟩ : ∃ anchor, clock.parse text = some anchor := by
      rw [← Option.isSome_iff_exists, clock.parse_isSome]
      exact hrfc text hopen
    refine ⟨anchor, hanchor, ?_⟩
    intro total htotal hforward hfits htakes
    subst hj
    have hle : l.activeNanoseconds ≤ total := by omega
    obtain ⟨j', hrecord, hclosed⟩ := record_closes htakes hactive hl hopen hle hfits
    refine ⟨j', recover_open hl hopen hanchor hforward htotal hfits hrecord, hclosed, ?_⟩
    exact recoverAll_closed hclosed rfl

def timedEnv : Env :=
  Env.plain ((Graph.build { flow := [{ id := "a", kind := "step" }] }).toOption.get
    (by decide +kernel))

/-- Every text is the same instant. -/
def stoppedClock : Clock timedEnv.api where
  parse _ := some 0
  toRfc3339 _ := "epoch"
  parse_isSome _ := rfl

/-- An admission under a mode, with or without a time stamp. -/
def admission (seq : Nat) (mode : String) (ts : List (String × Value)) : Value :=
  .obj (ts ++ [("t", .str "run_queued"), ("seq", .num seq), ("run_id", .str "run"),
    ("trace_id", .str "trace"), ("span_id", .str "span"), ("schema_version", .num 2),
    ("elapsed_budget_mode", .str mode)])

def crashedEvents : List Value :=
  [admission 1 "active_execution" [("ts", .str "now")],
    .obj [("t", .str "elapsed_accounted"), ("ts", .str "now"), ("seq", .num 2),
      ("run_id", .str "run"), ("trace_id", .str "trace"), ("span_id", .str "span"),
      ("active_nanoseconds", .num 0), ("active_started_at", .str "now")]]

def crashedJournal : Journal :=
  (Journal.reopen timedEnv crashedEvents).toOption.get (by decide +kernel)

theorem ledger_kept_and_recovered_crashed :
    ∃ j', recover timedEnv stoppedClock crashedJournal 5 = .ok (5, j') ∧
      j'.state.budget.elapsed = some { activeNanoseconds := 5, activeStartedAt := none } ∧
      ∀ starts, recoverAll timedEnv stoppedClock j' starts = .ok j' := by
  have hfold : crashedEvents.foldlM (RunState.apply timedEnv.api) {} =
      .ok crashedJournal.state := by
    decide +kernel
  obtain ⟨anchor, hanchor, hrecover⟩ :=
    (ledger_kept_and_recovered stoppedClock (by decide +kernel) hfold).2 crashedJournal
      { activeNanoseconds := 0, activeStartedAt := some "now" } "now" 5 rfl (by decide +kernel) rfl
  cases hanchor
  refine hrecover 5 rfl (by decide) (by decide) ⟨?_, ?_, ?_, ?_, ?_⟩
  · decide +kernel
  · decide +kernel
  · decide +kernel
  · decide +kernel
  · exact ⟨(RunEvent.fromFlat timedEnv.api (crashedJournal.record timedEnv .elapsedAccounted
      (payload 5 none))).toOption.get (by decide +kernel), by decide +kernel⟩

/-- Without a time stamp the first admission leaves no start, and a second one may then
change the mode of the ledger that the first one opened. -/
theorem undated_mode_changes :
    (do
      let first ← RunState.apply .plain {} (admission 1 "active_execution" [])
      let second ← first.apply .plain (admission 2 "wall_clock" [])
      return (first.budget.clock, second.budget.clock)) =
      .ok ((.activeExecution, some { activeNanoseconds := 0, activeStartedAt := none }, none),
        (.wallClock, some { activeNanoseconds := 0, activeStartedAt := none }, none)) := by
  decide +kernel

end Elapsed

end Qcg
