import Qcg.Engine.Records
import Qcg.Engine.Wave

/-!
# Where a step has effects

`Touches` bounds the node states that a step may change; a `Still` step changes none of them.
-/

namespace Qcg

open EStateM (Spec Tracks spec_bind spec_ite spec_pure spec_throw tracks_modify tracks_pure
  tracks_throw)
open Json (Value Members)

def Terminal (id : String) (live : Live) : Prop :=
  ∃ state : NodeState, live.states[id]? = some state ∧ state.isTerminal = true

def Pending (id : String) (live : Live) : Prop :=
  live.states[id]? = some .pending

instance (id : String) (live : Live) : Decidable (Pending id live) :=
  inferInstanceAs (Decidable (_ = _))

/-- A step that changes node states only within `S`. -/
structure Touches (S : String → Prop) (live live' : Live) : Prop where
  states : ∀ k : String, ¬ S k → live'.states[k]? = live.states[k]?

/-- A step that changes no node state. -/
abbrev Still : Live → Live → Prop :=
  Touches fun _ => False

namespace Touches

variable {S S' : String → Prop} {a b c : Live}

theorem refl (live : Live) : Touches S live live :=
  ⟨fun _ _ => rfl⟩

theorem trans (h : Touches S a b) (h' : Touches S b c) : Touches S a c :=
  ⟨fun k hk => (h'.states k hk).trans (h.states k hk)⟩

instance : IsPreorder Live (Touches S) where
  refl := refl
  trans _ _ _ := trans

theorem mono (h : Touches S a b) (hS : ∀ k, S k → S' k) : Touches S' a b :=
  ⟨fun k hk => h.states k fun hs => hk (hS k hs)⟩

theorem of_still (h : Still a b) : Touches S a b :=
  h.mono fun _ h => h.elim

end Touches

section Primitive

variable {env : Env} {S : String → Prop} {kind : EventKind} {payload : List (String × Value)}
  {live : Live} {Q : Unit → Live → Prop} {E : EngineError → Live → Prop} {α : Type}

theorem touches_of_still {m : EngineM α} (h : Tracks Still m) : Tracks (Touches S) m :=
  fun live => (h live).mono (fun _ _ h => .of_still h) fun _ _ h => .of_still h

theorem event_spec
    (hok : ∀ journal, kind.isObservation = false →
      live.journal.append env kind (Members.ofList payload) = .ok journal →
        Q () { live with journal })
    (hobservation : kind.isObservation = true → Q () live)
    (herror : ∀ error, E (.journal error) live) :
    Spec (event env kind payload) live Q E := by
  unfold Spec event
  split_ifs with hkind
  · exact hobservation hkind
  · cases happend : live.journal.append env kind (Members.ofList payload) with
    | ok journal => exact hok journal (by simpa using hkind) happend
    | error error => exact herror error

theorem Still.of_eq {live' : Live} (hstates : live'.states = live.states) : Still live live' :=
  ⟨fun _ _ => by rw [hstates]⟩

/-- A record touches no state, whether the journal takes it or not. -/
theorem touches_event : Tracks (Touches S) (event env kind payload) :=
  fun live => event_spec (fun _ _ _ => .of_still (.of_eq rfl)) (fun _ => .refl live)
    fun _ => .refl live

theorem touches_setState {id : String} (state : NodeState) (hS : S id) :
    Tracks (Touches S) (setState id state) := by
  refine tracks_modify fun live => ⟨fun k hk => ?_⟩
  exact BTreeMap.get_insert_of_ne _ _ fun hid => hk (hid ▸ hS)

theorem still_modify {f : Live → Live} (h : ∀ live, (f live).states = live.states) :
    Tracks Still (modify f : EngineM Unit) :=
  tracks_modify fun live => .of_eq (h live)

theorem still_modifyVars (f : ValueBag → ValueBag) : Tracks Still (modifyVars f) :=
  still_modify fun _ => rfl

theorem still_syncLiveOutcomes : Tracks Still syncLiveOutcomes :=
  still_modify fun _ => rfl

theorem still_syncSubtree (path : String) : Tracks Still (syncSubtree path) :=
  still_modify fun _ => rfl

@[simp] theorem spec_ask {question : Nat → α} {R : α → Live → Prop} :
    Spec (ask question) live R E ↔
      R (question live.tick) { live with tick := live.tick + 1 } :=
  EStateM.spec_iff_of_ok rfl

theorem still_ask (question : Nat → α) : Tracks Still (ask question) :=
  fun _ => spec_ask.mpr (Still.of_eq rfl)

theorem still_consume (node : String) : Tracks Still (consume env node) := by
  intro live
  unfold consume
  refine spec_bind.mpr (EStateM.spec_get.mpr (spec_ite.mpr ⟨fun _ => ?_, fun _ => ?_⟩))
  · exact EStateM.spec_set.mpr (Still.of_eq rfl)
  · exact spec_throw.mpr (refl_of Still live)

theorem still_checkCancelled : Tracks Still (checkCancelled env) :=
  (still_ask _).bind fun _ => (tracks_throw _).ite (tracks_pure _)

theorem still_pinAttemptFiles : Tracks Still (pinAttemptFiles env) := by
  refine (still_ask _).bind fun failure => ?_
  cases failure with
  | some error => exact tracks_throw _
  | none => exact tracks_pure _

theorem still_checkExpired (error : UInt64 → Duration → StepError) :
    Tracks Still (checkExpired env error) := by
  refine (still_ask _).bind fun answer => ?_
  cases answer with
  | some answer => exact tracks_throw _
  | none => exact tracks_pure _

theorem still_runCheckpoint : Tracks Still (runCheckpoint env) :=
  still_checkCancelled.bind fun _ => still_checkExpired _

end Primitive

section Attempts

variable {env : Env} {node : NodeDef}

theorem still_attemptOnce : Tracks Still (attemptOnce env node) := by
  refine (still_consume _).bind fun _ => touches_event.bind fun _ => ?_
  refine Tracks.bind (still_modify fun _ => rfl) fun _ => ?_
  exact EStateM.tracks_get.bind fun _ => still_ask _

theorem still_repeatAttempt (attempt maxAttempts : Nat) (error : EngineError) :
    Tracks Still (repeatAttempt env node attempt maxAttempts error) := by
  refine touches_event.bind fun _ => ?_
  exact still_checkCancelled.bind fun _ => still_checkExpired _

theorem still_attempts (maxAttempts left : Nat) :
    Tracks Still (attempts env node maxAttempts left) := by
  induction left with
  | zero =>
    refine still_attemptOnce.bind fun result => ?_
    cases result with
    | ok outcome => exact tracks_pure _
    | error error => exact tracks_throw _
  | succ left ih =>
    refine still_attemptOnce.bind fun result => ?_
    cases result with
    | ok outcome => exact tracks_pure _
    | error error =>
      refine Tracks.ite ?_ (tracks_throw _)
      exact (still_repeatAttempt _ _ _).bind fun _ => ih

theorem still_executeNodeWithRetry : Tracks Still (executeNodeWithRetry env node) := by
  unfold executeNodeWithRetry
  cases retryAttempts node with
  | error error => exact tracks_throw _
  | ok maxAttempts => exact still_attempts _ _

end Attempts

end Qcg
