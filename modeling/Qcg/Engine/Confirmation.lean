import Qcg.Engine.Types
import Qcg.Library.Checked
import Qcg.Library.JsonText
import Qcg.State.Facets

/-!
# Confirmations of side effects

Before an external side effect the policy of the manifest denies it, allows it or asks the
user. What a user approves is kept under an identity made of the node, the kind, a digest of
target and details and, in the scope of one invocation, a digest of the invocation. The parts
can be read back from the identity, so an approval answers for no other operation.
-/

namespace Qcg

open List
open Json (Value)
open Encoding

def validateNodeId (id : String) : Except String Unit :=
  if id.toList.contains ':' then
    .error ("node id `" ++ id ++
      "` must not contain `:`; confirmation ids use `:` as a separator")
  else .ok ()

/-- The paths that the engine builds from accepted ids. -/
inductive NodePath.Built : NodePath → Prop where
  | root {id : String} (h : validateNodeId id = .ok ()) : Built (.root id)
  | foreachChild {path : NodePath} (index : Nat) {child : String} (hpath : Built path)
      (h : validateNodeId child = .ok ()) : Built (path.foreachChild index child)
  | repairChild {path : NodePath} (attempt : Nat) {child : String} (hpath : Built path)
      (h : validateNodeId child = .ok ()) : Built (path.repairChild attempt child)

theorem validateNodeId_eq_ok {id : String} : validateNodeId id = .ok () ↔ ':' ∉ id.toList := by
  rw [validateNodeId]
  split_ifs with h <;> simpa using h

theorem colon_notMem_toString (n : Nat) : ':' ∉ (toString n).toList := by
  intro h
  have hmem : ':' ∈ Nat.toDigits 10 n := by
    rw [show toString n = n.repr from rfl, Nat.repr, String.toList_ofList] at h
    exact h
  exact absurd (Nat.isDigit_of_mem_toDigits (by decide) (by decide) hmem) (by decide)

theorem NodePath.Built.colon_notMem {path : NodePath} (h : path.Built) : ':' ∉ path.toList := by
  induction h with
  | root h => exact validateNodeId_eq_ok.mp h
  | foreachChild index _ h ih =>
    simp only [NodePath.foreachChild, String.toList_append, mem_append, not_or]
    exact ⟨⟨⟨⟨ih, by decide⟩, colon_notMem_toString index⟩, by decide⟩, validateNodeId_eq_ok.mp h⟩
  | repairChild attempt _ h ih =>
    simp only [NodePath.repairChild, String.toList_append, mem_append, not_or]
    exact ⟨⟨⟨⟨ih, by decide⟩, colon_notMem_toString attempt⟩, by decide⟩, validateNodeId_eq_ok.mp h⟩

inductive SideEffectScope where
  | invocation
  | content
deriving DecidableEq

inductive SideEffects where
  | none
  | confirm
  | dryRunFirst
  | allowed
deriving DecidableEq

/-- The `Debug` text of a policy that asks. -/
def SideEffects.debug : SideEffects → String
  | .none => "None"
  | .confirm => "Confirm"
  | .dryRunFirst => "DryRunFirst"
  | .allowed => "Allowed"

/-- A digest in hexadecimal letters. -/
structure Sha256 where
  hex : List UInt8 → String
  colon_notMem : ∀ bytes, ':' ∉ (hex bytes).toList

/-- An external side effect that a node is about to have. -/
structure Operation where
  node : NodePath
  kind : String
  target : String
  details : Option Value
  invocationId : String
  node_built : node.Built

def operationDigest (sha256 : Sha256) (target : String) (details : Option Value) : String :=
  sha256.hex (utf8 target ++ [0] ++ details.elim [] Value.toVec)

def confirmationId (sha256 : Sha256) (scope : SideEffectScope) (op : Operation) : String :=
  let digest := operationDigest sha256 op.target op.details
  match scope with
  | .content => op.node ++ ":" ++ op.kind ++ ":" ++ digest
  | .invocation =>
    op.node ++ ":" ++ op.kind ++ ":" ++ digest ++ ":" ++ sha256.hex (utf8 op.invocationId)

/-- What a run is allowed to do, and what a confirmation it asks for stands for. -/
structure Permissions where
  scope : SideEffectScope
  sideEffects : SideEffects

def SideEffectScope.toValue : SideEffectScope → Value
  | .invocation => .str "invocation"
  | .content => .str "content"

def confirmSpec (id : String) (scope : SideEffectScope) (op : Operation) (dryRun : Bool)
    (digest : String) : ConfirmSpec where
  id := id
  body := .obj (Json.Members.ofList [("id", .str id),
    ("title", .str ("Confirm side effect `" ++ op.kind ++ "` for node `" ++ op.node ++ "`")),
    ("kind", .str op.kind), ("target", .str op.target), ("dry_run", .bool dryRun),
    ("details", op.details.getD .null), ("operation_digest", .str digest),
    ("scope", scope.toValue)])

def sideEffectEvent (op : Operation) (decision : String) (more : List (String × Value)) : Value :=
  .obj (Json.Members.ofList ([("node", .str op.node), ("kind", .str op.kind),
    ("target", .str op.target), ("decision", .str decision),
    ("details", op.details.getD .null)] ++ more))

/-- The journal takes an event or refuses it. -/
abbrev EventSink := String → Value → Except String Unit

def stepEvent (journal : EventSink) (node : NodePath) (kind : String) (data : Value) :
    Except StepError Unit :=
  (journal kind data).mapError (StepError.failed node)

def askUser (sha256 : Sha256) (permissions : Permissions) (journal : EventSink)
    (confirmations : BTreeMap Bool) (op : Operation) (dryRun : Bool) :
    Except StepError (Option ConfirmSpec) :=
  let digest := operationDigest sha256 op.target op.details
  let id := confirmationId sha256 permissions.scope op
  if (confirmations[id]? : Option Bool).getD false then do
    stepEvent journal op.node "side_effect" (sideEffectEvent op "approved_by_user"
      [("policy", .str permissions.sideEffects.debug), ("operation_digest", .str digest)])
    .ok none
  else do
    if dryRun then
      stepEvent journal op.node "dry_run" (.obj (Json.Members.ofList [("node", .str op.node),
        ("kind", .str op.kind), ("target", .str op.target), ("details", op.details.getD .null),
        ("operation_digest", .str digest)]))
    stepEvent journal op.node "side_effect" (sideEffectEvent op "confirmation_required"
      [("policy", .str permissions.sideEffects.debug), ("dry_run", .bool dryRun),
        ("operation_digest", .str digest)])
    .ok (some (confirmSpec id permissions.scope op dryRun digest))

/-- Returns the confirmation that a side effect still needs, if any. -/
def requireSideEffect (sha256 : Sha256) (permissions : Permissions) (journal : EventSink)
    (confirmations : BTreeMap Bool) (op : Operation) : Except StepError (Option ConfirmSpec) :=
  match permissions.sideEffects with
  | .none => do
    stepEvent journal op.node "side_effect" (sideEffectEvent op "denied" [("policy", .str "none")])
    .error (.failed op.node ("side effect `" ++ op.kind ++ "` to `" ++ op.target ++
      "` is not allowed by permissions.side_effects=none"))
  | .allowed => do
    stepEvent journal op.node "side_effect"
      (sideEffectEvent op "allowed" [("policy", .str "allowed")])
    .ok none
  | .confirm => askUser sha256 permissions journal confirmations op false
  | .dryRunFirst => askUser sha256 permissions journal confirmations op true

variable {sha256 : Sha256} {scope : SideEffectScope}

/-- Two operations that an approval of one covers the other for. -/
structure Operation.Agrees (scope : SideEffectScope) (l r : Operation) : Prop where
  node : l.node = r.node
  kind : l.kind = r.kind
  target : l.target = r.target
  details : l.details = r.details
  invocation : scope = .invocation → l.invocationId = r.invocationId

theorem elim_toVec_inj {l r : Option Value}
    (h : l.elim [] Value.toVec = r.elim [] Value.toVec) : l = r := by
  cases l with
  | none =>
    cases r with
    | none => rfl
    | some w => exact absurd h.symm (Value.toVec_ne_nil w)
  | some v =>
    cases r with
    | none => exact absurd h (Value.toVec_ne_nil v)
    | some w => exact congrArg some (Value.toVec_injective h)

theorem zero_notMem_elim_toVec (details : Option Value) : 0 ∉ details.elim [] Value.toVec := by
  cases details with
  | none => simp
  | some v => exact Value.zero_notMem_toVec v

/-- The last zero byte ends the target, since no JSON text has one. -/
theorem operationDigest_inj (hcollision : Function.Injective sha256.hex) {target target' : String}
    {details details' : Option Value}
    (h : operationDigest sha256 target details = operationDigest sha256 target' details') :
    target = target' ∧ details = details' := by
  have hbytes := hcollision h
  simp only [append_assoc, singleton_append] at hbytes
  obtain ⟨htarget, hdetails⟩ :=
    last_inj (zero_notMem_elim_toVec details) (zero_notMem_elim_toVec details') hbytes
  exact ⟨utf8_injective htarget, elim_toVec_inj hdetails⟩

theorem colon_notMem_operationDigest (target : String) (details : Option Value) :
    ':' ∉ (operationDigest sha256 target details).toList :=
  sha256.colon_notMem _

theorem agrees_of_confirmationId (hcollision : Function.Injective sha256.hex) {l r : Operation}
    (h : confirmationId sha256 scope l = confirmationId sha256 scope r) : l.Agrees scope r := by
  have hnode := l.node_built.colon_notMem
  have hnode' := r.node_built.colon_notMem
  cases scope with
  | content =>
    have hchars := congrArg String.toList h
    simp only [confirmationId, String.toList_append, append_assoc] at hchars
    obtain ⟨hnodes, hrest⟩ := first_inj hnode hnode' hchars
    obtain ⟨hkinds, hdigests⟩ := last_inj (colon_notMem_operationDigest _ _)
      (colon_notMem_operationDigest _ _) hrest
    obtain ⟨htarget, hdetails⟩ :=
      operationDigest_inj hcollision (String.toList_inj.mp hdigests)
    exact ⟨String.toList_inj.mp hnodes, String.toList_inj.mp hkinds, htarget, hdetails, nofun⟩
  | invocation =>
    have hchars := congrArg String.toList h
    simp only [confirmationId, String.toList_append, append_assoc] at hchars
    obtain ⟨hnodes, hrest⟩ := first_inj hnode hnode' hchars
    have hrest : (l.kind.toList ++ ':' :: (operationDigest sha256 l.target l.details).toList) ++
          ':' :: (sha256.hex (utf8 l.invocationId)).toList =
        (r.kind.toList ++ ':' :: (operationDigest sha256 r.target r.details).toList) ++
          ':' :: (sha256.hex (utf8 r.invocationId)).toList := by
      simpa using hrest
    obtain ⟨hcontent, hinvocations⟩ :=
      last_inj (sha256.colon_notMem _) (sha256.colon_notMem _) hrest
    obtain ⟨hkinds, hdigests⟩ := last_inj (colon_notMem_operationDigest _ _)
      (colon_notMem_operationDigest _ _) hcontent
    obtain ⟨htarget, hdetails⟩ :=
      operationDigest_inj hcollision (String.toList_inj.mp hdigests)
    have hinvocation : l.invocationId = r.invocationId :=
      utf8_injective (hcollision (String.toList_inj.mp hinvocations))
    exact ⟨String.toList_inj.mp hnodes, String.toList_inj.mp hkinds, htarget, hdetails,
      fun _ => hinvocation⟩

/-- An answer to the confirmation of an operation, as `user_confirmed` records it. -/
structure Answer where
  operation : Operation
  approved : Bool

def record (sha256 : Sha256) (scope : SideEffectScope) (confirmations : BTreeMap Bool)
    (answer : Answer) : BTreeMap Bool :=
  confirmations.insert (confirmationId sha256 scope answer.operation) answer.approved

/-- The fold keeps an accepted `user_confirmed` record as the answer that it gives. -/
theorem confirmations_of_applyRecord {api : Api} {s s' : FoldState} {event : Value}
    {answer : Answer}
    (hid : event.getStr "confirmation_id" = some (confirmationId sha256 scope answer.operation))
    (happroved : (event.get "approved").bind Value.asBool = some answer.approved)
    (h : s.applyRecord api .userConfirmed event = .ok s') :
    s'.confirmations = record sha256 scope s.confirmations answer := by
  have hfacets : s'.responses = s.responses.decide event :=
    congrArg Facets.responses (FoldState.applyRecord_facets h)
  rw [Responses.decide, hid, happroved] at hfacets
  exact congrArg Responses.confirmations hfacets

variable {confirmations : BTreeMap Bool} {op : Operation}

theorem approved_of_record (hcollision : Function.Injective sha256.hex) {answers : List Answer}
    (h : (answers.foldl (record sha256 scope) confirmations)[confirmationId sha256 scope op]? =
      some true) :
    confirmations[confirmationId sha256 scope op]? = some true ∨
      ∃ answer ∈ answers, answer.approved = true ∧ answer.operation.Agrees scope op := by
  induction answers generalizing confirmations with
  | nil => exact .inl h
  | cons answer answers ih =>
    rw [foldl_cons] at h
    rcases ih h with hbefore | ⟨later, hlater, happroved, hagrees⟩
    · rw [record, BTreeMap.get_insert] at hbefore
      split_ifs at hbefore with hid
      · exact .inr ⟨answer, mem_cons_self, Option.some.inj hbefore,
          agrees_of_confirmationId hcollision hid.symm⟩
      · exact .inl hbefore
    · exact .inr ⟨later, mem_cons_of_mem _ hlater, happroved, hagrees⟩

variable {permissions : Permissions} {journal : EventSink}

theorem askUser_eq_none {dryRun : Bool}
    (h : askUser sha256 permissions journal confirmations op dryRun = .ok none) :
    confirmations[confirmationId sha256 permissions.scope op]? = some true := by
  rw [askUser] at h
  split at h
  · next happroved =>
    cases hfound : (confirmations[confirmationId sha256 permissions.scope op]? : Option Bool) with
    | none => simp [hfound] at happroved
    | some approved =>
      rw [hfound, Option.getD_some] at happroved
      rw [happroved]
  · cases dryRun <;>
    · simp only [Bool.false_eq_true, if_true, if_false, Except.bind_eq_ok] at h
      grind

/-- What is let through is allowed without being asked about, or approved. -/
theorem requireSideEffect_eq_none
    (h : requireSideEffect sha256 permissions journal confirmations op = .ok none) :
    permissions.sideEffects = .allowed ∨
      confirmations[confirmationId sha256 permissions.scope op]? = some true := by
  rw [requireSideEffect] at h
  cases hpolicy : permissions.sideEffects with
  | none =>
    rw [hpolicy, Except.bind_eq_ok] at h
    obtain ⟨_, _, herror⟩ := h
    cases herror
  | allowed => exact .inl rfl
  | confirm =>
    rw [hpolicy] at h
    exact .inr (askUser_eq_none h)
  | dryRunFirst =>
    rw [hpolicy] at h
    exact .inr (askUser_eq_none h)

/-- A confirmation id determines the operation it is asked for, as far as the scope reaches;
after any answers an operation is let through only if the policy allows it unasked, it was
approved before, or one of the answers approves an operation that agrees with it. -/
theorem approval_only_for_agreeing (sha256 : Sha256) (hcollision : Function.Injective sha256.hex)
    (permissions : Permissions) :
    (∀ l r : Operation, confirmationId sha256 permissions.scope l =
        confirmationId sha256 permissions.scope r → l.Agrees permissions.scope r) ∧
      ∀ (journal : EventSink) (confirmations : BTreeMap Bool) (answers : List Answer)
        (op : Operation),
        requireSideEffect sha256 permissions journal
            (answers.foldl (record sha256 permissions.scope) confirmations) op = .ok none →
          permissions.sideEffects = .allowed ∨
            confirmations[confirmationId sha256 permissions.scope op]? = some true ∨
            ∃ answer ∈ answers, answer.approved = true ∧
              answer.operation.Agrees permissions.scope op := by
  constructor
  · intro l r
    exact agrees_of_confirmationId hcollision
  · intro journal confirmations answers op h
    rcases requireSideEffect_eq_none h with hallowed | happroved
    · exact .inl hallowed
    · exact .inr (approved_of_record hcollision happroved)

def spelledSha256 : Sha256 where
  hex := spelled
  colon_notMem := notMem_spelled (by decide)

def writeOperation (target : String) : Operation where
  node := NodePath.foreachChild (.root "each") 2 "write"
  kind := "command"
  target := target
  details := some (.obj [("argv", .arr [.str "cp"])])
  invocationId := "call:1"
  node_built := .foreachChild 2 (.root rfl) rfl

/-- An approved copy to one place is let through, and to another place it is not. -/
theorem approval_only_for_agreeing_write :
    requireSideEffect spelledSha256 ⟨.invocation, .confirm⟩ (fun _ _ => .ok ())
        ([⟨writeOperation "a", true⟩].foldl (record spelledSha256 .invocation) ∅)
        (writeOperation "a") = .ok none ∧
      requireSideEffect spelledSha256 ⟨.invocation, .confirm⟩ (fun _ _ => .ok ())
        ([⟨writeOperation "a", true⟩].foldl (record spelledSha256 .invocation) ∅)
        (writeOperation "b") ≠ .ok none := by
  constructor
  · rfl
  · intro h
    obtain ⟨_, hlets⟩ := approval_only_for_agreeing spelledSha256 spelled_injective
      ⟨.invocation, .confirm⟩
    rcases hlets _ _ _ _ h with hallowed | hbefore | ⟨answer, hanswer, _, hagrees⟩
    · cases hallowed
    · simp at hbefore
    · rw [mem_singleton] at hanswer
      subst hanswer
      exact absurd hagrees.target (by decide)

end Qcg
