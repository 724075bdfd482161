import Qcg.Contract.Graph

/-!
# Laws of the dependency policies

What the two dependency tests read, that a decided node stays decided while states
only settle, and that a node whose needs are all terminal is either runnable or
skipped, never both.
-/

namespace Qcg

open List

namespace Graph

variable {node : NodeDef} {states states' : BTreeMap NodeState}

theorem failedNeeds_eq_nil_iff :
    failedNeeds node states = [] ↔
      ∀ need ∈ node.needs, ∀ reason,
        states[need]? ≠ some (.skipped reason) ∧ states[need]? ≠ some (.failed reason) := by
  unfold failedNeeds
  rw [filterMap_eq_nil_iff]
  refine forall₂_congr fun need _ => ?_
  cases hstate : (states[need]? : Option NodeState) with
  | none => simp
  | some state => cases state <;> simp

theorem dependencyFailure_eq_none_iff (code : FailureCode) :
    dependencyFailure node states code = none ↔ failedNeeds node states = [] := by
  unfold dependencyFailure
  cases failedNeeds node states <;> simp

variable {need : String}

theorem needIs_eq_true_iff {p : NodeState → Bool} :
    needIs states p need = true ↔ ∃ state, states[need]? = some state ∧ p state = true := by
  unfold needIs
  cases (states[need]? : Option NodeState) <;> simp

def NeedsTerminal (node : NodeDef) (states : BTreeMap NodeState) : Prop :=
  ∀ need ∈ node.needs, needIs states NodeState.isTerminal need = true

section

variable (hterminal : NeedsTerminal node states)

include hterminal

theorem failedNeeds_ne_nil (hneed : need ∈ node.needs)
    (hbad : needIs states NodeState.isSuccess need = false) :
    failedNeeds node states ≠ [] := by
  intro hnil
  obtain ⟨state, hstate, hterm⟩ := needIs_eq_true_iff.mp (hterminal need hneed)
  have hgood := failedNeeds_eq_nil_iff.mp hnil need hneed
  unfold needIs at hbad
  rw [hstate] at hbad
  cases state with
  | pending | running => simp [NodeState.isTerminal] at hterm
  | success => simp [NodeState.isSuccess] at hbad
  | skipped reason => exact (hgood reason).1 hstate
  | failed reason => exact (hgood reason).2 hstate

theorem dependencyFailure_isSome (hneed : need ∈ node.needs)
    (hbad : needIs states NodeState.isSuccess need = false) (code : FailureCode) :
    (dependencyFailure node states code).isSome = true := by
  rw [Option.isSome_iff_ne_none, ne_eq, dependencyFailure_eq_none_iff]
  exact failedNeeds_ne_nil hterminal hneed hbad

theorem shouldSkip_isSome_of_not_needsSatisfied
    (h : needsSatisfied node states = false) :
    (shouldSkipByDependencies node states).isSome = true := by
  have hall : node.needs.all (needIs states NodeState.isTerminal) = true :=
    all_eq_true.mpr hterminal
  unfold needsSatisfied at h
  unfold shouldSkipByDependencies
  by_cases hempty : node.needs.isEmpty = true
  · simp [hempty] at h
  rw [if_neg hempty] at h ⊢
  cases hpolicy : node.onDeps with
  | allSucceeded =>
    simp only [hpolicy, all_eq_false] at h
    obtain ⟨need, hneed, hbad⟩ := h
    exact dependencyFailure_isSome hterminal hneed (by simpa using hbad) _
  | anySucceeded =>
    simp only [hpolicy] at h
    simp only [hall, h, Bool.not_false, Bool.and_self, if_true]
    obtain ⟨need, hneed⟩ := exists_mem_of_ne_nil node.needs (by simpa using hempty)
    exact dependencyFailure_isSome hterminal hneed
      (by simpa using any_eq_false.mp h need hneed) _
  | noneFailed =>
    simp only [hpolicy, all_eq_false] at h
    obtain ⟨need, hneed, hbad⟩ := h
    obtain ⟨state, hstate, hterm⟩ := needIs_eq_true_iff.mp (hterminal need hneed)
    obtain ⟨reason, rfl⟩ : ∃ reason, state = .failed reason := by
      unfold needIs at hbad
      rw [hstate] at hbad
      cases state <;> simp_all [NodeState.isTerminal, NodeState.isUnfailed]
    have hfailed : needIs states NodeState.isFailed need = true :=
      needIs_eq_true_iff.mpr ⟨_, hstate, rfl⟩
    have hany : node.needs.any (needIs states NodeState.isFailed) = true :=
      any_eq_true.mpr ⟨need, hneed, hfailed⟩
    simp only [hall, hany, Bool.and_self, if_true]
    exact dependencyFailure_isSome hterminal hneed (by simp [needIs, hstate, NodeState.isSuccess]) _

end

/-- `states'` extends `states`: whatever was terminal is unchanged. -/
def Extends (states states' : BTreeMap NodeState) : Prop :=
  ∀ (id : String) (state : NodeState), states[id]? = some state → state.isTerminal = true →
    states'[id]? = some state

theorem Extends.refl (states : BTreeMap NodeState) : Extends states states :=
  fun _ _ h _ => h

variable (g : Graph)

theorem mem_order_iff {id : String} : id ∈ g.order ↔ g.nodes.contains id = true := by
  rw [g.complete.mem_iff, Std.ExtTreeMap.mem_keys, Std.ExtTreeMap.contains_iff_mem]

theorem order_nodup : g.order.Nodup :=
  g.complete.nodup_iff.mpr Std.ExtTreeMap.nodup_keys

theorem needs_mem_of_split {id : String} {l₁ l₂ : List String} (horder : g.order = l₁ ++ id :: l₂)
    (hnode : g.nodes[id]? = some node) :
    ∀ need ∈ node.needs, need ∈ l₁ := by
  intro need hneed
  apply g.sorted l₁ id l₂ horder
  simpa [needsOf, hnode] using hneed

end Graph

end Qcg
