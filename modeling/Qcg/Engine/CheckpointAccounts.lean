import Qcg.Engine.ResumeFiles

/-!
# The accounting of concurrent checkpoints

The calls that pin the files of steps share one accounting. A call records the size of a path and
remembers the size it has found there; when the blob cannot be persisted it puts that size back,
whatever other calls have recorded in between.
-/

namespace Qcg

namespace Resume

/-- The arithmetic saturates at the bounds of 64 bits. -/
def CheckpointAccounting.rollback (path : String) (bytes : Nat) (previous : Option Nat)
    (a : CheckpointAccounting) : CheckpointAccounting where
  totalBytes := min (a.totalBytes - bytes + previous.getD 0) (2 ^ 64 - 1)
  bytesByPath := match previous with
    | some previous => a.bytesByPath.insert path previous
    | none => a.bytesByPath.erase path

namespace CheckpointAccounting

variable (a : CheckpointAccounting) (path : String) (bytes : Nat) (previous : Option Nat)

theorem get_rollback (k : String) : (a.rollback path bytes previous).bytesByPath[k]? =
    if k = path then previous else a.bytesByPath[k]? := by
  cases previous with
  | none => exact BTreeMap.get_erase ..
  | some => exact BTreeMap.get_insert ..

theorem sumBy_rollback : (a.rollback path bytes previous).bytesByPath.sumBy id =
    previous.getD 0 + BTreeMap.sumBy id (a.bytesByPath.erase path) := by
  cases previous with
  | none => exact (Nat.zero_add _).symm
  | some => exact BTreeMap.sumBy_insert ..

theorem size_insert : (a.bytesByPath.insert path bytes).size =
    a.bytesByPath.size + if (a.bytesByPath[path]? : Option Nat).isSome then 0 else 1 := by
  rw [Std.ExtTreeMap.size_insert, Std.ExtTreeMap.isSome_getElem?_eq_contains]
  simp only [Std.ExtTreeMap.contains_iff_mem]
  split_ifs <;> rfl

theorem size_rollback (h : (a.bytesByPath[path]? : Option Nat).isSome = true) :
    (a.rollback path bytes previous).bytesByPath.size ≤ a.bytesByPath.size := by
  cases previous with
  | none => exact Std.ExtTreeMap.size_erase_le
  | some previous =>
    have hsize := a.size_insert path previous
    rw [if_pos h] at hsize
    exact hsize.le

end CheckpointAccounting

/-- A record, with the number of the call that made it and the size that it has replaced. -/
structure Pin where
  call : Nat
  path : String
  bytes : Nat
  previous : Option Nat
  deriving DecidableEq

/-- The accounting, the records that were not rolled back and all records, newest first. -/
structure Checkpoints where
  accounting : CheckpointAccounting := {}
  pins : List Pin := []
  recorded : List (String × Nat) := []

inductive PinStep where
  | record (path : String) (bytes : Nat)
  | rollback (call : Nat)

/-- The size of the last record for a path. -/
def sizeOf (pins : List Pin) (path : String) : Option Nat :=
  (pins.find? (·.path = path)).map (·.bytes)

@[simp] theorem sizeOf_cons (pin : Pin) (pins : List Pin) (path : String) :
    sizeOf (pin :: pins) path = if pin.path = path then some pin.bytes else sizeOf pins path := by
  rw [sizeOf, sizeOf, List.find?_cons]
  split_ifs with h <;> simp [h]

namespace Checkpoints

variable (limits : RuntimeLimits)

/-- One step of `pin_files` under the lock: a record, or the rollback of a call's record after its
blob could not be persisted. -/
def step (s : Checkpoints) : PinStep → Checkpoints
  | .record path bytes =>
    match s.accounting.record limits path bytes with
    | .error _ => s
    | .ok accounting =>
      ⟨accounting,
        ⟨s.recorded.length, path, bytes, s.accounting.bytesByPath[path]?⟩ :: s.pins,
        (path, bytes) :: s.recorded⟩
  | .rollback call =>
    match s.pins.find? (·.call = call) with
    | none => s
    | some pin =>
      { s with
        accounting := s.accounting.rollback pin.path pin.bytes pin.previous
        pins := s.pins.eraseP (·.call = call) }

def run (steps : List PinStep) : Checkpoints :=
  steps.foldl (step limits) {}

/-- The accounting agrees with the records in force and keeps the limits. -/
structure Exact (s : Checkpoints) : Prop where
  total : s.accounting.totalBytes = s.accounting.bytesByPath.sumBy id
  sizes : ∀ path : String, s.accounting.bytesByPath[path]? = sizeOf s.pins path
  bytes : ∀ limit, limits.outputTotalLimitBytes = some limit → s.accounting.totalBytes ≤ limit
  paths : ∀ limit, limits.outputArtifactLimit = some limit → s.accounting.bytesByPath.size ≤ limit

/-- A call may roll back: no other call has recorded its path since, and there is room for the
size that it has replaced. -/
structure Undoes (s : Checkpoints) (pin : Pin) : Prop where
  newest : s.pins.find? (·.path = pin.path) = some pin
  representable : s.accounting.totalBytes - pin.bytes + pin.previous.getD 0 < 2 ^ 64
  room : ∀ limit, limits.outputTotalLimitBytes = some limit →
    s.accounting.totalBytes - pin.bytes + pin.previous.getD 0 ≤ limit

/-- Each record has replaced the size of the record in force before it. -/
def Stacked : List Pin → Prop
  | [] => True
  | pin :: pins => pin.previous = sizeOf pins pin.path ∧ Stacked pins

variable {limits} {s : Checkpoints}

theorem exact_start : Exact limits {} where
  total := rfl
  sizes _ := Std.ExtTreeMap.getElem?_empty
  bytes _ _ := Nat.zero_le _
  paths _ _ := Nat.zero_le _

theorem Exact.record (h : Exact limits s) (path : String) (bytes : Nat) :
    Exact limits (s.step limits (.record path bytes)) := by
  rw [step]
  cases haccounting : s.accounting.record limits path bytes with
  | error => exact h
  | ok accounting =>
    simp only [CheckpointAccounting.record, ← s.accounting.size_insert path bytes] at haccounting
    split_ifs at haccounting with _ _ hpaths _ _ hbytes
    cases haccounting
    have htotal := h.total
    rw [BTreeMap.sumBy_eq id _ path] at htotal
    constructor
    · simp only [BTreeMap.sumBy_insert, htotal, Option.map_id_fun, id_eq]
      omega
    · intro k
      rw [BTreeMap.get_insert, h.sizes, sizeOf_cons]
      by_cases hk : k = path
      · simp [hk]
      · simp [hk, Ne.symm hk]
    · intro limit hlimit
      simpa [hlimit] using hbytes
    · intro limit hlimit
      simpa [hlimit] using hpaths

theorem Exact.stacked_record (h : Exact limits s) (hstacked : Stacked s.pins) (path : String)
    (bytes : Nat) : Stacked (s.step limits (.record path bytes)).pins := by
  rw [step]
  cases s.accounting.record limits path bytes with
  | error => exact hstacked
  | ok accounting => exact ⟨h.sizes path, hstacked⟩

/-- Without the newest record of a path, the one before it is in force. -/
theorem Stacked.undo {front back : List Pin} {pin : Pin} (h : Stacked (front ++ pin :: back))
    (hfront : ∀ other ∈ front, other.path ≠ pin.path) :
    Stacked (front ++ back) ∧ ∀ path, sizeOf (front ++ back) path =
      if path = pin.path then pin.previous else sizeOf (front ++ pin :: back) path := by
  induction front with
  | nil =>
    refine ⟨h.2, fun path => ?_⟩
    rw [List.nil_append, List.nil_append, sizeOf_cons]
    by_cases hpath : path = pin.path
    · rw [if_pos hpath, hpath, h.1]
    · rw [if_neg hpath, if_neg (Ne.symm hpath)]
  | cons other front ih =>
    rw [List.forall_mem_cons] at hfront
    obtain ⟨hstacked, hsizes⟩ := ih h.2 hfront.2
    refine ⟨⟨?_, hstacked⟩, fun path => ?_⟩
    · exact h.1.trans ((hsizes other.path).trans (if_neg hfront.1)).symm
    · simp only [List.cons_append, sizeOf_cons]
      by_cases hother : other.path = path
      · rw [if_pos hother, if_pos hother, if_neg fun hpath => hfront.1 (hother.trans hpath)]
      · rw [if_neg hother, if_neg hother, hsizes]

/-- A rollback, by the record that it takes away. -/
theorem rollback_eq {pin : Pin} {call : Nat} (hpin : s.pins.find? (·.call = call) = some pin) :
    ∃ front back, s.pins = front ++ pin :: back ∧ pin ∉ front ∧
      s.step limits (.rollback call) = { s with
        accounting := s.accounting.rollback pin.path pin.bytes pin.previous
        pins := front ++ back } := by
  obtain ⟨hcall, front, back, hpins, hfront⟩ := List.find?_eq_some_iff_append.mp hpin
  refine ⟨front, back, hpins, fun hmem => by simpa [hcall] using hfront pin hmem, ?_⟩
  simp only [step, hpin]
  rw [hpins, List.eraseP_append_right _ (by simpa using hfront), List.eraseP_cons, hcall]
  rfl

theorem Exact.rollback (h : Exact limits s) (hstacked : Stacked s.pins) {pin : Pin} {call : Nat}
    (hpin : s.pins.find? (·.call = call) = some pin) (hundoes : Undoes limits s pin) :
    Exact limits (s.step limits (.rollback call)) ∧
      Stacked (s.step limits (.rollback call)).pins := by
  obtain ⟨front, back, hpins, hnot, hstep⟩ := @rollback_eq limits s pin call hpin
  obtain ⟨-, front', back', hpins', hfront⟩ := List.find?_eq_some_iff_append.mp hundoes.newest
  have hpaths : ∀ other ∈ front', other.path ≠ pin.path := by simpa using hfront
  -- both splits are at the first occurrence of the record
  have hsame : front = front' := by
    rcases List.append_eq_append_iff.mp (hpins.symm.trans hpins') with
      ⟨more, hfront, hback⟩ | ⟨more, hfront, hback⟩
    · cases more with
      | nil => simpa using hfront.symm
      | cons head more =>
        have hhead : pin = head := (List.cons.inj hback).1
        exact absurd rfl (hpaths pin (by simp [hfront, hhead]))
    · cases more with
      | nil => simpa using hfront
      | cons head more =>
        have hhead : pin = head := (List.cons.inj hback).1
        exact absurd (by simp [hfront, hhead]) hnot
  obtain ⟨hleft, hsizes⟩ := (hpins ▸ hstacked : Stacked _).undo (hsame ▸ hpaths)
  have hsize : (s.accounting.bytesByPath[pin.path]? : Option Nat) = some pin.bytes := by
    rw [h.sizes, sizeOf, hundoes.newest]
    rfl
  have htotal := h.total
  rw [BTreeMap.sumBy_eq id _ pin.path, Option.map_id_fun, id_eq, hsize, Option.getD_some] at htotal
  have hfits := hundoes.representable
  have hmin : min (s.accounting.totalBytes - pin.bytes + pin.previous.getD 0) (2 ^ 64 - 1) =
      s.accounting.totalBytes - pin.bytes + pin.previous.getD 0 := by
    omega
  rw [hstep]
  refine ⟨⟨?_, ?_, ?_, ?_⟩, hleft⟩
  · rw [CheckpointAccounting.sumBy_rollback]
    simp only [CheckpointAccounting.rollback, hmin]
    omega
  · intro path
    rw [CheckpointAccounting.get_rollback, hsizes, h.sizes, ← hpins]
  · simp only [CheckpointAccounting.rollback, hmin]
    exact hundoes.room
  · intro limit hlimit
    have hle := s.accounting.size_rollback pin.path pin.bytes pin.previous (by rw [hsize]; rfl)
    exact hle.trans (h.paths limit hlimit)

/-! ## Runs -/

variable (limits) in
/-- Every rollback of a run may take its record back. -/
def UndoesThroughout (steps : List PinStep) : Prop :=
  ∀ front call pin, front ++ [.rollback call] <+: steps →
    (run limits front).pins.find? (·.call = call) = some pin → Undoes limits (run limits front) pin

variable (limits) in
def ExactThroughout (steps : List PinStep) : Prop :=
  ∀ front, front <+: steps → Exact limits (run limits front)

theorem run_concat (front : List PinStep) (next : PinStep) :
    run limits (front ++ [next]) = (run limits front).step limits next := by
  simp [run]

theorem exact_of_undoes {steps : List PinStep} (h : UndoesThroughout limits steps) :
    ∀ front, front <+: steps →
      Exact limits (run limits front) ∧ Stacked (run limits front).pins := by
  intro front hfront
  induction front using List.reverseRecOn with
  | nil => exact ⟨exact_start, trivial⟩
  | append_singleton front next ih =>
    obtain ⟨hexact, hstacked⟩ := ih ((List.prefix_append _ _).trans hfront)
    rw [run_concat]
    cases next with
    | record path bytes => exact ⟨hexact.record path bytes, hexact.stacked_record hstacked _ _⟩
    | rollback call =>
      cases hpin : (run limits front).pins.find? (·.call = call) with
      | none => simpa only [step, hpin] using ⟨hexact, hstacked⟩
      | some pin => exact hexact.rollback hstacked hpin (h front call pin hfront hpin)

/-- Where the records in force come from: later calls have higher numbers, and the size that a
record has replaced was recorded by an earlier call. -/
structure Traced (s : Checkpoints) : Prop where
  calls : s.pins.Pairwise (·.call > ·.call)
  records : ∀ pin ∈ s.pins, ∃ later earlier,
    s.recorded = later ++ (pin.path, pin.bytes) :: earlier ∧ earlier.length = pin.call ∧
      ∀ bytes, pin.previous = some bytes → (pin.path, bytes) ∈ earlier

theorem recorded_suffix (front rest : List PinStep) :
    (run limits front).recorded <:+ (run limits (front ++ rest)).recorded := by
  induction rest using List.reverseRecOn with
  | nil => simp
  | append_singleton rest next ih =>
    rw [← List.append_assoc, run_concat]
    apply ih.trans
    cases next with
    | record path bytes =>
      rw [Checkpoints.step]
      split
      · exact List.suffix_rfl
      · exact List.suffix_cons _ _
    | rollback call =>
      rw [Checkpoints.step]
      split
      · exact List.suffix_rfl
      · exact List.suffix_rfl

theorem Traced.step (h : Traced s) (hexact : Exact limits s) (next : PinStep) :
    Traced (s.step limits next) := by
  cases next with
  | record path bytes =>
    rw [Checkpoints.step]
    cases s.accounting.record limits path bytes with
    | error => exact h
    | ok accounting =>
      refine ⟨List.pairwise_cons.mpr ⟨fun pin hpin => ?_, h.calls⟩, ?_⟩
      · obtain ⟨later, earlier, hrecorded, hcall, -⟩ := h.records pin hpin
        simp only [hrecorded, List.length_append, List.length_cons]
        omega
      · rw [List.forall_mem_cons]
        refine ⟨⟨[], s.recorded, rfl, rfl, fun found hfound => ?_⟩, fun pin hpin => ?_⟩
        · rw [hexact.sizes, sizeOf] at hfound
          obtain ⟨pin, hpin, rfl⟩ := Option.map_eq_some_iff.mp hfound
          obtain ⟨later, earlier, hrecorded, -⟩ := h.records pin (List.mem_of_find?_eq_some hpin)
          have hpath : pin.path = path := by simpa using List.find?_some hpin
          rw [hrecorded, ← hpath]
          exact List.mem_append_right _ List.mem_cons_self
        · obtain ⟨later, earlier, hrecorded, hrest⟩ := h.records pin hpin
          exact ⟨(path, bytes) :: later, earlier, by rw [hrecorded]; rfl, hrest⟩
  | rollback call =>
    rw [Checkpoints.step]
    split
    · exact h
    · exact ⟨h.calls.sublist List.eraseP_sublist,
        fun pin hpin => h.records pin (List.mem_of_mem_eraseP hpin)⟩

/-- With sizes that tell the records of a path apart, only the newest record of a path can be
taken back exactly. -/
theorem Traced.undoes (h : Traced s) (hexact : Exact limits s) (hnodup : s.recorded.Nodup)
    {pin : Pin} {call : Nat} (hpin : s.pins.find? (·.call = call) = some pin)
    (hnext : Exact limits (s.step limits (.rollback call))) : Undoes limits s pin := by
  obtain ⟨front, back, hpins, hnot, hstep⟩ := @rollback_eq limits s pin call hpin
  rw [hstep] at hnext
  have hnone : front.find? (·.path = pin.path) = none := by
    cases hfind : front.find? (·.path = pin.path) with
    | none => rfl
    | some newer =>
      -- the size of the newer record would be the one that `pin` has replaced
      have hpath : newer.path = pin.path := by simpa using List.find?_some hfind
      have hmem : newer ∈ front := List.mem_of_find?_eq_some hfind
      have hsize := hnext.sizes pin.path
      rw [CheckpointAccounting.get_rollback, if_pos rfl, sizeOf, List.find?_append, hfind] at hsize
      have hcalls := h.calls
      rw [hpins] at hcalls
      have hlater : newer.call > pin.call :=
        (List.pairwise_append.mp hcalls).2.2 newer hmem pin List.mem_cons_self
      obtain ⟨after, earlier, hrecorded, hcall, hprevious⟩ := h.records pin (by simp [hpins])
      obtain ⟨after', earlier', hrecorded', hcall', -⟩ := h.records newer (by simp [hpins, hmem])
      have hearlier : earlier <:+ earlier' := by
        apply List.suffix_of_suffix_length_le _ _ (by omega)
        · exact s.recorded
        · exact hrecorded ▸ (List.suffix_cons _ _).trans (List.suffix_append _ _)
        · exact hrecorded' ▸ (List.suffix_cons _ _).trans (List.suffix_append _ _)
      have hfresh := (hrecorded' ▸ hnodup).of_append_right
      rw [List.nodup_cons, hpath] at hfresh
      exact absurd (hearlier.subset (hprevious newer.bytes hsize)) hfresh.1
  have hnewest : s.pins.find? (·.path = pin.path) = some pin := by
    rw [hpins, List.find?_append, hnone]
    simp
  have hsize : (s.accounting.bytesByPath[pin.path]? : Option Nat) = some pin.bytes := by
    rw [hexact.sizes, sizeOf, hnewest]
    rfl
  have htotal := hexact.total
  rw [BTreeMap.sumBy_eq id _ pin.path, Option.map_id_fun, id_eq, hsize, Option.getD_some] at htotal
  have hnextTotal := hnext.total
  rw [CheckpointAccounting.sumBy_rollback] at hnextTotal
  have hbytes := hnext.bytes
  simp only [CheckpointAccounting.rollback] at hnextTotal hbytes
  refine ⟨hnewest, by omega, fun limit hlimit => ?_⟩
  have hle := hbytes limit hlimit
  omega

theorem traced_of_exact {steps : List PinStep} (h : ExactThroughout limits steps)
    (front : List PinStep) (hfront : front <+: steps) : Traced (run limits front) := by
  induction front using List.reverseRecOn with
  | nil => exact ⟨List.Pairwise.nil, by simp [run]⟩
  | append_singleton front next ih =>
    have hbefore := (List.prefix_append _ _).trans hfront
    rw [run_concat]
    exact (ih hbefore).step (h front hbefore) next

/-- The accounting stays exact in every run whose rollbacks each take back the newest record of
their path, with room for the size that is put back. Where the records of a path have different
sizes these are the only runs in which it does. -/
theorem exact_iff_rollbacks_newest (limits : RuntimeLimits) (steps : List PinStep) :
    (UndoesThroughout limits steps → ExactThroughout limits steps) ∧
      ((run limits steps).recorded.Nodup →
        (ExactThroughout limits steps ↔ UndoesThroughout limits steps)) := by
  have hsound : UndoesThroughout limits steps → ExactThroughout limits steps :=
    fun h front hfront => (exact_of_undoes h front hfront).1
  refine ⟨hsound, fun hnodup => ⟨fun h front call pin hfront hpin => ?_, hsound⟩⟩
  have hbefore := (List.prefix_append _ _).trans hfront
  obtain ⟨rest, rfl⟩ := hbefore
  have hnext := h _ hfront
  rw [run_concat] at hnext
  exact (traced_of_exact h front (List.prefix_append _ _)).undoes (h front (List.prefix_append _ _))
    (hnodup.sublist (recorded_suffix front rest).sublist) hpin hnext

/-- Two calls record one path and the first of them fails: its bytes stay counted, and the path
of the second call is gone. -/
theorem rollback_loses_later_record :
    let s := run {} [.record "out.txt" 10, .record "out.txt" 20, .rollback 0]
    s.accounting.totalBytes = 10 ∧ s.accounting.bytesByPath.sumBy id = 0 ∧
      sizeOf s.pins "out.txt" = some 20 := by
  decide

/-- The second of the two calls may fail. -/
theorem exact_iff_rollbacks_newest_second :
    ExactThroughout {} [.record "out.txt" 10, .record "out.txt" 20, .rollback 1] := by
  apply (exact_iff_rollbacks_newest {} _).1
  intro front call pin hfront hpin
  obtain ⟨rest, hrest⟩ := hfront
  rcases front with _ | ⟨_, _ | ⟨_, _ | ⟨_, front⟩⟩⟩
  · simp at hrest
  · simp at hrest
  · simp only [List.cons_append, List.nil_append, List.cons.injEq, PinStep.rollback.injEq] at hrest
    obtain ⟨rfl, rfl, rfl, -⟩ := hrest
    obtain rfl : (⟨1, "out.txt", 20, some 10⟩ : Pin) = pin := by
      apply Option.some.inj
      rw [← hpin]
      decide
    exact ⟨by decide, by decide, by simp⟩
  · simp at hrest

end Checkpoints

end Resume

end Qcg
