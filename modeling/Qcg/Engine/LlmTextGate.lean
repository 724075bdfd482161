import Qcg.Library.Holdback

/-!
# The credential gate of streamed text

`SensitiveTextGate` stands between a provider's text deltas and their publication and keeps back
what could still begin the provider's own credential. Texts are lists of characters; lengths and
cuts are in bytes of UTF-8.
-/

namespace Qcg.Llm

open List

structure SensitiveTextGate where
  key : List Char := []
  holdback : Nat := 0
  unverified : List Char := []

namespace SensitiveTextGate

open Holdback

def new (key : Option (List Char)) : SensitiveTextGate :=
  match key.filter (!·.isEmpty) with
  | some key => { key, holdback := size Char.utf8Size key - 1 }
  | none => {}

def push (gate : SensitiveTextGate) (text : List Char) :
    Except Unit (List Char) × SensitiveTextGate :=
  if gate.key.isEmpty then (.ok text, gate)
  else
    let unverified := gate.unverified ++ text
    if gate.key <:+: unverified then (.error (), { gate with unverified })
    else
      let publishable := floorBoundary Char.utf8Size unverified
        (size Char.utf8Size unverified - gate.holdback)
      let cut := splitAt Char.utf8Size unverified publishable
      (.ok cut.1, { gate with unverified := cut.2 })

def finish (gate : SensitiveTextGate) : Except Unit (List Char) :=
  if gate.key.isEmpty then .ok []
  else if gate.key <:+: gate.unverified then .error ()
  else .ok gate.unverified

def pushAll (gate : SensitiveTextGate) : List (List Char) → Option (List Char × SensitiveTextGate)
  | [] => some ([], gate)
  | text :: texts =>
    match gate.push text with
    | (.error (), _) => none
    | (.ok out, gate) => (gate.pushAll texts).map fun rest => (out ++ rest.1, rest.2)

/-- The gate after pushes whose texts make up `released ++ gate.unverified`. -/
structure Guards (key released : List Char) (gate : SensitiveTextGate) : Prop where
  key_eq : gate.key = key
  holdback_eq : gate.holdback = size Char.utf8Size key - 1
  held : Held Char.utf8Size [key] gate.holdback released gate.unverified
  withheld : size Char.utf8Size gate.unverified ≤ size Char.utf8Size key + 2

section Key

variable {key released : List Char} {gate : SensitiveTextGate}

theorem guards_new (hkey : key ≠ []) : Guards key [] (new (some key)) := by
  have hnew : new (some key) = { key, holdback := size Char.utf8Size key - 1 } := by
    cases key with
    | nil => exact absurd rfl hkey
    | cons c key => rfl
  rw [hnew]
  exact ⟨rfl, rfl, Held.nil (by simpa using hkey), Nat.zero_le _⟩

theorem unverified_new : (new (some key)).unverified = [] := by
  cases key <;> rfl

theorem size_pos (hkey : key ≠ []) : 0 < size Char.utf8Size key := by
  cases key with
  | nil => exact absurd rfl hkey
  | cons c key =>
    rw [size_cons]
    exact Nat.add_pos_left c.utf8Size_pos _

theorem Guards.short (h : Guards key released gate) :
    ∀ word ∈ [key], size Char.utf8Size word ≤ gate.holdback + 1 := by
  intro word hword
  rw [mem_singleton.mp hword, h.holdback_eq]
  omega

/-- An occurrence of the credential that the arriving text completes lies in what is held back. -/
theorem Guards.infix_iff (h : Guards key released gate) (text : List Char) :
    key <:+: gate.unverified ++ text ↔ key <:+: released ++ (gate.unverified ++ text) :=
  h.held.infix_iff Char.utf8Size_pos h.short nil_suffix (by simp) text

theorem Guards.push (h : Guards key released gate) (hkey : key ≠ []) (text : List Char) :
    (key <:+: released ++ (gate.unverified ++ text) ∧ (gate.push text).1 = .error ()) ∨
      (¬ key <:+: released ++ (gate.unverified ++ text) ∧
        ∃ out next, gate.push text = (.ok out, next) ∧
          out ++ next.unverified = gate.unverified ++ text ∧
            Guards key (released ++ out) next) := by
  have hsome : gate.key.isEmpty = false := by
    rw [h.key_eq, isEmpty_eq_false_iff]
    exact hkey
  rw [SensitiveTextGate.push, hsome, ← h.infix_iff, h.key_eq]
  simp only [Bool.false_eq_true, if_false]
  by_cases hwithin : key <:+: gate.unverified ++ text
  · exact .inl ⟨hwithin, by rw [if_pos hwithin]⟩
  · rw [if_neg hwithin]
    refine .inr ⟨hwithin, ?_⟩
    have hclear : ∀ word ∈ [key], ¬ word <:+: released ++ (gate.unverified ++ text) := by
      intro word hword
      rw [mem_singleton.mp hword, ← h.infix_iff]
      exact hwithin
    generalize hcut : splitAt Char.utf8Size (gate.unverified ++ text) _ = cut
    obtain ⟨htext, hsize, hrest⟩ :=
      @splitAt_floorBoundary _ _ 3 Char.utf8Size_pos Char.utf8Size_le_four _ _ _ hcut
    refine ⟨cut.1, _, rfl, htext, rfl, h.holdback_eq, ?_, ?_⟩
    · exact (h.held.arrive hclear).publish htext hsize Char.utf8Size_pos
    · have hpos := size_pos hkey
      rw [h.holdback_eq] at hrest
      exact hrest.trans (by omega)

theorem Guards.pushAll (h : Guards key released gate) (hkey : key ≠ []) (texts : List (List Char)) :
    (key <:+: released ++ (gate.unverified ++ texts.flatten) ∧ gate.pushAll texts = none) ∨
      ∃ out next, gate.pushAll texts = some (out, next) ∧
        out ++ next.unverified = gate.unverified ++ texts.flatten ∧
          Guards key (released ++ out) next := by
  induction texts generalizing released gate with
  | nil =>
    refine .inr ⟨[], gate, rfl, ?_, ?_⟩
    · simp
    · rw [append_nil]
      exact h
  | cons text texts ih =>
    have hassoc : gate.unverified ++ (text :: texts).flatten =
        gate.unverified ++ text ++ texts.flatten := by
      rw [flatten_cons, append_assoc]
    rcases h.push hkey text with ⟨hwithin, herror⟩ | ⟨-, out, next, hpush, hout, hnext⟩
    · refine .inl ⟨?_, ?_⟩
      · rw [hassoc, ← append_assoc]
        exact hwithin.trans (prefix_append _ _).isInfix
      · rw [SensitiveTextGate.pushAll]
        split
        · rfl
        · next hok => rw [hok] at herror; cases herror
    · have hrest : released ++ (gate.unverified ++ (text :: texts).flatten) =
          released ++ out ++ (next.unverified ++ texts.flatten) := by
        rw [hassoc, ← hout]
        simp only [append_assoc]
      rw [SensitiveTextGate.pushAll, hpush, hrest, hassoc, ← hout]
      rcases ih hnext with ⟨hwithin, hnone⟩ | ⟨outs, last, hsome, houts, hlast⟩
      · exact .inl ⟨hwithin, by simp only [hnone, Option.map_none]⟩
      · refine .inr ⟨out ++ outs, last, by simp only [hsome, Option.map_some], ?_, ?_⟩
        · rw [append_assoc, houts, append_assoc]
        · rw [← append_assoc]
          exact hlast

end Key

/-- Released text holds no byte of the credential wherever it occurs, now or later; the push that
completes the credential is the one that fails; and without it the whole text comes out. -/
theorem releases_before_key (key : List Char) (hkey : key ≠ []) (texts : List (List Char)) :
    (∀ released gate, (new (some key)).pushAll texts = some (released, gate) →
      released <+: texts.flatten ∧
      (∀ rest before after, texts.flatten ++ rest = before ++ key ++ after → released <+: before) ∧
      size Char.utf8Size texts.flatten ≤
        size Char.utf8Size released + (size Char.utf8Size key + 2) ∧
      ∀ text, (gate.push text).1 = .error () ↔ key <:+: texts.flatten ++ text) ∧
    ((new (some key)).pushAll texts = none ↔ key <:+: texts.flatten) ∧
    (¬ key <:+: texts.flatten → ∃ released gate suffix,
      (new (some key)).pushAll texts = some (released, gate) ∧ gate.finish = .ok suffix ∧
        released ++ suffix = texts.flatten) := by
  have hrun := (guards_new hkey).pushAll hkey texts
  simp only [unverified_new, nil_append] at hrun
  rcases hrun with ⟨hwithin, hnone⟩ | ⟨out, next, hsome, htext, hguards⟩
  · refine ⟨?_, iff_of_true hnone hwithin, fun hclear => absurd hwithin hclear⟩
    intro released gate h
    rw [hnone] at h
    cases h
  · have hclear : ¬ key <:+: texts.flatten := by
      rw [← htext]
      exact hguards.held.clear key mem_cons_self
    refine ⟨?_, iff_of_false (by simp [hsome]) hclear, fun _ => ?_⟩
    · intro released gate h
      obtain ⟨rfl, rfl⟩ : out = released ∧ next = gate := by simpa using hsome.symm.trans h
      refine ⟨⟨_, htext⟩, ?_, ?_, ?_⟩
      · intro rest before after heq
        rw [← htext] at heq
        exact hguards.held.prefix_of_occurrence Char.utf8Size_pos hguards.short
          mem_cons_self heq
      · have hwithheld := hguards.withheld
        rw [← htext, size_append]
        omega
      · intro text
        rw [← htext, append_assoc]
        rcases hguards.push hkey text with ⟨hwithin, herror⟩ | ⟨hnot, _, _, hpush, -, -⟩
        · exact iff_of_true herror hwithin
        · exact iff_of_false (by simp [hpush]) hnot
    · refine ⟨out, next, next.unverified, hsome, ?_, htext⟩
      have hsuffix : ¬ next.key <:+: next.unverified := by
        rw [hguards.key_eq]
        intro hwithin
        exact hclear (htext ▸ hwithin.trans (suffix_append out _).isInfix)
      rw [finish, if_neg hsuffix, hguards.key_eq, if_neg (by simpa using hkey)]

theorem releases_before_key_overlap : ['a', 'b', 'a'] ≠ [] ∧ ∃ released gate suffix,
    (new (some ['a', 'b', 'a'])).pushAll [['x', 'a', 'b'], ['é', 'a'], ['b']] =
      some (released, gate) ∧ gate.finish = .ok suffix ∧
        released ++ suffix = ['x', 'a', 'b', 'é', 'a', 'b'] :=
  ⟨by decide, (releases_before_key ['a', 'b', 'a'] (by decide)
    [['x', 'a', 'b'], ['é', 'a'], ['b']]).2.2 (by decide)⟩

end SensitiveTextGate

end Qcg.Llm
