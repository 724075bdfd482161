import Qcg.Library.BTree

/-!
# Collected artifacts

The files that a glob names are found by a table over the ends of the pattern and of the path,
filled from the back; a path is collected once, and the bytes of all collected artifacts are
counted.
-/

namespace Qcg

namespace Artifact

def star : UInt8 := 42

def question : UInt8 := 63

def slash : UInt8 := 47

def maxArtifactGlobStates : Nat := 4 * 1024 * 1024

variable (pattern path : List UInt8)

/-- The entry of the table for the pattern from `p` on and the path from `c` on. -/
def cell (m : Nat → Nat → Bool) (p c : Nat) : Bool :=
  if pattern[p]? = some star then
    let recursive : Bool := pattern[p + 1]? = some star
    let next := p + if recursive then 2 else 1
    m next c || c < path.length && (recursive || path[c]? ≠ some slash) && m p (c + 1)
  else
    c < path.length &&
      (if pattern[p]? = some question then path[c]? ≠ some slash else pattern[p]? = path[c]?) &&
      m (p + 1) (c + 1)

/-- The row of `p`, from the column before `c` down. -/
def fillRow (p : Nat) : Nat → (Nat → Nat → Bool) → Nat → Nat → Bool
  | 0, m => m
  | c + 1, m =>
    let value := cell pattern path m p c
    fillRow p c fun i j => if i = p ∧ j = c then value else m i j

/-- The rows before `p`, from the last one down. -/
def fillRows : Nat → (Nat → Nat → Bool) → Nat → Nat → Bool
  | 0, m => m
  | p + 1, m => fillRows p (fillRow pattern path p (path.length + 1) m)

def globMatches : Except String Bool :=
  let states := (pattern.length + 1) * (path.length + 1)
  if 2 ^ 64 ≤ states then
    .error "artifact glob state count overflowed"
  else if maxArtifactGlobStates < states then
    .error ("artifact glob matching exceeds " ++ toString maxArtifactGlobStates ++ " states")
  else
    .ok (fillRows pattern path pattern.length
      (fun i j => i = pattern.length ∧ j = path.length) 0 0)

inductive Token where
  | recursive
  | star
  | question
  | byte (b : UInt8)

def tokens : List UInt8 → List Token
  | [] => []
  | [b] => [if b = star then .star else if b = question then .question else .byte b]
  | b :: b' :: rest =>
    if b = star then
      if b' = star then .recursive :: tokens rest else .star :: tokens (b' :: rest)
    else (if b = question then .question else .byte b) :: tokens (b' :: rest)

def Token.Accepts : Token → List UInt8 → Prop
  | .recursive, _ => True
  | .star, piece => slash ∉ piece
  | .question, piece => ∃ b, b ≠ slash ∧ piece = [b]
  | .byte b, piece => piece = [b]

/-- A concatenation of strings that the tokens accept in order. -/
def Denotes : List Token → List UInt8 → Prop
  | [], text => text = []
  | token :: rest, text =>
    ∃ piece back, text = piece ++ back ∧ token.Accepts piece ∧ Denotes rest back

theorem tokens_recursive (rest : List UInt8) :
    tokens (star :: star :: rest) = .recursive :: tokens rest := by
  simp [tokens]

theorem tokens_star {rest : List UInt8} (h : rest.head? ≠ some star) :
    tokens (star :: rest) = .star :: tokens rest := by
  cases rest with
  | nil => rfl
  | cons b rest => simp_all [tokens]

variable {b : UInt8}

theorem tokens_other {rest : List UInt8} (h : b ≠ star) :
    tokens (b :: rest) = (if b = question then .question else .byte b) :: tokens rest := by
  cases rest with
  | nil => simp [tokens, h]
  | cons => simp [tokens, h]

theorem denotes_many {token : Token} {ok : UInt8 → Prop}
    (h : ∀ piece, token.Accepts piece ↔ ∀ b ∈ piece, ok b) {rest : List Token} {text : List UInt8} :
    Denotes (token :: rest) text ↔ Denotes rest text ∨
      ∃ b back, text = b :: back ∧ ok b ∧ Denotes (token :: rest) back := by
  constructor
  · rintro ⟨piece, back, rfl, hpiece, hback⟩
    cases piece with
    | nil => exact .inl hback
    | cons b piece =>
      rw [h, List.forall_mem_cons] at hpiece
      exact .inr ⟨b, piece ++ back, rfl, hpiece.1, piece, back, rfl, (h piece).mpr hpiece.2, hback⟩
  · rintro (htext | ⟨b, _, rfl, hb, piece, back, rfl, hpiece, hback⟩)
    · exact ⟨[], text, rfl, (h []).mpr (by simp), htext⟩
    · refine ⟨b :: piece, back, rfl, (h _).mpr ?_, hback⟩
      exact List.forall_mem_cons.mpr ⟨hb, (h piece).mp hpiece⟩

theorem denotes_one {token : Token} {ok : UInt8 → Prop}
    (h : ∀ piece, token.Accepts piece ↔ ∃ b, ok b ∧ piece = [b]) {rest : List Token}
    {text : List UInt8} :
    Denotes (token :: rest) text ↔ ∃ b back, text = b :: back ∧ ok b ∧ Denotes rest back := by
  constructor
  · rintro ⟨piece, back, rfl, hpiece, hback⟩
    obtain ⟨b, hb, rfl⟩ := (h piece).mp hpiece
    exact ⟨b, back, rfl, hb, hback⟩
  · rintro ⟨b, back, rfl, hb, hback⟩
    exact ⟨[b], back, rfl, (h [b]).mpr ⟨b, hb, rfl⟩, hback⟩

/-- The entry that the table has for the rest of the pattern and the rest of the path. -/
def Right (m : Nat → Nat → Bool) (p c : Nat) : Prop :=
  m p c = true ↔ Denotes (tokens (pattern.drop p)) (path.drop c)

variable {pattern path} {m : Nat → Nat → Bool} {p c : Nat} {n : Nat}

theorem drop_eq_cons_iff {l back : List UInt8} :
    l.drop n = b :: back ↔ l[n]? = some b ∧ back = l.drop (n + 1) := by
  rw [← List.head?_drop, ← List.tail_drop]
  cases l.drop n with
  | nil => simp
  | cons => simp [eq_comm]

theorem advance_iff {ok : UInt8 → Prop} {rest : List Token} {test value : Bool}
    (htest : ∀ b, path[c]? = some b → (test = true ↔ ok b))
    (hvalue : c < path.length → (value = true ↔ Denotes rest (path.drop (c + 1)))) :
    (c < path.length && test && value) = true ↔
      ∃ b back, path.drop c = b :: back ∧ ok b ∧ Denotes rest back := by
  by_cases hc : c < path.length
  · have hb := List.getElem?_eq_getElem hc
    simp [drop_eq_cons_iff, hc, htest _ hb, hvalue hc]
  · simp [drop_eq_cons_iff, hc]

/-- An entry is right when the entries that it is computed from are. -/
theorem cell_right (hp : p < pattern.length) (hc : c ≤ path.length)
    (hrows : ∀ i j, p < i → i ≤ pattern.length → j ≤ path.length → Right pattern path m i j)
    (hrow : ∀ j, c < j → j ≤ path.length → Right pattern path m p j) :
    cell pattern path m p c = true ↔ Denotes (tokens (pattern.drop p)) (path.drop c) := by
  obtain ⟨x, hx⟩ : ∃ x, pattern[p]? = some x := ⟨_, List.getElem?_eq_getElem hp⟩
  have hpattern : pattern.drop p = x :: pattern.drop (p + 1) := drop_eq_cons_iff.mpr ⟨hx, rfl⟩
  by_cases hstar : x = star
  · subst hstar
    have hsame := fun hlt => hrow (c + 1) (Nat.lt_succ_self c) hlt
    by_cases hnext : pattern[p + 1]? = some star
    · have hskip := hrows (p + 2) c (by omega) (List.getElem?_eq_some_iff.mp hnext).1 hc
      have hpattern' := drop_eq_cons_iff.mpr ⟨hnext, rfl⟩
      rw [Right, hpattern, hpattern', tokens_recursive] at hsame
      rw [hpattern, hpattern', tokens_recursive,
        @denotes_many .recursive (fun _ => True) (by simp [Token.Accepts])]
      simp only [cell, hx, hnext, if_true, decide_true, Bool.or_eq_true]
      exact or_congr hskip (advance_iff (by simp) hsame)
    · have hskip := hrows (p + 1) c (by omega) hp hc
      have htokens := @tokens_star (pattern.drop (p + 1)) (by rwa [List.head?_drop])
      rw [Right, hpattern, htokens] at hsame
      rw [hpattern, htokens,
        @denotes_many .star (· ≠ slash) (by simp [Token.Accepts]; grind)]
      simp only [cell, hx, hnext, if_true, decide_false, Bool.false_eq_true, if_false,
        Bool.or_eq_true]
      exact or_congr hskip (advance_iff (by simp +contextual) hsame)
  · have hnext := fun hlt => hrows (p + 1) (c + 1) (by omega) hp hlt
    rw [hpattern, tokens_other hstar]
    simp only [cell, hx, Option.some.injEq, hstar, if_false]
    by_cases hquestion : x = question
    · simp only [hquestion, if_true]
      rw [@denotes_one .question (· ≠ slash) (by simp [Token.Accepts])]
      exact advance_iff (by simp +contextual) hnext
    · simp only [hquestion, if_false]
      rw [@denotes_one (.byte x) (· = x) (by simp [Token.Accepts])]
      exact advance_iff (fun b hb => by simp [hb, eq_comm]) hnext

theorem fillRow_right (hp : p < pattern.length) (hn : n ≤ path.length + 1)
    (hrows : ∀ i j, p < i → i ≤ pattern.length → j ≤ path.length → Right pattern path m i j)
    (hrow : ∀ j, n ≤ j → j ≤ path.length → Right pattern path m p j) :
    ∀ i j, p ≤ i → i ≤ pattern.length → j ≤ path.length →
      Right pattern path (fillRow pattern path p n m) i j := by
  induction n generalizing m with
  | zero =>
    intro i j hi hlen hj
    rcases hi.eq_or_lt with rfl | hi
    · exact hrow j (Nat.zero_le j) hj
    · exact hrows i j hi hlen hj
  | succ c ih =>
    have hcell := cell_right hp (by omega) hrows fun j hj => hrow j hj
    apply ih (by omega)
    · intro i j hi
      simpa [Right, hi.ne'] using hrows i j hi
    · intro j hj hlen
      rcases hj.eq_or_lt with rfl | hj
      · simpa [Right] using hcell
      · simpa [Right, hj.ne'] using hrow j hj hlen

theorem fillRows_right (hn : n ≤ pattern.length)
    (hrows : ∀ i j, n ≤ i → i ≤ pattern.length → j ≤ path.length → Right pattern path m i j) :
    ∀ i j, i ≤ pattern.length → j ≤ path.length →
      Right pattern path (fillRows pattern path n m) i j := by
  induction n generalizing m with
  | zero => exact fun i j => hrows i j (Nat.zero_le i)
  | succ p ih =>
    apply ih (by omega)
    exact fillRow_right hn le_rfl hrows fun j hj hlen => by omega

theorem globMatches_eq (h : (pattern.length + 1) * (path.length + 1) ≤ maxArtifactGlobStates) :
    ∃ found, globMatches pattern path = .ok found ∧
      (found = true ↔ Denotes (tokens pattern) path) := by
  have hfits : ¬2 ^ 64 ≤ (pattern.length + 1) * (path.length + 1) := by
    rw [maxArtifactGlobStates] at h
    omega
  rw [globMatches, if_neg hfits, if_neg (Nat.not_lt.mpr h)]
  refine ⟨_, rfl, ?_⟩
  apply fillRows_right le_rfl _ 0 0 (Nat.zero_le _) (Nat.zero_le _)
  intro i j hi hlen hj
  obtain rfl := Nat.le_antisymm hlen hi
  simp [Right, tokens, Denotes]
  omega

structure OutputArtifact where
  path : String
  bytes : Nat

structure OutputLimits where
  totalBytes : Option Nat := none
  artifactCount : Option Nat := none

structure Collected where
  artifacts : BTreeMap OutputArtifact := ∅
  totalBytes : Nat := 0

def insertArtifact (limits : OutputLimits) (collected : Collected) (artifact : OutputArtifact) :
    Except String Collected :=
  let previous := (collected.artifacts[artifact.path]? : Option OutputArtifact)
  let previousBytes := (previous.map (·.bytes)).getD 0
  let count := collected.artifacts.size + if previous.isSome then 0 else 1
  let total := collected.totalBytes - previousBytes + artifact.bytes
  if limits.artifactCount.any (· < count) then
    .error ("output artifact count exceeds " ++ toString (limits.artifactCount.getD 0))
  else if collected.totalBytes < previousBytes then
    .error "output byte accounting underflowed"
  else if 18446744073709551615 < total then
    .error "output byte accounting overflowed"
  else if limits.totalBytes.any (· < total) then
    .error ("output bytes exceed " ++ toString (limits.totalBytes.getD 0))
  else .ok ⟨collected.artifacts.insert artifact.path artifact, total⟩

/-- A glob finds the paths that its tokens denote. An accepted artifact stands under its path,
in the place of an older one, and the total stays that of the artifacts. -/
theorem globs_and_totals :
    (∀ pattern path : List UInt8,
      (pattern.length + 1) * (path.length + 1) ≤ maxArtifactGlobStates →
      ∃ found, globMatches pattern path = .ok found ∧
        (found = true ↔ Denotes (tokens pattern) path)) ∧
    ∀ limits artifact collected collected',
      insertArtifact limits collected artifact = .ok collected' →
        collected'.artifacts = collected.artifacts.insert artifact.path artifact ∧
          (collected.totalBytes = collected.artifacts.sumBy (·.bytes) →
            collected'.totalBytes = collected'.artifacts.sumBy (·.bytes)) := by
  refine ⟨fun pattern path => globMatches_eq, ?_⟩
  intro limits artifact collected collected' hinsert
  simp only [insertArtifact] at hinsert
  split_ifs at hinsert
  all_goals cases hinsert
  all_goals
    refine ⟨rfl, fun htotal => ?_⟩
    rw [BTreeMap.sumBy_eq _ _ artifact.path] at htotal
    simp only [BTreeMap.sumBy_insert, htotal]
    omega

def smallCollected : Collected where
  artifacts := (∅ : BTreeMap OutputArtifact).insert "p" ⟨"p", 3⟩
  totalBytes := 3

/-- A star stays within a directory, and a larger file takes the place of a smaller one. -/
theorem globs_and_totals_replaced :
    (∃ found, globMatches [97, slash, star] [97, slash, 98] = .ok found ∧
      (found = true ↔ Denotes [.byte 97, .byte slash, .star] [97, slash, 98])) ∧
    ∃ collected, insertArtifact {} smallCollected ⟨"p", 5⟩ = .ok collected ∧
      collected.artifacts = smallCollected.artifacts.insert "p" ⟨"p", 5⟩ ∧
      collected.totalBytes = collected.artifacts.sumBy (·.bytes) := by
  refine ⟨globs_and_totals.1 _ _ (by decide), ?_⟩
  have hinsert : insertArtifact {} smallCollected ⟨"p", 5⟩ =
      .ok ⟨smallCollected.artifacts.insert "p" ⟨"p", 5⟩, 5⟩ := by
    simp [insertArtifact, smallCollected]
  obtain ⟨hartifacts, htotal⟩ := globs_and_totals.2 _ _ _ _ hinsert
  exact ⟨_, hinsert, hartifacts, htotal (by decide +kernel)⟩

end Artifact

end Qcg
