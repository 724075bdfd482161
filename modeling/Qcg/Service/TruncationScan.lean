import Qcg.Service.Truncation

/-!
# The backward scan and the probe

Where the scan for the cut ends and what the probe sees, for a journal of whole lines.
-/

namespace Qcg

open List

open LineFile

namespace TailApi

variable (api : TailApi)

theorem mem_of_cutAfter {lines : List (Nat × Bytes)} {cut : Nat}
    (h : api.cutAfter lines = some cut) :
    ∃ line ∈ lines, api.live line.2 = true ∧ cut = line.1 + line.2.length + 1 := by
  unfold cutAfter at h
  obtain ⟨line, hfind, hcut⟩ := Option.map_eq_some_iff.mp h
  have hlive := List.find?_some hfind
  exact ⟨line, by simpa using List.mem_of_find?_eq_some hfind, hlive, hcut.symm⟩

/-- A search from the end meets the lines after `line` first. -/
theorem cutAfter_append_cons (before : List (Nat × Bytes)) (line : Nat × Bytes)
    {after : List (Nat × Bytes)} (h : ∀ later ∈ after, api.live later.2 = false) :
    api.cutAfter (before ++ line :: after) =
      if api.live line.2 then some (line.1 + line.2.length + 1) else api.cutAfter before := by
  have hafter : after.reverse.find? (fun later => api.live later.2) = none := by
    rw [List.find?_eq_none]
    intro later hlater
    simp [h later (by simpa using hlater)]
  unfold cutAfter
  rw [reverse_append, reverse_cons, List.find?_append, List.find?_append, hafter]
  cases hlive : api.live line.2 <;> simp [hlive]

/-- Where the window after the one before `offset` ends: at the first content of a line that ends
in the window, or at its beginning. -/
def nextEnd (lines : List (Line newline)) (offset : Nat) : Nat :=
  firstShown (offset - window) offset lines

theorem resumeAt_encode (lines : List (Line newline)) (offset : Nat) :
    resumeAt (windowLines (encode lines) offset) (offset - window) = nextEnd lines offset :=
  firstShown_eq (offset - window) offset lines

/-- What the window shows of a line that ends in it is a blank or a cancellation, or ends the
file. -/
def Passable (lines : List (Line newline)) (offset : Nat) : Prop :=
  ∀ place ∈ placed 0 lines, offset - window ≤ place.1 + place.2.1.length →
    place.1 + place.2.1.length < offset →
      api.live (place.2.1.drop (offset - window - place.1)) = true →
        place.1 + place.2.1.length + 1 = (encode lines).length

theorem passable_iff (lines : List (Line newline)) (offset : Nat) :
    api.Passable lines offset ↔ ∀ line ∈ windowLines (encode lines) offset,
      api.live line.2 = true → line.1 + line.2.length + 1 = (encode lines).length := by
  constructor
  · intro h line hline hlive
    obtain ⟨place, hplace, hstart, hend, rfl⟩ := mem_pieces_iff.mp hline
    have hlast := h place hplace hstart hend hlive
    rw [← hlast, length_drop]
    omega
  · intro h place hplace hstart hend hlive
    have hlast := h _ (mem_pieces_iff.mpr ⟨place, hplace, hstart, hend, rfl⟩) hlive
    rw [← hlast, length_drop]
    omega

variable {bytes : Bytes} {offset cut : Nat}

theorem findCut_ok (h : api.cutAfter (windowLines bytes offset) = some cut)
    (hcut : cut ≠ bytes.length) :
    api.findCut bytes offset = .ok cut := by
  rw [findCut]
  simp [h, hcut]

theorem findCut_next
    (h : ∀ cut, api.cutAfter (windowLines bytes offset) = some cut → cut = bytes.length)
    (hstart : offset - window ≠ 0) :
    api.findCut bytes offset =
      api.findCut bytes (resumeAt (windowLines bytes offset) (offset - window)) := by
  have hcut : (api.cutAfter (windowLines bytes offset)).getD bytes.length = bytes.length := by
    cases hfound : api.cutAfter (windowLines bytes offset) with
    | none => rfl
    | some cut => exact h cut hfound
  have hresume := le_resumeAt bytes offset
  rw [findCut]
  simp only [hcut, ne_eq, not_true, if_false, if_neg hstart]
  rw [if_neg (by omega)]

theorem findCut_cases (h : api.findCut bytes offset = .ok cut) :
    api.cutAfter (windowLines bytes offset) = some cut ∨
      api.findCut bytes (resumeAt (windowLines bytes offset) (offset - window)) = .ok cut := by
  rw [findCut] at h
  split_ifs at h with hcut hstart hresume
  · left
    cases hfound : api.cutAfter (windowLines bytes offset) with
    | none => simp [hfound] at hcut
    | some found => simpa [hfound] using h
  · exact Or.inr h

theorem findCut_spec (h : api.findCut bytes offset = .ok cut) :
    cut ≤ offset ∧ cut ≠ bytes.length ∧ ∃ before line,
      bytes.take cut = before ++ line ++ [newline] ∧ line ≠ [] ∧ newline ∉ line := by
  induction offset using Nat.strong_induction_on generalizing cut with
  | _ offset ih =>
    rw [findCut] at h
    split_ifs at h with hcut hstart hresume
    · cases hfound : api.cutAfter (windowLines bytes offset) with
      | none => simp [hfound] at hcut
      | some found =>
        simp only [hfound, Option.getD_some, Except.ok.injEq] at h hcut
        subst found
        obtain ⟨line, hline, hlive, hat⟩ := api.mem_of_cutAfter hfound
        obtain ⟨hfree, before, htake⟩ := take_piece_end hline
        have hends := windowLines_le hline
        refine ⟨by omega, hcut, before, line.2, by rw [hat, htake], ?_, hfree⟩
        intro hnil
        simp [live, hnil] at hlive
    · obtain ⟨hle, hne, hline⟩ := ih _ (resumeAt_lt hstart) h
      have hlt : resumeAt (windowLines bytes offset) (offset - window) < offset :=
        resumeAt_lt hstart
      exact ⟨by omega, hne, hline⟩

/-- The windows lead from `offset` back to the line `last`, which begins at `begins`: the last of
them shows the end of `last`, and what it shows must not itself read as a cancellation. -/
inductive Walks (lines : List (Line newline)) (begins : Nat) (last : Bytes) : Nat → Prop
  | shown {offset : Nat} (hstart : offset - window < begins + last.length)
      (hend : begins + last.length < offset)
      (hlive : api.live (last.drop (offset - window - begins)) = true) :
      Walks lines begins last offset
  | passed {offset : Nat} (hstart : begins + last.length ≤ offset - window)
      (hpassable : api.Passable lines offset)
      (hnext : Walks lines begins last (nextEnd lines offset)) :
      Walks lines begins last offset

theorem resumeAt_append_cons_le {before after : List (Nat × Bytes)} {line : Nat × Bytes}
    (hline : line.2 ≠ []) (h : ∀ earlier ∈ before, earlier.1 ≤ line.1) (start : Nat) :
    resumeAt (before ++ line :: after) start ≤ line.1 := by
  unfold resumeAt
  rw [List.find?_append]
  cases hfind : before.find? fun earlier => !earlier.2.isEmpty with
  | none => simp [hline]
  | some earlier => simpa using h earlier (List.mem_of_find?_eq_some hfind)

section Scan

variable {front block : List (Line newline)} {last : Line newline}

/-- In a window that shows the end of `last`, the scan stops there or goes past it. -/
theorem findCut_shown (hlast : last.1 ≠ []) (hblock : ∀ line ∈ block, api.live line.1 = false)
    (hne : block ≠ []) (hstart : offset - window < (encode front).length + last.1.length)
    (hend : (encode front).length + last.1.length < offset) :
    api.findCut (encode (front ++ last :: block)) offset =
        .ok ((encode front).length + last.1.length + 1) ↔
      api.live (last.1.drop (offset - window - (encode front).length)) = true := by
  have hlength : (encode front).length + last.1.length + 1 <
      (encode (front ++ last :: block)).length := by
    have hle := length_le_length_encode block
    have hpos := length_pos_of_ne_nil hne
    simp
    omega
  obtain ⟨before, after, hlines, hbefore, hafter⟩ :
      ∃ before after, windowLines (encode (front ++ last :: block)) offset = _ ∧ _ ∧ _ :=
    pieces_window_shown hstart (by omega)
  have hdead : ∀ line ∈ after, api.live line.2 = false := by
    intro line hline
    obtain ⟨whole, hwhole, heq⟩ := hafter line hline
    rw [heq, hblock whole hwhole]
  have hcut := api.cutAfter_append_cons before
    ((encode front).length + (offset - window - (encode front).length),
      last.1.drop (offset - window - (encode front).length)) hdead
  rw [← hlines] at hcut
  constructor
  · intro hfound
    by_contra hlive
    rw [if_neg hlive] at hcut
    rcases api.findCut_cases hfound with hhere | hnext
    · -- an earlier line of the window ends before `last` does
      rw [hcut] at hhere
      obtain ⟨line, hline, -, hat⟩ := api.mem_of_cutAfter hhere
      have hends := hbefore line hline
      omega
    · have hle := (api.findCut_spec hnext).1
      have hresume : resumeAt (windowLines (encode (front ++ last :: block)) offset)
          (offset - window) ≤ (encode front).length +
            (offset - window - (encode front).length) := by
        rw [hlines]
        apply resumeAt_append_cons_le
        · intro hnil
          have hzero : (last.1.drop (offset - window - (encode front).length)).length = 0 :=
            congrArg List.length hnil
          have hpos := length_pos_of_ne_nil hlast
          rw [length_drop] at hzero
          omega
        · intro earlier hearlier
          have hends := hbefore earlier hearlier
          dsimp only
          omega
      omega
  · intro hlive
    rw [if_pos hlive] at hcut
    have hat : (encode front).length + (offset - window - (encode front).length) +
        (last.1.drop (offset - window - (encode front).length)).length + 1 =
          (encode front).length + last.1.length + 1 := by
      simp
      omega
    rw [hat] at hcut
    exact api.findCut_ok hcut (by omega)

/-- In a window behind `last`, the scan goes on to the next one unless it meets a torn line. -/
theorem findCut_behind (hlast : last.1 ≠ []) (hblock : ∀ line ∈ block, api.live line.1 = false)
    (hstart : (encode front).length + last.1.length ≤ offset - window)
    (hoffset : offset ≤ (encode (front ++ last :: block)).length) :
    api.findCut (encode (front ++ last :: block)) offset =
        .ok ((encode front).length + last.1.length + 1) ↔
      api.Passable (front ++ last :: block) offset ∧
      api.findCut (encode (front ++ last :: block)) (nextEnd (front ++ last :: block) offset) =
        .ok ((encode front).length + last.1.length + 1) := by
  have hwindow := window_eq
  have hpos := length_pos_of_ne_nil hlast
  have hlines : windowLines (encode (front ++ last :: block)) offset = [] ∨
      ∃ torn after,
        windowLines (encode (front ++ last :: block)) offset = (offset - window, torn) :: after ∧
        ((encode front).length + last.1.length = offset - window → torn = []) ∧
        ∀ line ∈ after, ∃ whole ∈ block, line.2 = whole.1 :=
    pieces_window_behind hstart (by omega)
  -- only the first line of the window can give a cut
  have hfirst : ∀ line ∈ windowLines (encode (front ++ last :: block)) offset,
      api.live line.2 = true →
        api.cutAfter (windowLines (encode (front ++ last :: block)) offset) =
          some (line.1 + line.2.length + 1) := by
    intro line hline hlive
    rcases hlines with hnone | ⟨torn, after, hlines, -, hafter⟩
    · rw [hnone] at hline
      cases hline
    · have hdead : ∀ line ∈ after, api.live line.2 = false := by
        intro line hline
        obtain ⟨whole, hwhole, heq⟩ := hafter line hline
        rw [heq, hblock whole hwhole]
      rw [hlines] at hline ⊢
      rcases mem_cons.mp hline with rfl | hline
      · rw [← nil_append (_ :: after), api.cutAfter_append_cons [] _ hdead, if_pos hlive]
      · rw [hdead line hline] at hlive
        cases hlive
  have hgoes (hpassable : api.Passable (front ++ last :: block) offset) :
      api.findCut (encode (front ++ last :: block)) offset =
        api.findCut (encode (front ++ last :: block))
          (nextEnd (front ++ last :: block) offset) := by
    rw [← resumeAt_encode]
    apply api.findCut_next _ (by omega)
    intro cut hcut
    obtain ⟨line, hline, hlive, rfl⟩ := api.mem_of_cutAfter hcut
    exact (api.passable_iff _ _).mp hpassable line hline hlive
  constructor
  · intro hfound
    have hpassable : api.Passable (front ++ last :: block) offset := by
      rw [passable_iff]
      intro line hline hlive
      by_contra hends
      have hhere := api.findCut_ok (hfirst line hline hlive) hends
      rw [hfound, Except.ok.injEq] at hhere
      have hle := (windowLines_le hline).1
      have hnil : line.2 ≠ [] := by
        intro hnil
        simp [live, hnil] at hlive
      have hpos' := length_pos_of_ne_nil hnil
      omega
    exact ⟨hpassable, hgoes hpassable ▸ hfound⟩
  · rintro ⟨hpassable, hnext⟩
    rw [hgoes hpassable, hnext]

/-- The scan finds the end of `last` exactly when its windows lead there. -/
theorem findCut_eq_ok_iff (hlast : last.1 ≠ []) (hblock : ∀ line ∈ block, api.live line.1 = false)
    (hne : block ≠ []) (hoffset : offset ≤ (encode (front ++ last :: block)).length) :
    api.findCut (encode (front ++ last :: block)) offset =
        .ok ((encode front).length + last.1.length + 1) ↔
      api.Walks (front ++ last :: block) (encode front).length last.1 offset := by
  have hwindow := window_eq
  have hpos := length_pos_of_ne_nil hlast
  induction offset using Nat.strong_induction_on with
  | _ offset ih =>
    by_cases hstart : (encode front).length + last.1.length ≤ offset - window
    · rw [api.findCut_behind hlast hblock hstart hoffset]
      have hlt : nextEnd (front ++ last :: block) offset < offset := by
        rw [← resumeAt_encode]
        exact resumeAt_lt (by omega)
      have hnext := ih _ hlt (by omega)
      constructor
      · rintro ⟨hpassable, hfound⟩
        exact .passed hstart hpassable (hnext.mp hfound)
      · intro hwalks
        cases hwalks with
        | shown hshown => omega
        | passed _ hpassable hwalks => exact ⟨hpassable, hnext.mpr hwalks⟩
    · by_cases hend : (encode front).length + last.1.length < offset
      · rw [api.findCut_shown hlast hblock hne (by omega) hend]
        constructor
        · intro hlive
          exact .shown (by omega) hend hlive
        · intro hwalks
          cases hwalks with
          | shown _ _ hlive => exact hlive
          | passed hpassed => exact absurd hpassed hstart
      · -- the end of `last` is out of reach from here
        constructor
        · intro hfound
          have hle := (api.findCut_spec hfound).1
          omega
        · intro hwalks
          cases hwalks with
          | shown _ hshown => exact absurd hshown hend
          | passed hpassed => exact absurd hpassed hstart

end Scan

theorem probe_true (lines : List Bytes) : api.probe true lines = true := by
  induction lines with
  | nil => rfl
  | cons line lines ih => simp [probe, ih]

variable {blanks : List Bytes}

theorem probe_append_cons {lines : List Bytes} {line : Bytes}
    (hblanks : ∀ blank ∈ blanks, blank = []) (hline : line ≠ []) :
    api.probe false (blanks ++ line :: lines) = api.isCanceled line := by
  induction blanks with
  | nil =>
    cases hcanceled : api.isCanceled line <;> simp [probe, hline, hcanceled, api.probe_true]
  | cons blank blanks ih =>
    rw [cons_append, hblanks blank (by simp), probe]
    exact ih fun later hlater => hblanks later (by simp [hlater])

theorem probe_blanks (h : ∀ blank ∈ blanks, blank = []) : api.probe false blanks = false := by
  induction blanks with
  | nil => rfl
  | cons blank blanks ih =>
    rw [h blank (by simp), probe]
    exact ih fun later hlater => h later (by simp [hlater])

theorem afterNewline_append {torn : Bytes} (h : newline ∉ torn) (rest : Bytes) :
    afterNewline (torn ++ newline :: rest) = rest := by
  have hfind : (torn ++ newline :: rest).findIdx? (· == newline) = some torn.length := by
    rw [List.findIdx?_append]
    have hnone : torn.findIdx? (· == newline) = none := by
      rw [List.findIdx?_eq_none_iff]
      intro byte hbyte
      rw [beq_eq_false_iff_ne]
      rintro rfl
      exact h hbyte
    simp [hnone, List.findIdx?_cons]
  rw [afterNewline, hfind]
  simp

/-- What the probe makes of whole lines: if it holds the file, all of them count, else those
after the one it tears. -/
theorem needsRewrite_encode {lines : List (Line newline)} (hne : lines ≠ []) :
    (encode lines).length ≤ window ∧
        api.needsRewrite (encode lines) = api.probe false (lines.map (·.1)).reverse ∨
      window < (encode lines).length ∧ ∃ front line rest, lines = front ++ line :: rest ∧
        (encode rest).length < window ∧ window ≤ (encode (line :: rest)).length ∧
        api.needsRewrite (encode lines) =
          (rest.isEmpty || api.probe false (rest.map (·.1)).reverse) := by
  have hskip (rest : List (Line newline)) :
      api.probe false (((encode rest).splitOn newline).reverse) =
        api.probe false (rest.map (·.1)).reverse := by
    simp [splitOn_encode, probe]
  rcases Nat.lt_or_ge window (encode lines).length with hlt | hle
  · right
    have hstart : (encode lines).length - window < (encode lines).length := by
      have := window_eq
      omega
    obtain ⟨front, line, rest, hlines, hfront, hline, hdrop⟩ := drop_encode hstart
    have hlength : (encode lines).length =
        (encode front).length + (line.1.length + 1 + (encode rest).length) := by
      rw [hlines]
      simp
      omega
    refine ⟨hlt, front, line, rest, hlines, by omega, by simp; omega, ?_⟩
    have hbuf : ((encode lines).drop ((encode lines).length - window)).take window =
        line.1.drop ((encode lines).length - window - (encode front).length) ++
          newline :: encode rest := by
      rw [take_of_length_le (by simp; omega), hdrop]
    have hends : (line.1.drop ((encode lines).length - window - (encode front).length) ++
        newline :: encode rest).getLast? = some newline := by
      rw [← hdrop, List.getLast?_drop, if_neg (by omega), getLast?_encode hne]
    have hslice := afterNewline_append (fun hmem => line.2 (mem_of_mem_drop hmem) :
      newline ∉ line.1.drop ((encode lines).length - window - (encode front).length)) (encode rest)
    have hpos : (encode lines).length - window > 0 := by omega
    simp only [needsRewrite, hbuf, hends, hpos, hslice, if_true, decide_true, Bool.and_true, hskip]
    cases rest with
    | nil => simp
    | cons next rest => simp
  · left
    refine ⟨hle, ?_⟩
    have hzero : (encode lines).length - window = 0 := by omega
    have hbuf : (encode lines).take window = encode lines := take_of_length_le hle
    rw [← hskip]
    simp [needsRewrite, hzero, hbuf, getLast?_encode hne]

theorem needsRewrite_blanks {blanks : List (Line newline)} (hne : blanks ≠ [])
    (h : ∀ blank ∈ blanks, blank.1 = []) : api.needsRewrite (encode blanks) = false := by
  have hprobe (rest : List (Line newline)) (hrest : ∀ blank ∈ rest, blank.1 = []) :
      api.probe false (rest.map (·.1)).reverse = false := by
    apply api.probe_blanks
    intro blank hblank
    obtain ⟨line, hline, rfl⟩ := mem_map.mp (mem_reverse.mp hblank)
    exact hrest line hline
  rcases api.needsRewrite_encode hne with ⟨-, heq⟩ | ⟨-, front, line, rest, hlines, -, hlong, heq⟩
  · rw [heq, hprobe blanks h]
  · have hrest : ∀ blank ∈ rest, blank.1 = [] := by
      intro blank hblank
      exact h blank (by simp [hlines, hblank])
    rw [heq, hprobe rest hrest]
    cases rest with
    | nil =>
      have hline := h line (by simp [hlines])
      have := window_eq
      simp [hline] at hlong
      omega
    | cons next rest => rfl

/-- `entry` is the last line with some content. The probe misses it if blank lines follow and
the line is not inside the probe with them. A file whose last line fills the probe alone is
left to the scan. -/
theorem needsRewrite_iff {front blanks : List (Line newline)} {entry : Line newline}
    (hentry : entry.1 ≠ []) (hblanks : ∀ blank ∈ blanks, blank.1 = []) :
    api.needsRewrite (encode (front ++ entry :: blanks)) = true ↔
      api.isCanceled entry.1 = true ∧ ((encode (front ++ entry :: blanks)).length ≤ window ∨
          (encode (entry :: blanks)).length < window) ∨
        window < (encode (front ++ entry :: blanks)).length ∧ blanks = [] ∧
          window ≤ entry.1.length + 1 := by
  have hprobe (before : List (Line newline)) :
      api.probe false ((before ++ entry :: blanks).map (·.1)).reverse = api.isCanceled entry.1 := by
    rw [map_append, map_cons, reverse_append, reverse_cons, append_assoc]
    apply api.probe_append_cons _ hentry
    intro blank hblank
    obtain ⟨line, hline, rfl⟩ := mem_map.mp (mem_reverse.mp hblank)
    exact hblanks line hline
  have hne : front ++ entry :: blanks ≠ [] := by simp
  rcases api.needsRewrite_encode hne with
    ⟨hle, heq⟩ | ⟨hlt, before, line, rest, hlines, hshort, hlong, heq⟩
  · rw [heq, hprobe]
    constructor
    · intro hcanceled
      exact Or.inl ⟨hcanceled, Or.inl hle⟩
    · rintro (⟨hcanceled, -⟩ | ⟨hlt, -⟩)
      · exact hcanceled
      · omega
  · rw [heq]
    have hentries : entry :: blanks <:+ front ++ entry :: blanks := suffix_append _ _
    have hrests : line :: rest <:+ front ++ entry :: blanks := by
      rw [hlines]
      exact suffix_append _ _
    have hhidden (h : line :: rest <:+ entry :: blanks) :
        (rest.isEmpty || api.probe false (rest.map (·.1)).reverse) = true ↔
          api.isCanceled entry.1 = true ∧ ((encode (front ++ entry :: blanks)).length ≤ window ∨
              (encode (entry :: blanks)).length < window) ∨
            window < (encode (front ++ entry :: blanks)).length ∧ blanks = [] ∧
              window ≤ entry.1.length + 1 := by
      have hsize : window ≤ (encode (entry :: blanks)).length := by
        obtain ⟨pre, hpre⟩ := h
        rw [← hpre, encode_append, length_append]
        omega
      have hblank : ∀ blank ∈ rest, blank ∈ blanks := by
        rcases suffix_cons_iff.mp h with hsame | hlater
        · obtain ⟨rfl, rfl⟩ := List.cons.inj hsame
          exact fun blank hblank => hblank
        · exact fun blank hblank => hlater.subset (by simp [hblank])
      have hquiet : api.probe false (rest.map (·.1)).reverse = false := by
        apply api.probe_blanks
        intro blank hmem
        obtain ⟨later, hlater, rfl⟩ := mem_map.mp (mem_reverse.mp hmem)
        exact hblanks later (hblank later hlater)
      rw [hquiet, Bool.or_false, List.isEmpty_iff]
      constructor
      · rintro rfl
        right
        rcases suffix_cons_iff.mp h with hsame | hlater
        · obtain ⟨rfl, rfl⟩ := List.cons.inj hsame
          exact ⟨hlt, rfl, by simpa using hsize⟩
        · have hline := hblanks line (hlater.subset (by simp))
          have := window_eq
          simp [hline] at hlong
          omega
      · rintro (⟨-, hle | hsmall⟩ | ⟨-, rfl, -⟩)
        · omega
        · omega
        · exact eq_nil_iff_forall_not_mem.mpr fun blank hmem => by simpa using hblank blank hmem
    rcases suffix_or_suffix_of_suffix hentries hrests with hinside | houtside
    · rcases suffix_cons_iff.mp hinside with hsame | ⟨between, rfl⟩
      · exact hhidden (hsame ▸ suffix_rfl)
      · have hsmall : (encode (entry :: blanks)).length < window := by
          rw [encode_append, length_append] at hshort
          omega
        rw [hprobe]
        constructor
        · intro hcanceled
          exact Or.inl ⟨by simpa using hcanceled, Or.inr hsmall⟩
        · rintro (⟨hcanceled, -⟩ | ⟨-, rfl, hlast⟩)
          · simp [hcanceled]
          · simp at hsmall
            omega
    · exact hhidden houtside

end TailApi

end Qcg
