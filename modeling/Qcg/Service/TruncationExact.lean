import Qcg.Service.TruncationScan

/-!
# What the truncation leaves

The journal with its trailing block of cancellations removed, and the journals for which the
truncation leaves exactly that.
-/

namespace Qcg

open List

open LineFile

namespace TailApi

variable (api : TailApi)

/-- The lines after the last one that is neither blank nor canceled. -/
def trailing (lines : List (Line newline)) : List (Line newline) :=
  lines.rtakeWhile fun line => !api.live line.1

def block (lines : List (Line newline)) : List (Line newline) :=
  (api.trailing lines).dropWhile fun line => line.1.isEmpty

def kept (lines : List (Line newline)) : List (Line newline) :=
  (lines.rdropWhile fun line => !api.live line.1) ++
    (api.trailing lines).takeWhile fun line => line.1.isEmpty

theorem kept_append_block (lines : List (Line newline)) :
    api.kept lines ++ api.block lines = lines := by
  rw [kept, block, append_assoc, takeWhile_append_dropWhile, trailing]
  exact rdropWhile_append_rtakeWhile

variable {lines : List (Line newline)}

theorem live_of_mem_block {line : Line newline} (h : line ∈ api.block lines) :
    api.live line.1 = false := by
  have hmem : line ∈ api.trailing lines := (dropWhile_suffix _).subset h
  simpa using mem_rtakeWhile_imp hmem

theorem block_eq_nil_iff {front blanks : List (Line newline)} {entry : Line newline}
    (hentry : entry.1 ≠ []) (hblanks : ∀ blank ∈ blanks, blank.1 = []) :
    api.block (front ++ entry :: blanks) = [] ↔ api.isCanceled entry.1 = false := by
  have hdead : ∀ blank ∈ blanks.reverse, (!api.live blank.1) = true := by
    intro blank hblank
    simp [live, hblanks blank (mem_reverse.mp hblank)]
  have htrailing : api.trailing (front ++ entry :: blanks) =
      (front ++ [entry]).rtakeWhile (fun line => !api.live line.1) ++ blanks := by
    have hreverse : (front ++ entry :: blanks).reverse =
        blanks.reverse ++ (front ++ [entry]).reverse := by simp
    rw [trailing, List.rtakeWhile, hreverse, takeWhile_append_of_pos hdead,
      reverse_append, reverse_reverse]
    rfl
  have hnil : api.block (front ++ entry :: blanks) = [] ↔
      ∀ line ∈ api.trailing (front ++ entry :: blanks), line.1 = [] := by
    simp [block, dropWhile_eq_nil_iff]
  rw [hnil, htrailing]
  cases hcanceled : api.isCanceled entry.1 with
  | false =>
    have hlive : ¬(!api.live entry.1) = true := by simp [live, hentry, hcanceled]
    rw [rtakeWhile_concat, if_neg hlive]
    simpa using hblanks
  | true =>
    have hlive : (!api.live entry.1) = true := by simp [live, hcanceled]
    rw [rtakeWhile_concat, if_pos hlive]
    simp only [Bool.true_eq_false, iff_false]
    intro hall
    exact hentry (hall entry (by simp))

theorem block_of_blanks (h : ∀ line ∈ lines, line.1 = []) :
    api.block lines = [] := by
  rw [block, dropWhile_eq_nil_iff]
  intro line hline
  simp [h line ((rtakeWhile_suffix _ _).subset hline)]

theorem blank_or_entry (lines : List (Line newline)) :
    (∀ line ∈ lines, line.1 = []) ∨ ∃ front entry blanks, lines = front ++ entry :: blanks ∧
      entry.1 ≠ [] ∧ ∀ blank ∈ blanks, blank.1 = [] := by
  induction lines using List.reverseRecOn with
  | nil => simp
  | append_singleton lines line ih =>
    by_cases hline : line.1 = []
    · rcases ih with hblank | ⟨front, entry, blanks, rfl, hentry, hblanks⟩
      · left
        intro other hother
        rcases mem_append.mp hother with hother | hother
        · exact hblank other hother
        · rwa [mem_singleton.mp hother]
      · right
        refine ⟨front, entry, blanks ++ [line], by simp, hentry, ?_⟩
        intro blank hblank
        rcases mem_append.mp hblank with hblank | hblank
        · exact hblanks blank hblank
        · rwa [mem_singleton.mp hblank]
    · exact Or.inr ⟨lines, line, [], rfl, hline, by simp⟩

/-- The call, for a journal of whole lines. -/
theorem truncate_encode (hne : lines ≠ []) :
    api.truncateTrailingCanceledEvents (encode lines) =
      if api.needsRewrite (encode lines) = true then
        match api.findCut (encode lines) (encode lines).length with
        | .error error => (encode lines, .error error)
        | .ok cut => ((encode lines).take cut,
            (api.refold ((encode lines).take cut)).map fun _ => true)
      else (encode lines, .ok false) := by
  have hlength : (encode lines).length ≠ 0 := by
    have hle := length_le_length_encode lines
    have hpos := length_pos_of_ne_nil hne
    omega
  have hrepair : api.repairTruncatedTailLocked (encode lines) = .ok (encode lines) := by
    simp [repairTruncatedTailLocked, getLast?_encode hne]
  rw [truncateTrailingCanceledEvents, if_neg hlength]
  cases hneeds : api.needsRewrite (encode lines) with
  | false => simp
  | true =>
    simp only [Bool.not_true, Bool.false_eq_true, if_false, if_true]
    rw [truncateToLastNonCanceled, hrepair]
    simp only [if_neg hlength, getLast?_encode hne, ne_eq, not_true, if_false]
    cases hfind : api.findCut (encode lines) (encode lines).length with
    | error error => rfl
    | ok cut =>
      have hcut := (api.findCut_spec hfind).2.1
      simp [hcut]

/-- The probe gets to see the last canceled line. -/
def Probed (lines : List (Line newline)) : Prop :=
  ∃ front entry blanks, lines = front ++ entry :: blanks ∧ entry.1 ≠ [] ∧
    (∀ blank ∈ blanks, blank.1 = []) ∧
    ((encode lines).length ≤ window ∨ blanks = [] ∨ (encode (entry :: blanks)).length < window)

/-- When the truncation does what it is for. A journal without a trailing block must not end
with a line that fills the probe, unless it fits the probe itself. Otherwise the probe must see
the block, a line with content must stand right before it, the windows must lead back to that
line, and what is left must fold. -/
def Exact (lines : List (Line newline)) : Prop :=
  if api.block lines = [] then
    (encode lines).length ≤ window ∨ ∀ last ∈ lines.getLast?, last.1.length + 1 < window
  else
    Probed lines ∧ ∃ front last, api.kept lines = front ++ [last] ∧ last.1 ≠ [] ∧
      api.Walks lines (encode front).length last.1 (encode lines).length ∧
      api.refold (encode (api.kept lines)) = .ok ()

theorem needsRewrite_eq_false_iff (hne : lines ≠ []) (hblock : api.block lines = []) :
    api.needsRewrite (encode lines) = false ↔
      (encode lines).length ≤ window ∨ ∀ last ∈ lines.getLast?, last.1.length + 1 < window := by
  have hwindow := window_eq
  rcases blank_or_entry lines with hblank | ⟨front, entry, blanks, rfl, hentry, hblanks⟩
  · rw [api.needsRewrite_blanks hne hblank]
    simp only [true_iff]
    right
    intro last hlast
    simp [hblank last (List.mem_of_getLast? hlast)]
    omega
  · have hcanceled := (api.block_eq_nil_iff hentry hblanks).mp hblock
    rw [← Bool.not_eq_true, api.needsRewrite_iff hentry hblanks, hcanceled]
    rcases eq_nil_or_concat' blanks with rfl | ⟨others, blank, rfl⟩
    · simp
      omega
    · have hlast := hblanks blank (by simp)
      have hget : (front ++ entry :: (others ++ [blank])).getLast? = some blank := by
        rw [← cons_append, ← append_assoc, List.getLast?_concat]
      have hshort : ∀ last ∈ (front ++ entry :: (others ++ [blank])).getLast?,
          last.1.length + 1 < window := by
        rw [hget]
        simp [hlast]
        omega
      apply iff_of_true _ (Or.inr hshort)
      simp

theorem needsRewrite_iff_probed (hblock : api.block lines ≠ []) :
    api.needsRewrite (encode lines) = true ↔ Probed lines := by
  have hprobed {front blanks : List (Line newline)} {entry : Line newline}
      (hentry : entry.1 ≠ []) (hblanks : ∀ blank ∈ blanks, blank.1 = [])
      (hblock : api.block (front ++ entry :: blanks) ≠ []) :
      api.needsRewrite (encode (front ++ entry :: blanks)) = true ↔
        (encode (front ++ entry :: blanks)).length ≤ window ∨ blanks = [] ∨
          (encode (entry :: blanks)).length < window := by
    have hcanceled : api.isCanceled entry.1 = true := by
      rw [← Bool.not_eq_false]
      exact fun hlive => hblock ((api.block_eq_nil_iff hentry hblanks).mpr hlive)
    rw [api.needsRewrite_iff hentry hblanks, hcanceled]
    cases blanks with
    | nil =>
      simp
      omega
    | cons blank blanks => simp
  constructor
  · intro hneeds
    rcases blank_or_entry lines with hblank | ⟨front, entry, blanks, rfl, hentry, hblanks⟩
    · exact absurd (api.block_of_blanks hblank) hblock
    · exact ⟨front, entry, blanks, rfl, hentry, hblanks, (hprobed hentry hblanks hblock).mp hneeds⟩
  · rintro ⟨front, entry, blanks, rfl, hentry, hblanks, hseen⟩
    exact (hprobed hentry hblanks hblock).mpr hseen

theorem findCut_kept_iff (hblock : api.block lines ≠ []) :
    api.findCut (encode lines) (encode lines).length = .ok (encode (api.kept lines)).length ↔
      ∃ front last, api.kept lines = front ++ [last] ∧ last.1 ≠ [] ∧
        api.Walks lines (encode front).length last.1 (encode lines).length := by
  have hwalks {front : List (Line newline)} {last : Line newline} (hlast : last.1 ≠ [])
      (hkept : api.kept lines = front ++ [last]) :
      api.findCut (encode lines) (encode lines).length = .ok (encode (api.kept lines)).length ↔
        api.Walks lines (encode front).length last.1 (encode lines).length := by
    have hlines : lines = front ++ last :: api.block lines := by
      rw [← singleton_append, ← append_assoc, ← hkept, api.kept_append_block]
    have hsize : (encode (api.kept lines)).length =
        (encode front).length + last.1.length + 1 := by
      rw [hkept]
      simp
      omega
    have hdead : ∀ line ∈ api.block lines, api.live line.1 = false :=
      fun line hline => api.live_of_mem_block hline
    have hiff := api.findCut_eq_ok_iff hlast hdead hblock
      (Nat.le_refl (encode (front ++ last :: api.block lines)).length)
    rw [hsize]
    rw [← hlines] at hiff
    exact hiff
  constructor
  · intro hfound
    obtain ⟨hle, -, before, line, htake, hline, hfree⟩ := api.findCut_spec hfound
    have hbytes : encode (api.kept lines) = before ++ line ++ [newline] := by
      have hsplit : encode lines = encode (api.kept lines) ++ encode (api.block lines) := by
        rw [← encode_append, api.kept_append_block]
      rw [← htake, hsplit, take_left]
    -- the cut comes after some content, so the last line that is kept has some
    rcases eq_nil_or_concat' (api.kept lines) with hnil | ⟨front, last, hkept⟩
    · simp [hnil] at hbytes
    · have hlast : last.1 ≠ [] := by
        intro hblank
        rw [hkept] at hbytes
        simp only [encode_append, encode_cons, encode_nil, hblank, nil_append] at hbytes
        have hfront : encode front = before ++ line := append_cancel_right hbytes
        rcases eq_nil_or_concat' line with rfl | ⟨body, byte, rfl⟩
        · exact hline rfl
        · have hends := congrArg List.getLast? hfront
          rw [← append_assoc, List.getLast?_concat] at hends
          have hne : front ≠ [] := by
            rintro rfl
            simp at hends
          rw [getLast?_encode hne, Option.some.injEq] at hends
          exact hfree (by simp [hends])
      exact ⟨front, last, hkept, hlast, (hwalks hlast hkept).mp hfound⟩
  · rintro ⟨front, last, hkept, hlast, h⟩
    exact (hwalks hlast hkept).mpr h

/-- What the scan leaves, and that the rest folds. -/
theorem cut_eq_iff :
    (match api.findCut (encode lines) (encode lines).length with
      | .error error => (encode lines, .error error)
      | .ok cut => ((encode lines).take cut,
          (api.refold ((encode lines).take cut)).map fun _ => true)) =
        (encode (api.kept lines), (.ok true : Except String Bool)) ↔
      api.findCut (encode lines) (encode lines).length = .ok (encode (api.kept lines)).length ∧
        api.refold (encode (api.kept lines)) = .ok () := by
  have htake : (encode lines).take (encode (api.kept lines)).length = encode (api.kept lines) := by
    have hsplit : encode lines = encode (api.kept lines) ++ encode (api.block lines) := by
      rw [← encode_append, api.kept_append_block]
    rw [hsplit, take_left]
  constructor
  · intro h
    cases hfind : api.findCut (encode lines) (encode lines).length with
    | error error => simp [hfind] at h
    | ok cut =>
      simp only [hfind, Prod.mk.injEq] at h
      have hcut : cut = (encode (api.kept lines)).length := by
        have hle := (api.findCut_spec hfind).1
        rw [← h.1, length_take, Nat.min_eq_left hle]
      rw [h.1] at h
      cases hfold : api.refold (encode (api.kept lines)) with
      | error error => simp [hfold, Except.map] at h
      | ok _ => exact ⟨by rw [hcut], rfl⟩
  · rintro ⟨hfind, hfold⟩
    simp [hfind, htake, hfold, Except.map]

theorem truncateTrailingCanceledEvents_exact_iff (lines : List (Line newline)) :
    api.truncateTrailingCanceledEvents (encode lines) =
        (encode (api.kept lines), .ok (!(api.block lines).isEmpty)) ↔
      api.Exact lines := by
  have hlines := api.kept_append_block lines
  rcases eq_nil_or_concat' lines with rfl | ⟨others, final, hfinal⟩
  · obtain ⟨hkept, hblock⟩ := append_eq_nil_iff.mp hlines
    simp [Exact, hkept, hblock, truncateTrailingCanceledEvents]
  have hne : lines ≠ [] := by simp [hfinal]
  rw [api.truncate_encode hne, Exact]
  split_ifs with hneeds hblock hblock
  · -- nothing to remove, but the scan runs: its answer is never that it removed nothing
    rw [hblock, append_nil] at hlines
    have hprobe := api.needsRewrite_eq_false_iff hne hblock
    rw [← hprobe, hneeds, hblock, hlines]
    cases api.findCut (encode lines) (encode lines).length with
    | error error => simp
    | ok cut =>
      cases hfold : api.refold ((encode lines).take cut) <;> simp [hfold, Except.map]
  · have hprobed := (api.needsRewrite_iff_probed hblock).mp hneeds
    have hsome : (!(api.block lines).isEmpty) = true := by simpa using hblock
    rw [hsome, api.cut_eq_iff, api.findCut_kept_iff hblock]
    constructor
    · rintro ⟨⟨front, last, hkept, hlast, hwalks⟩, hfold⟩
      exact ⟨hprobed, front, last, hkept, hlast, hwalks, hfold⟩
    · rintro ⟨-, front, last, hkept, hlast, hwalks, hfold⟩
      exact ⟨⟨front, last, hkept, hlast, hwalks⟩, hfold⟩
  · rw [hblock, append_nil] at hlines
    have hprobe := api.needsRewrite_eq_false_iff hne hblock
    rw [← hprobe, hblock, hlines]
    simpa using hneeds
  · have hprobed := (api.needsRewrite_iff_probed hblock).not.mp hneeds
    have hsome : (!(api.block lines).isEmpty) = true := by simpa using hblock
    rw [hsome]
    simp [hprobed]

/-- A last line that fills the probe is lost although it is not canceled: its end is where the
file ends, and the scan takes that for not having found a line. -/
theorem truncate_loses_last {first long : Line newline} (hfirst : api.live first.1 = true)
    (hlong : window ≤ long.1.length + 1)
    (hreach : first.1.length + long.1.length + 2 ≤ 2 * window) :
    api.truncateTrailingCanceledEvents (encode [first, long]) =
      (encode [first], (api.refold (encode [first])).map fun _ => true) := by
  have hwindow := window_eq
  have hcontent : long.1 ≠ [] := by
    intro hnil
    simp [hnil] at hlong
    omega
  have hlength : (encode [first, long]).length = first.1.length + 1 + (long.1.length + 1) := by
    simp
    omega
  have hneeds : api.needsRewrite (encode [first, long]) = true :=
    (api.needsRewrite_iff hcontent (by simp) :
      api.needsRewrite (encode ([first] ++ [long])) = true ↔ _).mpr
        (Or.inr ⟨by simp; omega, rfl, hlong⟩)
  -- the first window holds the end of `long` alone
  obtain ⟨more, hmore⟩ := Nat.exists_eq_add_of_le hlong
  have hstart : (encode [first, long]).length - window = first.1.length + (more + 1) := by omega
  have htail : windowLines (encode [first, long]) (encode [first, long]).length =
      [(first.1.length + (more + 1), long.1.drop more)] := by
    have hfree : newline ∉ long.1.drop more := fun hmem => long.2 (mem_of_mem_drop hmem)
    have hdrop : (encode [first, long]).drop (first.1.length + (more + 1)) =
        long.1.drop more ++ [newline] := by
      simp only [encode_cons, encode_nil]
      rw [drop_length_add_append, drop_succ_cons,
        drop_append_of_le_length (by omega)]
    rw [windowLines, hstart, hdrop, take_of_length_le (by simp; omega),
      pieces_line hfree]
    simp
  have hnext : api.findCut (encode [first, long]) (encode [first, long]).length =
      api.findCut (encode [first, long]) (first.1.length + (more + 1)) := by
    rw [api.findCut_next _ (by omega), htail, resumeAt]
    · have hvisible : ¬(long.1.drop more).isEmpty = true := by
        simp
        omega
      simp [hvisible]
    · intro cut hcut
      rw [htail] at hcut
      obtain ⟨line, hline, -, rfl⟩ := api.mem_of_cutAfter hcut
      rw [mem_singleton.mp hline, length_drop]
      omega
  have hhead : windowLines (encode [first, long]) (first.1.length + (more + 1)) =
      [(0, first.1)] := by
    have hzero : first.1.length + (more + 1) - window = 0 := by omega
    have hfragment : newline ∉ (long.1 ++ [newline]).take more := by
      rw [take_append_of_le_length (by omega)]
      exact fun hmem => long.2 (mem_of_mem_take hmem)
    simp only [windowLines, hzero, encode_cons, encode_nil, drop_zero, Nat.sub_zero]
    rw [take_length_add_append, take_succ_cons, pieces_line first.2,
      pieces_fragment hfragment, nil_append]
  have hfound : api.findCut (encode [first, long]) (first.1.length + (more + 1)) =
      .ok (first.1.length + 1) := by
    apply api.findCut_ok
    · rw [hhead]
      simp [cutAfter, hfirst]
    · omega
  have htake : (encode [first, long]).take (first.1.length + 1) = encode [first] := by
    simp only [encode_cons, encode_nil]
    rw [take_length_add_append]
    rfl
  rw [api.truncate_encode (by simp), if_pos hneeds, hnext, hfound]
  simp only [htake]

def textBytes (text : String) : Bytes :=
  text.toList.map (·.val.toUInt8)

/-- Lines compared by their text, with nothing to repair and a fold that accepts. -/
def plain : TailApi where
  isCanceled line := line == textBytes "\x7b\"t\":\"run_canceled\"\x7d"
  repairTail := .ok
  refold _ := .ok ()

def queuedLine : Line newline :=
  ⟨textBytes "\x7b\"t\":\"run_queued\"\x7d", by decide +kernel⟩

def logHead : Bytes := textBytes "\x7b\"t\":\"step_log\",\"text\":\""

def logTail : Bytes := textBytes "\"\x7d"

theorem newline_notMem_log : newline ∉ logHead ++ (List.replicate 65536 120 ++ logTail) := by
  have hhead : newline ∉ logHead := by decide +kernel
  have htail : newline ∉ logTail := by decide +kernel
  simp only [mem_append, mem_replicate, hhead, htail]
  decide +kernel

/-- A log event with 64 KiB of text. -/
def logLine : Line newline :=
  ⟨logHead ++ (List.replicate 65536 120 ++ logTail), newline_notMem_log⟩

theorem length_logLine : logLine.1.length = 65562 := by
  have hhead : logHead.length = 24 := by decide +kernel
  have htail : logTail.length = 2 := by decide +kernel
  rw [logLine, length_append, length_append, length_replicate, hhead, htail]

theorem logLine_not_canceled : plain.isCanceled logLine.1 = false := by
  decide +kernel

theorem long_line_lost :
    plain.kept [queuedLine, logLine] = [queuedLine, logLine] ∧
      plain.truncateTrailingCanceledEvents (encode [queuedLine, logLine]) =
        (encode [queuedLine], .ok true) := by
  constructor
  · have hcontent : logLine.1 ≠ [] := by
      intro hnil
      simpa [hnil] using length_logLine
    have hblock : plain.block ([queuedLine] ++ [logLine]) = [] :=
      (plain.block_eq_nil_iff hcontent (by simp)).mpr logLine_not_canceled
    have hlines := plain.kept_append_block ([queuedLine] ++ [logLine])
    rwa [hblock, append_nil] at hlines
  · apply plain.truncate_loses_last
    · decide +kernel
    · rw [window_eq, length_logLine]
      decide
    · rw [window_eq, length_logLine]
      decide +kernel

end TailApi

end Qcg
