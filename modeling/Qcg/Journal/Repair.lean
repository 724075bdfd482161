import Qcg.Journal.Read

/-!
# Repair of a torn tail

`repair_truncated_tail_locked`: a journal whose last line has no newline is completed or cut
back before anything is appended. A file within the scan window is inspected whole, a larger
one from its end, window by window.
-/

namespace Qcg.Journal

open List

open Json LineFile

/-- What stands at the path of the clean-shutdown marker. -/
inductive Marker where
  | absent
  | unreadable (message : String)
  | file (content : Bytes) (symlink : Bool)
deriving DecidableEq

/-- `clean-shutdown-v1` and a newline. -/
def cleanShutdownMagic : Bytes :=
  [99, 108, 101, 97, 110, 45, 115, 104, 117, 116, 100, 111, 119, 110, 45, 118, 49, 10]

example : "clean-shutdown-v1\n".toUTF8.toList = cleanShutdownMagic := by decide +kernel

def markerIsSymlink : String :=
  "clean-shutdown marker is a symbolic link; refusing repair as possible tampering"

def markerIsPresent : String :=
  "journal tail is truncated but a clean-shutdown marker is present; " ++
    "refusing repair as possible tampering"

/-- The gate before a repair: a journal that was shut down cleanly has no torn tail. -/
def tamperGate : Marker → Except JournalError Unit
  | .absent => .ok ()
  | .unreadable message => .error (.io message)
  | .file content symlink =>
    if content = cleanShutdownMagic then
      if symlink then .error (.invalidEvent markerIsSymlink)
      else .error (.invalidEvent markerIsPresent)
    else .ok ()

def rposition (bytes : Bytes) : Option Nat :=
  (bytes.reverse.findIdx? (· == newline)).map fun back => bytes.length - 1 - back

/-- A window has at least one byte. -/
abbrev ScanWindow := {bytes : Nat // 0 < bytes}

def scanWindow (limits : JournalLimits) : ScanWindow :=
  ⟨max (limits.scanWindowBytes.getD (1024 * 1024)) (4 * 1024), by omega⟩

def unboundedRepair (maxBackscan : Nat) : String :=
  s!"journal tail exceeds {maxBackscan} bytes without a line boundary; " ++
    "refusing unbounded repair"

section Repair

variable (parse : Parser) (marker : Marker) (bytes : Bytes)

def repairTailAt (tail : Bytes) (tailStart : Nat) : Except JournalError Bytes := do
  tamperGate marker
  if tail.all isAsciiWhitespace then .ok (bytes.take tailStart)
  else match parse tail with
    | .ok _ => .ok (bytes ++ [newline])
    | .error _ => .ok (bytes.take tailStart)

def repairTailBytes (window : Bytes) (base : Nat) : Except JournalError Bytes :=
  let tailStart := ((rposition window).map (· + 1)).getD 0
  repairTailAt parse marker bytes (window.drop tailStart) (base + tailStart)

/-- The search for a newline before `scanEnd`; `tail` is the file from there on. -/
def repairTailBackscan (window : ScanWindow) (scanEnd : Nat) (tail : Bytes) :
    Except JournalError Bytes :=
  let maxBackscan := window.1 * 16
  let scanStart := scanEnd - window.1
  let chunk := (bytes.drop scanStart).take (scanEnd - scanStart)
  match rposition chunk with
  | some pos =>
    repairTailAt parse marker bytes (chunk.drop (pos + 1) ++ tail) (scanStart + pos + 1)
  | none =>
    if tail.length + chunk.length > maxBackscan then
      .error (.invalidEvent (unboundedRepair maxBackscan))
    else if scanStart = 0 then repairTailBytes parse marker bytes (chunk ++ tail) 0
    else repairTailBackscan window scanStart (chunk ++ tail)
termination_by scanEnd
decreasing_by
  have := window.2
  omega

/-- The path for a file within one window. -/
def repairWhole : Except JournalError Bytes :=
  if bytes.isEmpty || bytes.getLast? == some newline then .ok bytes
  else repairTailBytes parse marker bytes bytes 0

/-- The path for a larger file. -/
def repairWindowed (window : ScanWindow) : Except JournalError Bytes :=
  let start := bytes.length - window.1
  let last := bytes.drop start
  if last.getLast? == some newline then .ok bytes
  else match rposition last with
    | some pos => repairTailAt parse marker bytes (last.drop (pos + 1)) (start + pos + 1)
    | none => repairTailBackscan parse marker bytes window start last

def repairTruncatedTailLocked (limits : JournalLimits) (file : Option Bytes) :
    Except JournalError (Option Bytes) :=
  match file with
  | none => .ok none
  | some bytes =>
    if bytes.length = 0 then .ok (some bytes)
    else if bytes.length ≤ (scanWindow limits).1 then some <$> repairWhole parse marker bytes
    else some <$> repairWindowed parse marker bytes (scanWindow limits)

end Repair

theorem rposition_none {bytes : Bytes} (h : newline ∉ bytes) : rposition bytes = none := by
  rw [rposition, Option.map_eq_none_iff, List.findIdx?_eq_none_iff]
  intro byte hbyte
  rw [beq_eq_false_iff_ne]
  rintro rfl
  exact h (mem_reverse.mp hbyte)

theorem rposition_some {front back : Bytes} (h : newline ∉ back) :
    rposition (front ++ newline :: back) = some front.length := by
  have hback : back.reverse.findIdx? (· == newline) = none := by
    rw [List.findIdx?_eq_none_iff]
    intro byte hbyte
    rw [beq_eq_false_iff_ne]
    rintro rfl
    exact h (mem_reverse.mp hbyte)
  simp [rposition, List.findIdx?_append, hback, List.findIdx?_cons]

section Paths

variable {parse : Parser} {marker : Marker} {bytes : Bytes}

/-- An event that only misses its newline. -/
def completeEvent (parse : Parser) (tail : Bytes) : Bool :=
  !tail.all isAsciiWhitespace && (parse tail).isOk

/-- The repair as it is meant: the torn line is completed or dropped. -/
def repaired (parse : Parser) (bytes : Bytes) : Bytes :=
  if completeEvent parse (torn newline bytes) then bytes ++ [newline]
  else settled newline bytes

def repairTorn (parse : Parser) (marker : Marker) (bytes : Bytes) : Except JournalError Bytes :=
  tamperGate marker >>= fun _ => .ok (repaired parse bytes)

theorem repairTailAt_torn :
    repairTailAt parse marker bytes (torn newline bytes) (settled newline bytes).length =
      repairTorn parse marker bytes := by
  have htake : bytes.take (settled newline bytes).length = settled newline bytes := by
    have hleft := @List.take_left _ (settled newline bytes) (torn newline bytes)
    rwa [settled_append_torn] at hleft
  rw [repairTailAt, repairTorn, repaired, completeEvent, htake]
  congr 1
  funext _
  cases (torn newline bytes).all isAsciiWhitespace with
  | true => rfl
  | false =>
    cases parse (torn newline bytes) with
    | ok event => rfl
    | error source => rfl

theorem repairTailAt_last {front back : Bytes} (h : newline ∉ back) :
    repairTailAt parse marker (front ++ newline :: back) back (front.length + 1) =
      repairTorn parse marker (front ++ newline :: back) := by
  have hfront : Terminated newline (front ++ [newline]) := .inr (by simp)
  obtain ⟨hsettled, htorn⟩ := settled_torn_append hfront h
  rw [append_assoc, singleton_append] at hsettled htorn
  rw [← repairTailAt_torn, hsettled, htorn, length_append, length_singleton]

theorem repairTailAt_all (h : newline ∉ bytes) :
    repairTailAt parse marker bytes bytes 0 = repairTorn parse marker bytes := by
  have hsettled : settled newline bytes = [] := by
    have hsplit := settled_append_torn newline bytes
    rw [torn_eq_self h] at hsplit
    simpa using hsplit
  rw [← repairTailAt_torn, torn_eq_self h, hsettled, length_nil]

theorem repairTailBytes_whole :
    repairTailBytes parse marker bytes bytes 0 = repairTorn parse marker bytes := by
  by_cases hmem : newline ∈ bytes
  · obtain ⟨front, back, rfl, hback⟩ := exists_last_stop hmem
    rw [repairTailBytes, rposition_some hback, ← repairTailAt_last hback]
    simp
  · rw [repairTailBytes, rposition_none hmem]
    exact repairTailAt_all hmem

/-- A file of more than sixteen windows whose last seventeen have no newline. -/
def Oversized (window : ScanWindow) (bytes : Bytes) : Prop :=
  window.1 * 16 < bytes.length ∧ newline ∉ bytes.drop (bytes.length - window.1 * 17)

instance (window : ScanWindow) (bytes : Bytes) : Decidable (Oversized window bytes) :=
  inferInstanceAs (Decidable (_ ∧ _))

/-- The scan before `scanEnd` after `seen` windows without a newline. -/
theorem repairTailBackscan_eq (window : ScanWindow) (seen scanEnd : Nat) :
    seen ≤ 16 → 0 < scanEnd → scanEnd + window.1 * seen = bytes.length →
      newline ∉ bytes.drop scanEnd →
      repairTailBackscan parse marker bytes window scanEnd (bytes.drop scanEnd) =
        if Oversized window bytes then .error (.invalidEvent (unboundedRepair (window.1 * 16)))
        else repairTorn parse marker bytes := by
  induction scanEnd using Nat.strong_induction_on generalizing seen with
  | _ scanEnd ih =>
    intro hseen hpos hlength htail
    have hwindow := window.2
    have hseen' := Nat.mul_le_mul_left window.1 hseen
    obtain ⟨scanStart, hstart⟩ : ∃ scanStart, scanStart = scanEnd - window.1 := ⟨_, rfl⟩
    obtain ⟨chunk, hchunk⟩ :
        ∃ chunk, chunk = (bytes.drop scanStart).take (scanEnd - scanStart) := ⟨_, rfl⟩
    have hjoin : chunk ++ bytes.drop scanEnd = bytes.drop scanStart := by
      have hsplit := take_append_drop (scanEnd - scanStart) (bytes.drop scanStart)
      rwa [drop_drop, ← hchunk, Nat.add_sub_cancel' (by omega)] at hsplit
    have hsize : chunk.length = scanEnd - scanStart := by
      rw [hchunk, length_take, length_drop]
      omega
    rw [repairTailBackscan, ← hstart, ← hchunk]
    by_cases hmem : newline ∈ chunk
    · -- the window shows where the torn line begins
      obtain ⟨front, back, hback, hfree⟩ := exists_last_stop hmem
      have hbytes : bytes = (bytes.take scanStart ++ front) ++
          newline :: (back ++ bytes.drop scanEnd) := by
        rw [append_assoc, ← cons_append, ← append_assoc front, ← hback, hjoin,
          take_append_drop]
      have hlast := @repairTailAt_last parse marker (bytes.take scanStart ++ front)
        (back ++ bytes.drop scanEnd) (by simp [hfree, htail])
      have hfits : ¬Oversized window bytes := by
        rintro ⟨-, hnone⟩
        apply hnone
        have hreach : bytes.length - window.1 * 17 + (scanStart - (bytes.length - window.1 * 17)) =
            scanStart := by omega
        apply mem_of_mem_drop (i := scanStart - (bytes.length - window.1 * 17))
        rw [drop_drop, hreach, ← hjoin]
        exact mem_append_left _ hmem
      rw [← hbytes, length_append, length_take, Nat.min_eq_left (by omega)] at hlast
      rw [if_neg hfits, ← hlast, hback, rposition_some hfree]
      simp
    · have hfree : newline ∉ bytes.drop scanStart := by
        rw [← hjoin]
        simp [hmem, htail]
      simp only [rposition_none hmem, hsize, length_drop]
      rw [hjoin]
      by_cases hlimit : seen = 16
      · subst hlimit
        have hover : Oversized window bytes := by
          refine ⟨by omega, ?_⟩
          have hwhere : bytes.length - window.1 * 17 = scanStart := by omega
          rwa [hwhere]
        rw [if_pos (by omega), if_pos hover]
      · have hmore := Nat.mul_le_mul_left window.1 (show seen + 1 ≤ 16 by omega)
        rw [Nat.mul_succ] at hmore
        rw [if_neg (by omega)]
        by_cases hzero : scanStart = 0
        · have hfits : ¬Oversized window bytes := fun hover => by
            have := hover.1
            omega
          rw [if_pos hzero, if_neg hfits, hzero, drop_zero, repairTailBytes_whole]
        · rw [if_neg hzero]
          apply ih scanStart (by omega) (seen + 1) (by omega) (by omega) _ hfree
          rw [Nat.mul_succ]
          omega

theorem repairWhole_eq :
    repairWhole parse marker bytes =
      if Terminated newline bytes then .ok bytes else repairTorn parse marker bytes := by
  rw [repairWhole, repairTailBytes_whole]
  congr 1
  simp [Terminated]

theorem repairWindowed_eq {window : ScanWindow} (h : window.1 < bytes.length) :
    repairWindowed parse marker bytes window =
      if Terminated newline bytes then .ok bytes
      else if Oversized window bytes then
        .error (.invalidEvent (unboundedRepair (window.1 * 16)))
      else repairTorn parse marker bytes := by
  have hwindow := window.2
  have hbytes := take_append_drop (bytes.length - window.1) bytes
  have hlast : (bytes.drop (bytes.length - window.1)).getLast? = bytes.getLast? := by
    rw [List.getLast?_drop, if_neg (by omega)]
  have hne : bytes ≠ [] := ne_nil_of_length_pos (by omega)
  have hends : bytes.getLast? = some newline ↔ Terminated newline bytes := by
    simp [Terminated, hne]
  rw [repairWindowed, hlast]
  by_cases hterminated : Terminated newline bytes
  · rw [if_pos hterminated, if_pos (by simpa using hends.mpr hterminated)]
  rw [if_neg hterminated, if_neg (by simpa using fun hlast => hterminated (hends.mp hlast))]
  by_cases hmem : newline ∈ bytes.drop (bytes.length - window.1)
  · obtain ⟨front, back, hback, hfree⟩ := exists_last_stop hmem
    have hfits : ¬Oversized window bytes := by
      rintro ⟨-, hnone⟩
      apply hnone
      have hreach : bytes.length - window.1 = bytes.length - window.1 * 17 +
          (bytes.length - window.1 - (bytes.length - window.1 * 17)) := by omega
      rw [hreach, ← drop_drop] at hmem
      exact mem_of_mem_drop hmem
    rw [hback, ← append_assoc] at hbytes
    have hrepair := @repairTailAt_last parse marker
      (bytes.take (bytes.length - window.1) ++ front) back hfree
    rw [hbytes, length_append, length_take, Nat.min_eq_left (by omega)] at hrepair
    rw [if_neg hfits, ← hrepair, hback, rposition_some hfree]
    simp
  · rw [rposition_none hmem]
    exact repairTailBackscan_eq window 1 _ (by omega) (by omega) (by omega) hmem

theorem repairTruncatedTailLocked_eq (limits : JournalLimits) :
    repairTruncatedTailLocked parse marker limits (some bytes) =
      some <$> if Terminated newline bytes then .ok bytes
        else if Oversized (scanWindow limits) bytes then
          .error (.invalidEvent (unboundedRepair ((scanWindow limits).1 * 16)))
        else repairTorn parse marker bytes := by
  rw [repairTruncatedTailLocked]
  by_cases hempty : bytes.length = 0
  · rw [if_pos hempty, if_pos (.inl (length_eq_zero_iff.mp hempty))]
    rfl
  rw [if_neg hempty]
  by_cases hsmall : bytes.length ≤ (scanWindow limits).1
  · have hfits : ¬Oversized (scanWindow limits) bytes := by
      rintro ⟨hlarge, -⟩
      omega
    rw [if_pos hsmall, if_neg hfits, repairWhole_eq]
  · rw [if_neg hsmall, repairWindowed_eq (by omega)]

variable {limits : JournalLimits} {result : Bytes}

/-- A repair that is not refused leaves the file or does what it is meant to do. -/
theorem repair_result
    (h : repairTruncatedTailLocked parse marker limits (some bytes) = .ok (some result)) :
    Terminated newline bytes ∧ result = bytes ∨
      ¬Terminated newline bytes ∧ tamperGate marker = .ok () ∧ result = repaired parse bytes := by
  rw [repairTruncatedTailLocked_eq, Except.map_eq_ok] at h
  obtain ⟨_, h, hsome⟩ := h
  cases hsome
  split at h
  · rename_i hterminated
    exact .inl ⟨hterminated, (Except.ok.inj h).symm⟩
  · rename_i hterminated
    split at h
    · cases h
    · obtain ⟨hgate, h⟩ := Except.unit_bind_eq_ok.mp h
      exact .inr ⟨hterminated, hgate, (Except.ok.inj h).symm⟩

theorem completeEvent_torn_of_terminated (h : Terminated newline bytes) :
    completeEvent parse (torn newline bytes) = false := by
  have htorn : torn newline bytes = [] := by
    have hsplit := settled_append_torn newline bytes
    rw [settled_eq_self h] at hsplit
    simpa using hsplit
  simp [htorn, completeEvent]

theorem repaired_of_terminated (h : Terminated newline bytes) : repaired parse bytes = bytes := by
  rw [repaired, completeEvent_torn_of_terminated h]
  exact settled_eq_self h

theorem repair_eq_repaired
    (h : repairTruncatedTailLocked parse marker limits (some bytes) = .ok (some result)) :
    result = repaired parse bytes := by
  rcases repair_result h with ⟨hterminated, rfl⟩ | ⟨-, -, rfl⟩
  · exact (repaired_of_terminated hterminated).symm
  · rfl

theorem terminated_repaired (parse : Parser) (bytes : Bytes) :
    Terminated newline (repaired parse bytes) := by
  unfold repaired
  split
  · exact .inr (by simp)
  · exact terminated_settled newline bytes

theorem pieces_repaired (parse : Parser) (bytes : Bytes) :
    pieces newline 0 [] (repaired parse bytes) =
      pieces newline 0 [] bytes ++
        if completeEvent parse (torn newline bytes) then
          [((settled newline bytes).length, torn newline bytes)] else [] := by
  have hsplit := settled_append_torn newline bytes
  have hfree := not_mem_torn newline bytes
  have hsettled := terminated_settled newline bytes
  have hlines : pieces newline 0 [] bytes = pieces newline 0 [] (settled newline bytes) := by
    nth_rewrite 1 [← hsplit]
    rw [pieces_append_of_terminated hsettled, pieces_fragment hfree, append_nil]
  unfold repaired
  split
  · nth_rewrite 1 [← hsplit]
    rw [append_assoc, pieces_append_of_terminated hsettled, pieces_line hfree, hlines]
    simp
  · rw [hlines, append_nil]

theorem readsAs_repaired (limits : JournalLimits) (throughSeq : Option Nat)
    (hroom : ∀ limit ∈ limits.maxTotalBytes, (repaired parse bytes).length ≤ limit) :
    ReadsAs parse limits throughSeq Reader.start [] bytes (repaired parse bytes) := by
  have hsplit := settled_append_torn newline bytes
  have hfree := not_mem_torn newline bytes
  have hlength := congrArg List.length hsplit
  rw [length_append] at hlength
  have hjoin : ∀ tail, (∀ r : Reader, r.stats.bytes = (settled newline bytes).length →
        ReadsAs parse limits throughSeq r [] (torn newline bytes) tail) →
      ReadsAs parse limits throughSeq Reader.start [] bytes (settled newline bytes ++ tail) := by
    intro tail htail
    nth_rewrite 1 [← hsplit]
    apply ReadsAs.append _ _ _ (fun _ => rfl) (terminated_settled newline bytes)
    intro r hr
    exact htail r (by simpa [Reader.start] using hr)
  cases hcomplete : completeEvent parse (torn newline bytes) with
  | true =>
    simp only [repaired, hcomplete, if_pos] at hroom ⊢
    rw [completeEvent, Bool.and_eq_true, Bool.not_eq_true'] at hcomplete
    cases hparse : parse (torn newline bytes) with
    | error source => simp [hparse, Except.isOk, Except.toBool] at hcomplete
    | ok event =>
      have hcommit := hjoin (torn newline bytes ++ [newline]) fun r hr =>
        ReadsAs.commit hfree hcomplete.1 hparse fun limit hlimit => by
          have hle := hroom limit hlimit
          rw [length_append, length_singleton] at hle
          omega
      rwa [← append_assoc, hsplit] at hcommit
  | false =>
    simp only [repaired, hcomplete]
    have hdrop := hjoin [] fun r _ => ReadsAs.drop hfree (by
      rw [completeEvent, Bool.and_eq_false_iff, Bool.not_eq_false'] at hcomplete
      rcases hcomplete with hblank | hparse
      · exact .inl hblank
      · cases hresult : parse (torn newline bytes) with
        | error source => exact .inr ⟨source, rfl⟩
        | ok event => simp [hresult, Except.isOk, Except.toBool] at hparse)
    rwa [append_nil] at hdrop

end Paths

def refusedSize (window : ScanWindow) : JournalError :=
  .invalidEvent (unboundedRepair (window.1 * 16))

/-- A repair that is not refused keeps what can be read, on every path and with windows of any
size. The events can be read back under every limit that the repaired file itself meets. -/
theorem repair_keeps_readable (parse : Parser) (marker : Marker) (bytes : Bytes) :
    (∀ limits result,
      repairTruncatedTailLocked parse marker limits (some bytes) = .ok (some result) →
      (result <+: bytes ∨ result = bytes ++ [newline]) ∧
      Terminated newline result ∧
      pieces newline 0 [] result = (pieces newline 0 [] bytes ++
        if completeEvent parse (torn newline bytes) then
          [((settled newline bytes).length, torn newline bytes)] else []) ∧
      (∀ marker' limits',
        repairTruncatedTailLocked parse marker' limits' (some result) = .ok (some result)) ∧
      ∀ readLimits throughSeq scan,
        (∀ limit ∈ readLimits.maxTotalBytes, result.length ≤ limit) →
        readJournalValuesThrough parse readLimits throughSeq (some bytes) = .ok scan →
        ∃ scan', readJournalValuesThrough parse readLimits throughSeq (some result) = .ok scan' ∧
          scan'.events = scan.events) ∧
    ∀ window : ScanWindow, window.1 < bytes.length →
      repairWindowed parse marker bytes window = repairWhole parse marker bytes ∨
        ¬Terminated newline bytes ∧ Oversized window bytes ∧
          repairWindowed parse marker bytes window = .error (refusedSize window) := by
  constructor
  · intro limits result h
    have hresult := repair_eq_repaired h
    subst hresult
    refine ⟨?_, terminated_repaired parse bytes, pieces_repaired parse bytes, ?_, ?_⟩
    · unfold repaired
      split
      · exact .inr rfl
      · exact .inl <| rdropWhile_prefix _ _
    · intro marker' limits'
      rw [repairTruncatedTailLocked_eq, if_pos (terminated_repaired parse bytes)]
      rfl
    · intro readLimits throughSeq scan hroom hscan
      exact (readsAs_repaired readLimits throughSeq hroom).scan hscan
  · intro window hwindow
    rw [repairWindowed_eq hwindow, repairWhole_eq]
    by_cases hterminated : Terminated newline bytes
    · simp [hterminated]
    · by_cases hover : Oversized window bytes
      · right
        exact ⟨hterminated, hover, by rw [if_neg hterminated, if_pos hover, refusedSize]⟩
      · left
        rw [if_neg hterminated, if_neg hterminated, if_neg hover]

def parseEmptyObject : Parser := fun body =>
  if body = [123, 125] then .ok (.obj []) else .error ⟨true⟩

def twoBytes : JournalLimits := { JournalLimits.unlimited with maxTotalBytes := some 2 }

/-- The newline of a repair may be the byte that is too many. -/
theorem committed_newline_exceeds_limit :
    readJournalValuesThrough parseEmptyObject twoBytes none (some [123, 125]) =
        .ok ⟨[.obj []], ⟨2, 1⟩⟩ ∧
      repairTruncatedTailLocked parseEmptyObject .absent twoBytes (some [123, 125]) =
        .ok (some [123, 125, newline]) ∧
      readJournalValuesThrough parseEmptyObject twoBytes none (some [123, 125, newline]) =
        .error (.limitExceeded "total journal" 3 2) := by
  refine ⟨rfl, ?_, rfl⟩
  rw [repairTruncatedTailLocked_eq]
  rfl

/-- The same journal without the limit: one event before and after the repair. -/
theorem repair_keeps_readable_emptyObject :
    repairTruncatedTailLocked parseEmptyObject .absent .unlimited (some [123, 125]) =
        .ok (some [123, 125, newline]) ∧
      ∃ scan, readJournalValuesThrough parseEmptyObject .unlimited none
          (some [123, 125, newline]) = .ok scan ∧
        scan.events = [.obj []] := by
  have hrepair : repairTruncatedTailLocked parseEmptyObject .absent .unlimited
      (some [123, 125]) = .ok (some [123, 125, newline]) := by
    rw [repairTruncatedTailLocked_eq]
    rfl
  obtain ⟨-, -, -, -, hread⟩ :=
    (repair_keeps_readable parseEmptyObject .absent [123, 125]).1 .unlimited _ hrepair
  exact ⟨hrepair, hread .unlimited none ⟨[.obj []], ⟨2, 1⟩⟩ (by simp [JournalLimits.unlimited]) rfl⟩

end Qcg.Journal
