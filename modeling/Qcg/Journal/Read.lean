import Qcg.Library.Checked
import Qcg.Library.LineFile
import Qcg.State.Types

/-!
# Reading a journal

`read_journal_values_through` on the bytes of a journal. The reader takes one line at a time,
up to its newline, the end of the file or two bytes past the event limit; an incomplete last
line without a newline ends the journal.
-/

namespace Qcg

open List

abbrev Bytes := List UInt8

def newline : UInt8 := 10

namespace Journal

open Json

/-- `u8::is_ascii_whitespace`. -/
def isAsciiWhitespace (byte : UInt8) : Bool :=
  [9, 10, 12, 13, 32].contains byte

/-- An error of the JSON parser; `eof` says that the text ended too early. -/
structure ParseError where
  eof : Bool
deriving DecidableEq, Repr

abbrev Parser := Bytes → Except ParseError Value

structure JournalLimits where
  maxEventBytes : Option Nat
  maxTotalBytes : Option Nat
  maxEventCount : Option Nat
  maxStateBytes : Option Nat
  scanWindowBytes : Option Nat

def JournalLimits.unlimited : JournalLimits := ⟨none, none, none, none, none⟩

structure JournalStats where
  bytes : Nat
  events : Nat
deriving DecidableEq

structure JournalScan where
  events : List Value
  stats : JournalStats
deriving DecidableEq

def validateLimits (limits : JournalLimits) : Except JournalError Unit :=
  [("max_event_bytes", limits.maxEventBytes), ("max_total_bytes", limits.maxTotalBytes),
    ("max_event_count", limits.maxEventCount), ("max_state_bytes", limits.maxStateBytes),
    ("scan_window_bytes", limits.scanWindowBytes)].forM fun limit =>
      if limit.2 = some 0 then .error (.invalidLimit limit.1) else .ok ()

def checkLimit (limit : Option Nat) (actual : Nat) (error : Nat → JournalError) :
    Except JournalError Unit :=
  match limit with
  | some limit => if limit < actual then .error (error limit) else .ok ()
  | none => .ok ()

theorem checkLimit_eq_ok {limit : Option Nat} {actual : Nat} {error : Nat → JournalError} :
    checkLimit limit actual error = .ok () ↔ ∀ l ∈ limit, actual ≤ l := by
  cases limit with
  | none => simp [checkLimit]
  | some limit => simp [checkLimit]

/-- Whether a line as it was read ends with its newline. -/
def hasNewline (line : Bytes) : Bool :=
  line.getLast? == some newline

def lineBody (line : Bytes) : Bytes :=
  if hasNewline line then line.dropLast else line

@[simp] theorem hasNewline_concat (body : Bytes) : hasNewline (body ++ [newline]) = true := by
  simp [hasNewline]

@[simp] theorem lineBody_concat (body : Bytes) : lineBody (body ++ [newline]) = body := by
  simp [lineBody]

theorem hasNewline_of_not_mem {line : Bytes} (h : newline ∉ line) : hasNewline line = false := by
  rw [hasNewline, beq_eq_false_iff_ne]
  intro hlast
  exact h (List.mem_of_getLast? hlast)

theorem lineBody_of_not_mem {line : Bytes} (h : newline ∉ line) : lineBody line = line := by
  rw [lineBody, hasNewline_of_not_mem h]
  rfl

structure Reader extends JournalScan where
  lineNumber : Nat

def Reader.start : Reader := ⟨⟨[], ⟨0, 0⟩⟩, 0⟩

def Reader.count (r : Reader) (line : Bytes) : Reader :=
  { r with
    lineNumber := r.lineNumber + 1
    stats := { r.stats with bytes := r.stats.bytes + line.length } }

def Reader.push (r : Reader) (event : Value) : Reader :=
  { r with
    events := r.events ++ [event]
    stats := { r.stats with events := r.stats.events + 1 } }

/-- How the loop goes on after a line. -/
inductive Next where
  | more (reader : Reader)
  | stop (reader : Reader)

def Next.reader : Next → Reader
  | more reader => reader
  | stop reader => reader

section Loop

variable (parse : Parser) (limits : JournalLimits) (throughSeq : Option Nat)

/-- A line is read up to two bytes past the event limit, to see that it is too long. -/
def lineReadLimit : Option Nat :=
  limits.maxEventBytes.map (· + 2)

def checkLine (r : Reader) (line : Bytes) : Except JournalError Unit := do
  checkLimit limits.maxTotalBytes r.stats.bytes (.limitExceeded "total journal" r.stats.bytes)
  if !hasNewline line && lineReadLimit limits == some line.length then
    .error (.limitExceeded "event" line.length (line.length - 2))
  else
    checkLimit limits.maxEventBytes (lineBody line).length
      (.limitExceeded "event" (lineBody line).length)

def isPast (event : Value) : Bool :=
  throughSeq.any fun limit => (event.getU64 "seq").any fun seq => limit < seq

/-- The event of a line; `last` says that the file ends with it and without a newline. -/
def readEvent (r : Reader) (body : Bytes) (last : Bool) : Except JournalError Next :=
  if body.all isAsciiWhitespace then .ok (.more r)
  else do
    checkLimit limits.maxEventCount (r.stats.events + 1)
      (.eventCountExceeded (r.stats.events + 1))
    match parse body with
    | .ok event => .ok (if isPast throughSeq event then .stop r else .more (r.push event))
    | .error source =>
      if last && source.eof then .ok (.stop r) else .error (.invalidLine r.lineNumber)

def readLine (r : Reader) (line : Bytes) (atEnd : Bool) : Except JournalError Next := do
  checkLine limits (r.count line) line
  readEvent parse limits throughSeq (r.count line) (lineBody line) (!hasNewline line && atEnd)

/-- The loop over the bytes; `line` is what `read_until` has taken of the next line. -/
def readLoop (r : Reader) (line : Bytes) : Bytes → Except JournalError Reader
  | [] =>
    if line.isEmpty then .ok r
    else Next.reader <$> readLine parse limits throughSeq r line true
  | byte :: rest =>
    if byte = newline ∨ lineReadLimit limits = some (line.length + 1) then
      match readLine parse limits throughSeq r (line ++ [byte]) rest.isEmpty with
      | .error error => .error error
      | .ok (.stop r) => .ok r
      | .ok (.more r) => readLoop r [] rest
    else readLoop r (line ++ [byte]) rest

variable {parse limits throughSeq}

variable {r : Reader} {line : Bytes}

theorem checkLine_eq_ok :
    checkLine limits r line = .ok () ↔
      (∀ limit ∈ limits.maxTotalBytes, r.stats.bytes ≤ limit) ∧
      (hasNewline line = false → lineReadLimit limits ≠ some line.length) ∧
      ∀ limit ∈ limits.maxEventBytes, (lineBody line).length ≤ limit := by
  simp only [checkLine, Except.unit_bind_eq_ok, checkLimit_eq_ok]
  cases hnewline : hasNewline line with
  | true => simp [checkLimit_eq_ok]
  | false =>
    by_cases hcut : lineReadLimit limits = some line.length
    · simp [hcut]
    · simp [hcut, checkLimit_eq_ok]

variable {next : Next}
variable {atEnd : Bool}

theorem readLine_eq_ok :
    readLine parse limits throughSeq r line atEnd = .ok next ↔
      checkLine limits (r.count line) line = .ok () ∧
      readEvent parse limits throughSeq (r.count line) (lineBody line)
        (!hasNewline line && atEnd) = .ok next := by
  simp only [readLine, Except.unit_bind_eq_ok]

variable {body : Bytes} {tail : Bytes} {last : Bool}

theorem readEvent_cases (h : readEvent parse limits throughSeq r body last = .ok next) :
    body.all isAsciiWhitespace = true ∧ next = .more r ∨
    body.all isAsciiWhitespace = false ∧
      (∀ limit ∈ limits.maxEventCount, r.stats.events + 1 ≤ limit) ∧
      ((∃ event, parse body = .ok event ∧
          next = if isPast throughSeq event then .stop r else .more (r.push event)) ∨
        ∃ source, parse body = .error source ∧ source.eof = true ∧ last = true ∧
          next = .stop r) := by
  unfold readEvent at h
  cases hblank : body.all isAsciiWhitespace with
  | true =>
    rw [if_pos hblank] at h
    exact .inl ⟨rfl, (Except.ok.inj h).symm⟩
  | false =>
    rw [hblank, if_neg (by simp), Except.unit_bind_eq_ok, checkLimit_eq_ok] at h
    obtain ⟨hcount, h⟩ := h
    refine .inr ⟨rfl, hcount, ?_⟩
    cases hparse : parse body with
    | ok event =>
      rw [hparse] at h
      exact .inl ⟨event, rfl, (Except.ok.inj h).symm⟩
    | error source =>
      right
      simp only [hparse] at h
      split at h
      · rename_i hlast
        rw [Bool.and_eq_true] at hlast
        exact ⟨source, rfl, hlast.2, hlast.1, (Except.ok.inj h).symm⟩
      · cases h

theorem readEvent_of_ok {event : Value} (last : Bool) (hbody : body.all isAsciiWhitespace = false)
    (hparse : parse body = .ok event)
    (hcount : ∀ limit ∈ limits.maxEventCount, r.stats.events + 1 ≤ limit) :
    readEvent parse limits throughSeq r body last =
      .ok (if isPast throughSeq event then .stop r else .more (r.push event)) := by
  rw [readEvent, hbody, if_neg (by simp), Except.unit_bind_eq_ok, checkLimit_eq_ok, hparse]
  exact ⟨hcount, rfl⟩

theorem Next.bytes_of_readEvent (h : readEvent parse limits throughSeq r body last = .ok next) :
    next.reader.stats.bytes = r.stats.bytes := by
  rcases readEvent_cases h with ⟨-, rfl⟩ | ⟨-, -, ⟨event, -, rfl⟩ | ⟨source, -, -, -, rfl⟩⟩
  · rfl
  · split <;> rfl
  · rfl

theorem readLine_bytes (h : readLine parse limits throughSeq r line atEnd = .ok next) :
    next.reader.stats.bytes = r.stats.bytes + line.length :=
  Next.bytes_of_readEvent (readLine_eq_ok.mp h).2

/-- A terminated line is read alike wherever it stands. -/
theorem readLine_concat (r : Reader) (body : Bytes) (atEnd atEnd' : Bool) :
    readLine parse limits throughSeq r (body ++ [newline]) atEnd =
      readLine parse limits throughSeq r (body ++ [newline]) atEnd' := by
  simp [readLine]

theorem readLine_cut (hline : hasNewline line = false)
    (hcut : lineReadLimit limits = some line.length) :
    readLine parse limits throughSeq r line atEnd ≠ .ok next := by
  intro h
  exact (checkLine_eq_ok.mp (readLine_eq_ok.mp h).1).2.1 hline hcut

def ReadsAs (parse : Parser) (limits : JournalLimits) (throughSeq : Option Nat) (r : Reader)
    (line bytes bytes' : Bytes) : Prop :=
  ∀ final, readLoop parse limits throughSeq r line bytes = .ok final →
    ∃ final', readLoop parse limits throughSeq r line bytes' = .ok final' ∧
      final'.events = final.events

/-- A change behind a terminated part of the file is seen only by the reader that has read
this part. -/
theorem ReadsAs.append {tail' : Bytes} (front : Bytes) :
    ∀ (r : Reader) (line : Bytes), (front = [] → line = []) →
      (front = [] ∨ front.getLast? = some newline) →
      (∀ r' : Reader, r'.stats.bytes = r.stats.bytes + line.length + front.length →
        ReadsAs parse limits throughSeq r' [] tail tail') →
      ReadsAs parse limits throughSeq r line (front ++ tail) (front ++ tail') := by
  induction front with
  | nil =>
    intro r line hline _ htail
    rw [hline rfl]
    exact htail r (by simp [hline rfl])
  | cons byte front ih =>
    intro r line _ hlast htail final h
    rw [cons_append, readLoop] at h ⊢
    have hlast' : front = [] ∧ byte = newline ∨ front.getLast? = some newline := by
      cases front with
      | nil => simpa using hlast
      | cons => exact .inr (by simpa using hlast)
    by_cases hstop : byte = newline ∨ lineReadLimit limits = some (line.length + 1)
    · rw [if_pos hstop] at h ⊢
      cases hread : readLine parse limits throughSeq r (line ++ [byte])
          (front ++ tail).isEmpty with
      | error error => simp [hread] at h
      | ok next =>
        have hbyte : byte = newline := by
          by_contra hne
          apply readLine_cut (by simp [hasNewline, hne]) _ hread
          simpa using hstop.resolve_left hne
        subst hbyte
        rw [readLine_concat r line _ (front ++ tail').isEmpty] at hread
        rw [readLine_concat r line _ (front ++ tail').isEmpty, hread] at h
        rw [hread]
        cases next with
        | stop reader => exact ⟨final, h, rfl⟩
        | more reader =>
          have hbytes := readLine_bytes hread
          apply ih reader [] (fun _ => rfl) _ _ final h
          · rcases hlast' with hnil | hlast'
            · exact .inl hnil.1
            · exact .inr hlast'
          · intro r' hr'
            apply htail r'
            simp only [Next.reader, length_append, length_cons, length_nil] at hbytes
            simp only [length_cons, length_nil] at hr' ⊢
            omega
    · rw [if_neg hstop] at h ⊢
      have hne : byte ≠ newline := fun heq => hstop (.inl heq)
      have hrest : front.getLast? = some newline :=
        hlast'.resolve_left fun hnil => hne hnil.2
      apply ih r (line ++ [byte]) _ (.inr hrest) _ final h
      · rintro rfl
        simp at hrest
      · intro r' hr'
        apply htail r'
        simp only [length_append, length_cons, length_nil] at hr' ⊢
        omega

theorem readLoop_fragment (htail : newline ∉ tail) :
    ∀ (r : Reader) (line : Bytes) (final : Reader),
      readLoop parse limits throughSeq r line tail = .ok final → newline ∉ line →
      line ++ tail = [] ∧ final = r ∨
        ∃ next, readLine parse limits throughSeq r (line ++ tail) true = .ok next ∧
          final = next.reader := by
  induction tail with
  | nil =>
    intro r line final h _
    rw [readLoop] at h
    split at h
    · rename_i hempty
      exact .inl ⟨by simpa using hempty, (Except.ok.inj h).symm⟩
    · obtain ⟨next, hnext, rfl⟩ := Except.map_eq_ok.mp h
      exact .inr ⟨next, by simpa using hnext, rfl⟩
  | cons byte tail ih =>
    intro r line final h hline
    have hne : byte ≠ newline := fun heq => htail (by simp [heq])
    rw [readLoop] at h
    split at h
    · rename_i hstop
      cases hread : readLine parse limits throughSeq r (line ++ [byte]) tail.isEmpty with
      | error error => simp [hread] at h
      | ok next =>
        exfalso
        apply readLine_cut (by simp [hasNewline, hne]) _ hread
        simpa using hstop.resolve_left hne
    · have hfree : newline ∉ line ++ [byte] := by simp [hline, Ne.symm hne]
      rcases ih (fun hmem => htail (mem_cons_of_mem _ hmem)) r _ final h hfree with
        ⟨hnil, -⟩ | hnext
      · simp at hnil
      · exact .inr (by simpa using hnext)

theorem readLoop_line (hbody : newline ∉ body) (rest : Bytes) :
    ∀ (r : Reader) (line : Bytes),
      (∀ limit ∈ limits.maxEventBytes, (line ++ body).length ≤ limit) →
      readLoop parse limits throughSeq r line (body ++ newline :: rest) =
        match readLine parse limits throughSeq r (line ++ body ++ [newline]) rest.isEmpty with
        | .error error => .error error
        | .ok (.stop r) => .ok r
        | .ok (.more r) => readLoop parse limits throughSeq r [] rest := by
  induction body with
  | nil =>
    intro r line _
    rw [nil_append, readLoop, if_pos (.inl rfl), append_nil]
  | cons byte body ih =>
    intro r line hfits
    have hne : byte ≠ newline := fun heq => hbody (by simp [heq])
    have hshort : lineReadLimit limits ≠ some (line.length + 1) := by
      intro hcut
      obtain ⟨limit, hlimit, hlength⟩ := Option.map_eq_some_iff.mp hcut
      have hle := hfits limit hlimit
      simp only [length_append, length_cons] at hle
      omega
    have hrest := ih (fun hmem => hbody (mem_cons_of_mem _ hmem)) r (line ++ [byte])
      (by simpa using hfits)
    rw [cons_append, readLoop, if_neg (by simp [hne, hshort]), hrest]
    simp

/-- The newline that completes the last line adds no event and takes none away. -/
theorem ReadsAs.commit {event : Value} (htail : newline ∉ tail)
    (hblank : tail.all isAsciiWhitespace = false) (hparse : parse tail = .ok event)
    (hroom : ∀ limit ∈ limits.maxTotalBytes, r.stats.bytes + tail.length + 1 ≤ limit) :
    ReadsAs parse limits throughSeq r [] tail (tail ++ [newline]) := by
  intro final h
  have hne : tail ≠ [] := by
    rintro rfl
    simp at hblank
  obtain ⟨hnil, -⟩ | ⟨next, hread, rfl⟩ := readLoop_fragment htail r [] final h (by simp)
  · exact absurd (by simpa using hnil) hne
  rw [nil_append] at hread
  obtain ⟨hcheck, hevent⟩ := readLine_eq_ok.mp hread
  have hfits := (checkLine_eq_ok.mp hcheck).2.2
  rw [lineBody_of_not_mem htail] at hfits hevent
  have hcheck' : checkLine limits (r.count (tail ++ [newline])) (tail ++ [newline]) = .ok () := by
    rw [checkLine_eq_ok]
    refine ⟨?_, by simp, by simpa using hfits⟩
    intro limit hlimit
    simpa [Reader.count, Nat.add_assoc] using hroom limit hlimit
  rcases readEvent_cases hevent with ⟨hspace, -⟩ |
    ⟨-, hcount, ⟨found, hfound, rfl⟩ | ⟨source, hsource, -⟩⟩
  · rw [hblank] at hspace
    cases hspace
  · have hread' : readLine parse limits throughSeq r (tail ++ [newline]) true =
        .ok (if isPast throughSeq found then .stop (r.count (tail ++ [newline]))
          else .more ((r.count (tail ++ [newline])).push found)) := by
      rw [readLine_eq_ok, lineBody_concat]
      exact ⟨hcheck', readEvent_of_ok _ hblank hfound hcount⟩
    rw [readLoop_line htail [] r [] (by simpa using hfits), nil_append, isEmpty_nil,
      hread']
    cases isPast throughSeq found with
    | true => exact ⟨_, rfl, rfl⟩
    | false => exact ⟨_, rfl, rfl⟩
  · rw [hparse] at hsource
    cases hsource

theorem ReadsAs.drop (htail : newline ∉ tail)
    (hnone : tail.all isAsciiWhitespace = true ∨ ∃ source, parse tail = .error source) :
    ReadsAs parse limits throughSeq r [] tail [] := by
  intro final h
  refine ⟨r, rfl, ?_⟩
  obtain ⟨-, rfl⟩ | ⟨next, hread, rfl⟩ := readLoop_fragment htail r [] final h (by simp)
  · rfl
  have hevent := (readLine_eq_ok.mp hread).2
  rw [nil_append, lineBody_of_not_mem htail] at hevent
  rcases readEvent_cases hevent with
    ⟨-, rfl⟩ | ⟨hblank, -, ⟨event, hparse, -⟩ | ⟨source, -, -, -, rfl⟩⟩
  · rfl
  · rcases hnone with hspace | ⟨source, hsource⟩
    · rw [hblank] at hspace
      cases hspace
    · rw [hparse] at hsource
      cases hsource
  · rfl

end Loop

section Scan

variable (parse : Parser) (limits : JournalLimits) (throughSeq : Option Nat)

def usizeMax : Nat := 2 ^ 64 - 1

def readJournalValuesThrough (file : Option Bytes) : Except JournalError JournalScan := do
  validateLimits limits
  match file with
  | none => .ok Reader.start.toJournalScan
  | some bytes =>
    checkLimit (some usizeMax) ((lineReadLimit limits).getD 0)
      fun _ => .limitExceeded "event" usizeMax (limits.maxEventBytes.getD 0)
    Reader.toJournalScan <$> readLoop parse limits throughSeq Reader.start [] bytes

variable {parse limits throughSeq}

theorem ReadsAs.scan {bytes bytes' : Bytes} {scan : JournalScan}
    (h : ReadsAs parse limits throughSeq Reader.start [] bytes bytes')
    (hscan : readJournalValuesThrough parse limits throughSeq (some bytes) = .ok scan) :
    ∃ scan', readJournalValuesThrough parse limits throughSeq (some bytes') = .ok scan' ∧
      scan'.events = scan.events := by
  simp only [readJournalValuesThrough, Except.unit_bind_eq_ok, Except.map_eq_ok] at hscan ⊢
  obtain ⟨hvalid, hlimit, final, hfinal, rfl⟩ := hscan
  obtain ⟨final', hfinal', hevents⟩ := h final hfinal
  exact ⟨final'.toJournalScan, ⟨hvalid, hlimit, final', hfinal', rfl⟩, hevents⟩

end Scan

end Journal

end Qcg
