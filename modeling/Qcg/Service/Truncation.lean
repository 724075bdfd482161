import Qcg.Journal.Read

/-!
# Truncation of trailing cancellations

`truncate_trailing_canceled_events` on the bytes of a journal: a probe of the last 64 KiB
decides whether anything has to go, a second scan walks backward in windows of the same size
to the end of the last line that is not a `run_canceled` event and cuts the file there.
-/

namespace Qcg

open LineFile

/-- The size of the probe and of a scan window. -/
@[irreducible] def window : Nat := 64 * 1024

theorem window_eq : window = 65536 := by
  unfold window
  rfl

/-- What the truncation takes from elsewhere: whether a line parses as an event with tag
`run_canceled`, the repair of a file that does not end a line, and the fold of the rest into
`state.json`. -/
structure TailApi where
  isCanceled : Bytes → Bool
  repairTail : Bytes → Except String Bytes
  refold : Bytes → Except String Unit

namespace TailApi

variable (api : TailApi)

/-- A line that ends the backward search. -/
def live (line : Bytes) : Bool :=
  !line.isEmpty && !api.isCanceled line

/-- The loop of the probe over the lines from the last to the first. -/
def probe (found : Bool) : List Bytes → Bool
  | [] => found
  | line :: lines =>
    if line.isEmpty then probe found lines
    else if !api.isCanceled line then found
    else probe true lines

def afterNewline (slice : Bytes) : Bytes :=
  match slice.findIdx? (· == newline) with
  | some pos => slice.drop (pos + 1)
  | none => []

def needsRewrite (bytes : Bytes) : Bool :=
  let start := bytes.length - window
  let buf := (bytes.drop start).take window
  let slice := if start > 0 then afterNewline buf else buf
  let lines := slice.splitOn newline
  -- the fragment of a torn tail does not count
  let lines := if buf.getLast? = some newline then lines else lines.dropLast
  if slice.isEmpty && start > 0 then true else api.probe false lines.reverse

def windowLines (bytes : Bytes) (offset : Nat) : List (Nat × Bytes) :=
  let start := offset - window
  pieces newline start [] ((bytes.drop start).take (offset - start))

/-- The end of the last line of a window that is not canceled. -/
def cutAfter (lines : List (Nat × Bytes)) : Option Nat :=
  (lines.reverse.find? fun line => api.live line.2).map fun line =>
    line.1 + line.2.length + 1

/-- Where the next window ends: before the earliest line of this one. -/
def resumeAt (lines : List (Nat × Bytes)) (start : Nat) : Nat :=
  ((lines.find? fun line => !line.2.isEmpty).map (·.1)).getD start

variable {offset : Nat}

theorem windowLines_le {bytes : Bytes} {line : Nat × Bytes} (h : line ∈ windowLines bytes offset) :
    offset - window ≤ line.1 ∧ line.1 + line.2.length + 1 ≤ offset := by
  have hends := piece_end_le h
  simp only [List.length_take] at hends
  omega

theorem resumeAt_eq (lines : List (Nat × Bytes)) (start : Nat) :
    resumeAt lines start = start ∨
      ∃ line ∈ lines, resumeAt lines start = line.1 := by
  unfold resumeAt
  cases hfind : lines.find? fun line => !line.2.isEmpty with
  | none => exact Or.inl rfl
  | some line => exact Or.inr ⟨line, List.mem_of_find?_eq_some hfind, rfl⟩

theorem resumeAt_lt {bytes : Bytes} (h : ¬offset - window = 0) :
    resumeAt (windowLines bytes offset) (offset - window) < offset := by
  have hpos := window_eq
  rcases resumeAt_eq (windowLines bytes offset) (offset - window) with heq | ⟨line, hline, heq⟩
  · omega
  · have hends := windowLines_le hline
    omega

theorem le_resumeAt (bytes : Bytes) (offset : Nat) :
    offset - window ≤ resumeAt (windowLines bytes offset) (offset - window) := by
  rcases resumeAt_eq (windowLines bytes offset) (offset - window) with heq | ⟨line, hline, heq⟩
  · omega
  · have hends := windowLines_le hline
    omega

def onlyCanceled : String :=
  "journal holds only run_canceled events; refusing truncation"

/-- The backward scan. A cut at the end of the file is the same as no cut: the scan goes on. -/
def findCut (bytes : Bytes) (offset : Nat) : Except String Nat :=
  let start := offset - window
  let lines := windowLines bytes offset
  let cut := (api.cutAfter lines).getD bytes.length
  if cut ≠ bytes.length then .ok cut
  else if start = 0 then .error onlyCanceled
  else if resumeAt lines start = 0 then .error onlyCanceled
  else findCut bytes (resumeAt lines start)
termination_by offset
decreasing_by exact resumeAt_lt ‹_›

/-- A file whose last byte ends a line needs no repair. -/
def repairTruncatedTailLocked (bytes : Bytes) : Except String Bytes :=
  if bytes.isEmpty || bytes.getLast? = some newline then .ok bytes else api.repairTail bytes

def truncateToLastNonCanceled (file : Bytes) : Bytes × Except String Bool :=
  match api.repairTruncatedTailLocked file with
  | .error error => (file, .error error)
  | .ok bytes =>
    if bytes.length = 0 then (bytes, .ok false)
    -- the first window of the scan ends the file, so this is its check
    else if bytes.getLast? ≠ some newline then
      (bytes, .error "journal tail changed during locked truncation")
    else match api.findCut bytes bytes.length with
      | .error error => (bytes, .error error)
      | .ok cut => if cut = bytes.length then (bytes, .ok false) else (bytes.take cut, .ok true)

/-- The file that is left, and the answer of the call. -/
def truncateTrailingCanceledEvents (bytes : Bytes) : Bytes × Except String Bool :=
  if bytes.length = 0 then (bytes, .ok false)
  else if !api.needsRewrite bytes then (bytes, .ok false)
  else match api.truncateToLastNonCanceled bytes with
    | (file, .ok true) => (file, (api.refold file).map fun _ => true)
    | unchanged => unchanged

end TailApi

end Qcg
