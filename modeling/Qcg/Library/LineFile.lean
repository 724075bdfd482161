import Mathlib.Data.List.DropRight
import Mathlib.Tactic.Common

/-!
# Files of terminated lines

A file is a list of symbols in which every line ends with the same symbol. A reader that
takes a window out of such a file sees whole lines, except that the first one may have lost
its beginning and the last one its end.
-/

namespace LineFile

open List

variable {α : Type} {stop : α}

abbrev Line (stop : α) := {symbols : List α // stop ∉ symbols}

def encode (lines : List (Line stop)) : List α :=
  lines.flatMap fun line => line.1 ++ [stop]

@[simp] theorem encode_nil : encode ([] : List (Line stop)) = [] := rfl

@[simp] theorem encode_cons (line : Line stop) (lines : List (Line stop)) :
    encode (line :: lines) = line.1 ++ stop :: encode lines := by
  simp [encode]

@[simp] theorem encode_append (front back : List (Line stop)) :
    encode (front ++ back) = encode front ++ encode back := by
  simp [encode]

theorem length_le_length_encode (lines : List (Line stop)) :
    lines.length ≤ (encode lines).length := by
  induction lines with
  | nil => simp
  | cons line lines ih => simp; omega

variable {lines : List (Line stop)}

theorem getLast?_encode (h : lines ≠ []) :
    (encode lines).getLast? = some stop := by
  obtain ⟨front, line, rfl⟩ := eq_nil_or_concat lines |>.resolve_left h
  simp

/-- What is left of a file when its first symbols are dropped: the end of one line, and the
lines after it. -/
theorem drop_encode {n : Nat} (h : n < (encode lines).length) :
    ∃ front line rest, lines = front ++ line :: rest ∧
      (encode front).length ≤ n ∧ n ≤ (encode front).length + line.1.length ∧
      (encode lines).drop n =
        line.1.drop (n - (encode front).length) ++ stop :: encode rest := by
  induction lines generalizing n with
  | nil => simp at h
  | cons line lines ih =>
    by_cases hn : n ≤ line.1.length
    · refine ⟨[], line, lines, rfl, by simp, by simpa using hn, ?_⟩
      rw [encode_cons, drop_append_of_le_length hn]
      simp
    · have hlen : n - (line.1.length + 1) < (encode lines).length := by
        simp at h
        omega
      obtain ⟨front, torn, rest, rfl, hle, hge, hdrop⟩ := ih hlen
      refine ⟨line :: front, torn, rest, rfl, ?_, ?_, ?_⟩
      · simp; omega
      · simp; omega
      · have hsplit : encode (line :: (front ++ torn :: rest)) =
            (line.1 ++ [stop]) ++ encode (front ++ torn :: rest) := by simp
        have hskip : n = (line.1 ++ [stop]).length + (n - (line.1.length + 1)) := by
          simp; omega
        rw [hsplit, hskip, drop_length_add_append, hdrop]
        simp
        congr 1
        omega

variable {file : List α}

section Count

variable [DecidableEq α]

theorem count_encode (lines : List (Line stop)) : (encode lines).count stop = lines.length := by
  induction lines with
  | nil => rfl
  | cons line lines ih => simp [ih, count_eq_zero.mpr line.2]

/-- A cut at the end of a line leaves whole lines. -/
theorem take_encode {cut : Nat} {before : List α}
    (h : (encode lines).take cut = before ++ [stop]) :
    (encode lines).take cut = encode (lines.take (((encode lines).take cut).count stop)) := by
  induction lines generalizing cut before with
  | nil => simp at h
  | cons line lines ih =>
    rw [encode_cons] at h ⊢
    rcases le_or_gt cut line.1.length with hle | hlt
    · -- a cut inside the line would have to end with a terminator of it
      rw [take_append_of_le_length hle] at h
      exact absurd (mem_of_mem_take (h ▸ mem_append_right _ (mem_singleton_self stop))) line.2
    · obtain ⟨more, rfl⟩ := Nat.exists_eq_add_of_lt hlt
      rw [Nat.add_assoc, take_length_add_append, take_succ_cons] at h ⊢
      have hrest : (encode lines).take more =
          encode (lines.take (((encode lines).take more).count stop)) := by
        rcases eq_nil_or_concat' ((encode lines).take more) with hnil | ⟨rest, last, hconcat⟩
        · simp [hnil]
        · rw [hconcat, ← cons_append, ← append_assoc] at h
          have hlast : last = stop := by simpa using (append_inj' h rfl).2
          exact ih (hlast ▸ hconcat)
      simp only [count_append, count_eq_zero.mpr line.2, count_cons_self, Nat.zero_add,
        take_succ_cons, encode_cons, ← hrest]

end Count

/-- The lines of a file, each with the place where it begins. -/
def placed : Nat → List (Line stop) → List (Nat × Line stop)
  | _, [] => []
  | base, line :: lines => (base, line) :: placed (base + line.1.length + 1) lines

theorem le_of_mem_placed {base : Nat} {place : Nat × Line stop} (h : place ∈ placed base lines) :
    base ≤ place.1 := by
  induction lines generalizing base with
  | nil => simp [placed] at h
  | cons line lines ih =>
    rcases mem_cons.mp h with rfl | h
    · exact Nat.le_refl _
    · have hle := ih h
      omega

section Pieces

variable [DecidableEq α]

/-- The terminated pieces of a window with their offsets; `line` is what has been read of the
piece that begins at `offset`. -/
def pieces (stop : α) (offset : Nat) (line : List α) : List α → List (Nat × List α)
  | [] => []
  | symbol :: rest =>
    if symbol = stop then (offset, line) :: pieces stop (offset + line.length + 1) [] rest
    else pieces stop offset (line ++ [symbol]) rest

@[simp] theorem pieces_nil (offset : Nat) (line : List α) : pieces stop offset line [] = [] := rfl

theorem pieces_fragment {fragment : List α} (h : stop ∉ fragment) (offset : Nat) (line : List α) :
    pieces stop offset line fragment = [] := by
  induction fragment generalizing line with
  | nil => rfl
  | cons symbol rest ih =>
    have hne : symbol ≠ stop := fun heq => h (by simp [heq])
    rw [pieces, if_neg hne, ih fun hmem => h (mem_cons_of_mem _ hmem)]

theorem pieces_line {front : List α} (h : stop ∉ front) (offset : Nat) (line rest : List α) :
    pieces stop offset line (front ++ stop :: rest) =
      (offset, line ++ front) ::
        pieces stop (offset + (line.length + front.length) + 1) [] rest := by
  induction front generalizing line with
  | nil => simp [pieces]
  | cons symbol front ih =>
    have hne : symbol ≠ stop := fun heq => h (by simp [heq])
    rw [cons_append, pieces, if_neg hne, ih fun hmem => h (mem_cons_of_mem _ hmem)]
    simp only [append_assoc, singleton_append, length_append, length_cons,
      length_nil]
    congr 2
    omega

/-- Pieces are read independently on the two sides of a terminator. -/
theorem pieces_append (offset : Nat) (line front rest : List α) :
    pieces stop offset line (front ++ stop :: rest) =
      pieces stop offset line (front ++ [stop]) ++
        pieces stop (offset + line.length + front.length + 1) [] rest := by
  induction front generalizing offset line with
  | nil => simp [pieces]
  | cons symbol front ih =>
    rw [cons_append, cons_append, pieces, pieces]
    split_ifs with hstop
    · rw [ih, cons_append]
      simp
      congr 1
      omega
    · rw [ih]
      simp
      congr 1
      omega

theorem pieces_append_of_terminated {front : List α}
    (h : front = [] ∨ front.getLast? = some stop) (offset : Nat) (rest : List α) :
    pieces stop offset [] (front ++ rest) =
      pieces stop offset [] front ++ pieces stop (offset + front.length) [] rest := by
  rcases h with rfl | h
  · simp
  · obtain ⟨body, rfl⟩ := List.getLast?_eq_some_iff.mp h
    rw [append_assoc, singleton_append, pieces_append]
    simp
    rfl

variable {piece : Nat × List α} {offset : Nat}

theorem mem_pieces {line window : List α} (h : piece ∈ pieces stop offset line window)
    (hline : stop ∉ line) :
    stop ∉ piece.2 ∧ ∃ before after, line ++ window = before ++ (piece.2 ++ stop :: after) ∧
      piece.1 = offset + before.length := by
  induction window generalizing offset line with
  | nil => simp at h
  | cons symbol rest ih =>
    rw [pieces] at h
    split_ifs at h with hstop
    · rcases mem_cons.mp h with rfl | h
      · exact ⟨hline, [], rest, by simp [hstop], by simp⟩
      · obtain ⟨hpiece, before, after, hrest, hat⟩ := ih h (by simp)
        refine ⟨hpiece, line ++ stop :: before, after, ?_, ?_⟩
        · simp at hrest
          simp [hstop, hrest]
        · simp
          omega
    · have hline' : stop ∉ line ++ [symbol] := by
        simp [hline, Ne.symm hstop]
      obtain ⟨hpiece, before, after, hrest, hat⟩ := ih h hline'
      exact ⟨hpiece, before, after, by simpa using hrest, hat⟩

theorem piece_end_le {window : List α} (h : piece ∈ pieces stop offset [] window) :
    offset ≤ piece.1 ∧ piece.1 + piece.2.length + 1 ≤ offset + window.length := by
  obtain ⟨-, before, after, hwindow, hat⟩ := mem_pieces h (by simp)
  have hlen := congrArg List.length hwindow
  simp at hlen
  omega

theorem take_piece_end {start n : Nat}
    (h : piece ∈ pieces stop start [] ((file.drop start).take n)) :
    stop ∉ piece.2 ∧ ∃ before,
      file.take (piece.1 + piece.2.length + 1) = before ++ piece.2 ++ [stop] := by
  obtain ⟨hfree, before, after, hwindow, hat⟩ := mem_pieces h (by simp)
  refine ⟨hfree, file.take start ++ before, ?_⟩
  have hle : before.length + piece.2.length + 1 ≤ n := by
    have hlength := congrArg List.length hwindow
    simp at hlength
    omega
  have hcut : piece.1 + piece.2.length + 1 = start + (before.length + piece.2.length + 1) := by
    omega
  have hwhole : (file.drop start).take (before.length + piece.2.length + 1) =
      before ++ piece.2 ++ [stop] := by
    have htake := congrArg (List.take (before.length + piece.2.length + 1)) hwindow
    rw [nil_append, take_take, Nat.min_eq_left hle] at htake
    rw [htake, Nat.add_assoc, take_length_add_append, take_length_add_append]
    simp
  rw [hcut, take_add, hwhole]
  simp

theorem pieces_take_encode {n : Nat} (h : piece ∈ pieces stop offset [] ((encode lines).take n)) :
    ∃ line ∈ lines, piece.2 = line.1 := by
  induction lines generalizing n offset with
  | nil => simp at h
  | cons line lines ih =>
    by_cases hn : n ≤ line.1.length
    · have hfragment : (encode (line :: lines)).take n = line.1.take n := by
        rw [encode_cons, take_append_of_le_length hn]
      rw [hfragment, pieces_fragment fun hmem => line.2 (mem_of_mem_take hmem)] at h
      simp at h
    · have hwhole : (encode (line :: lines)).take n =
          line.1 ++ stop :: (encode lines).take (n - line.1.length - 1) := by
        rw [encode_cons, take_append, take_of_length_le (by omega)]
        congr 1
        obtain ⟨k, hk⟩ : ∃ k, n - line.1.length = k + 1 := ⟨n - line.1.length - 1, by omega⟩
        simp [hk]
      rw [hwhole, pieces_line line.2] at h
      rcases mem_cons.mp h with rfl | h
      · exact ⟨line, by simp, rfl⟩
      · obtain ⟨found, hfound, heq⟩ := ih h
        exact ⟨found, mem_cons_of_mem _ hfound, heq⟩

theorem pieces_take_torn {torn : List α} (htorn : stop ∉ torn) (n offset : Nat) :
    pieces stop offset [] ((torn ++ stop :: encode lines).take n) = [] ∧ n ≤ torn.length ∨
      ∃ rest, pieces stop offset [] ((torn ++ stop :: encode lines).take n) =
          (offset, torn) :: rest ∧ torn.length < n ∧
        ∀ piece ∈ rest, ∃ line ∈ lines, piece.2 = line.1 := by
  by_cases hn : n ≤ torn.length
  · left
    rw [take_append_of_le_length hn]
    exact ⟨pieces_fragment (fun hmem => htorn (mem_of_mem_take hmem)) _ _, hn⟩
  · right
    obtain ⟨k, hk⟩ : ∃ k, n - torn.length = k + 1 := ⟨n - torn.length - 1, by omega⟩
    rw [take_append, take_of_length_le (by omega), hk, take_succ_cons,
      pieces_line htorn]
    exact ⟨_, rfl, by omega, fun piece hpiece => pieces_take_encode hpiece⟩

section Window

variable {front block : List (Line stop)} {last : Line stop} {start n : Nat}

theorem pieces_window_shown (hstart : start < (encode front).length + last.1.length)
    (hend : (encode front).length + last.1.length < start + n) :
    ∃ before after,
      pieces stop start [] (((encode (front ++ last :: block)).drop start).take n) =
        before ++ ((encode front).length + (start - (encode front).length),
          last.1.drop (start - (encode front).length)) :: after ∧
      (∀ piece ∈ before, piece.1 + piece.2.length + 1 ≤
        (encode front).length + (start - (encode front).length)) ∧
      ∀ piece ∈ after, ∃ line ∈ block, piece.2 = line.1 := by
  have hdrop : (encode (front ++ last :: block)).drop start =
      (encode front).drop start ++
        (last.1.drop (start - (encode front).length) ++ stop :: encode block) := by
    rw [encode_append, encode_cons, drop_append, drop_append_of_le_length (by omega)]
  obtain ⟨more, hmore⟩ : ∃ more, n = ((encode front).drop start).length +
      ((last.1.drop (start - (encode front).length)).length + (more + 1)) := by
    refine ⟨start + n - ((encode front).length + last.1.length) - 1, ?_⟩
    simp only [length_drop]
    omega
  have hfront : (encode front).drop start = [] ∨
      ((encode front).drop start).getLast? = some stop := by
    by_cases hle : (encode front).length ≤ start
    · exact Or.inl (drop_of_length_le hle)
    · right
      rw [List.getLast?_drop, if_neg hle]
      apply getLast?_encode
      rintro rfl
      simp at hle
  have hfree : stop ∉ last.1.drop (start - (encode front).length) :=
    fun hmem => last.2 (mem_of_mem_drop hmem)
  have hat : start + ((encode front).drop start).length =
      (encode front).length + (start - (encode front).length) := by
    simp only [length_drop]
    omega
  rw [hdrop, hmore, take_length_add_append, take_length_add_append,
    take_succ_cons, pieces_append_of_terminated hfront, hat, pieces_line hfree]
  refine ⟨_, _, rfl, ?_, fun piece hpiece => pieces_take_encode hpiece⟩
  intro piece hpiece
  have hends := piece_end_le hpiece
  omega

/-- A window that starts behind the line `last`: at most its first piece is not a whole line. -/
theorem pieces_window_behind (hstart : (encode front).length + last.1.length ≤ start)
    (hlt : start < (encode (front ++ last :: block)).length) :
    pieces stop start [] (((encode (front ++ last :: block)).drop start).take n) = [] ∨
      ∃ torn after,
        pieces stop start [] (((encode (front ++ last :: block)).drop start).take n) =
          (start, torn) :: after ∧
        ((encode front).length + last.1.length = start → torn = []) ∧
        ∀ piece ∈ after, ∃ line ∈ block, piece.2 = line.1 := by
  have hskip : encode (front ++ last :: block) =
      (encode front ++ last.1) ++ stop :: encode block := by simp
  have hdrop : ∃ torn rest, (encode (front ++ last :: block)).drop start =
        torn ++ stop :: encode rest ∧ stop ∉ torn ∧ (∀ line ∈ rest, line ∈ block) ∧
      ((encode front).length + last.1.length = start → torn = []) := by
    obtain ⟨more, rfl⟩ := Nat.exists_eq_add_of_le hstart
    have hlength : (encode front).length + last.1.length = (encode front ++ last.1).length := by
      simp
    rw [hskip, hlength, drop_length_add_append]
    cases more with
    | zero => exact ⟨[], block, rfl, by simp, fun line hline => hline, fun _ => rfl⟩
    | succ more =>
      have hmore : more < (encode block).length := by
        simp at hlt
        omega
      obtain ⟨before, line, rest, hblock, -, -, hdrop⟩ := drop_encode hmore
      refine ⟨_, rest, by rw [drop_succ_cons, hdrop], ?_, ?_, by omega⟩
      · exact fun hmem => line.2 (mem_of_mem_drop hmem)
      · intro later hlater
        simp [hblock, hlater]
  obtain ⟨torn, rest, hfile, hfree, hrest, htorn⟩ := hdrop
  rw [hfile]
  rcases pieces_take_torn hfree n start with ⟨hnone, -⟩ | ⟨after, hsome, -, hwhole⟩
  · exact Or.inl hnone
  · right
    refine ⟨torn, after, hsome, htorn, ?_⟩
    intro piece hpiece
    obtain ⟨line, hline, heq⟩ := hwhole piece hpiece
    exact ⟨line, hrest line hline, heq⟩

end Window

/-- A window shows the lines that end in it, the first of them from where the window begins. -/
theorem pieces_window (base start limit : Nat) (lines : List (Line stop)) :
    pieces stop (max base start) []
        (((encode lines).drop (start - base)).take (limit - max base start)) =
      ((placed base lines).filter fun place => start ≤ place.1 + place.2.1.length ∧
        place.1 + place.2.1.length < limit).map fun place =>
          (max place.1 start, place.2.1.drop (start - place.1)) := by
  induction lines generalizing base with
  | nil => simp [placed]
  | cons line lines ih =>
    have hrest := ih (base + line.1.length + 1)
    rw [placed, filter_cons]
    rcases Nat.lt_or_ge (base + line.1.length) start with hbefore | hends
    · have hdrop : (encode (line :: lines)).drop (start - base) =
          (encode lines).drop (start - (base + line.1.length + 1)) := by
        obtain ⟨more, hmore⟩ : ∃ more, start - base - line.1.length = more + 1 :=
          ⟨start - base - line.1.length - 1, by omega⟩
        rw [encode_cons, drop_append, drop_of_length_le (by omega), nil_append, hmore,
          drop_succ_cons]
        congr 1
        omega
      have hmax : max base start = max (base + line.1.length + 1) start := by omega
      rw [if_neg (by simp; omega), ← hrest, hdrop, hmax]
    · have hdrop : (encode (line :: lines)).drop (start - base) =
          line.1.drop (start - base) ++ stop :: encode lines := by
        rw [encode_cons, drop_append_of_le_length (by omega)]
      have hfree : stop ∉ line.1.drop (start - base) := fun hmem => line.2 (mem_of_mem_drop hmem)
      have hlength : (line.1.drop (start - base)).length = line.1.length - (start - base) :=
        length_drop
      have hmax : max (base + line.1.length + 1) start = base + line.1.length + 1 := by omega
      rw [hdrop]
      rcases Nat.lt_or_ge (base + line.1.length) limit with hshown | hbeyond
      · obtain ⟨more, hmore⟩ : ∃ more, limit - max base start =
            (line.1.drop (start - base)).length + (more + 1) :=
          ⟨limit - (base + line.1.length) - 1, by omega⟩
        have hnext : max base start + ((line.1.drop (start - base)).length) + 1 =
            base + line.1.length + 1 := by omega
        have hmore' : limit - (base + line.1.length + 1) = more := by omega
        have hzero : start - (base + line.1.length + 1) = 0 := by omega
        rw [hmax, hmore', hzero, drop_zero] at hrest
        rw [if_pos (by simp; omega), map_cons, ← hrest, hmore, take_length_add_append,
          take_succ_cons, pieces_line hfree, nil_append, length_nil, Nat.zero_add, hnext]
      · have hlater : (placed (base + line.1.length + 1) lines).filter (fun place =>
            start ≤ place.1 + place.2.1.length ∧ place.1 + place.2.1.length < limit) = [] := by
          rw [filter_eq_nil_iff]
          intro place hplace
          have hle := le_of_mem_placed hplace
          simp
          omega
        rw [if_neg (by simp; omega), hlater, map_nil, take_append_of_le_length (by omega),
          pieces_fragment fun hmem => hfree (mem_of_mem_take hmem)]

theorem pieces_drop_take (start limit : Nat) (lines : List (Line stop)) :
    pieces stop start [] (((encode lines).drop start).take (limit - start)) =
      ((placed 0 lines).filter fun place => start ≤ place.1 + place.2.1.length ∧
        place.1 + place.2.1.length < limit).map fun place =>
          (max place.1 start, place.2.1.drop (start - place.1)) := by
  have hwindow := pieces_window 0 start limit lines
  rwa [Nat.zero_max, Nat.sub_zero] at hwindow

theorem mem_pieces_iff {limit : Nat} :
    piece ∈ pieces stop offset [] (((encode lines).drop offset).take (limit - offset)) ↔
      ∃ place ∈ placed 0 lines, offset ≤ place.1 + place.2.1.length ∧
        place.1 + place.2.1.length < limit ∧
          (max place.1 offset, place.2.1.drop (offset - place.1)) = piece := by
  simp [pieces_drop_take, and_assoc]

/-- Where a window shows the first content of a line that ends in it, or where it begins. -/
def firstShown (start limit : Nat) (lines : List (Line stop)) : Nat :=
  (((placed 0 lines).find? fun place => start < place.1 + place.2.1.length ∧
    place.1 + place.2.1.length < limit ∧ 0 < place.2.1.length).map fun place =>
      max place.1 start).getD start

theorem firstShown_eq (start limit : Nat) (lines : List (Line stop)) :
    (((pieces stop start [] (((encode lines).drop start).take (limit - start))).find? fun piece =>
      !piece.2.isEmpty).map (·.1)).getD start = firstShown start limit lines := by
  have hshown (place : Nat × Line stop) :
      (decide (start ≤ place.1 + place.2.1.length ∧ place.1 + place.2.1.length < limit) = true ∧
          (!(place.2.1.drop (start - place.1)).isEmpty) = true) ↔
        start < place.1 + place.2.1.length ∧ place.1 + place.2.1.length < limit ∧
          0 < place.2.1.length := by
    have hcontent : place.2.1.drop (start - place.1) = [] ↔
        place.2.1.length ≤ start - place.1 := drop_eq_nil_iff
    simp only [decide_eq_true_eq, Bool.not_eq_true', ← Bool.not_eq_true, List.isEmpty_iff, hcontent]
    omega
  rw [pieces_drop_take, find?_map, find?_filter, Option.map_map, firstShown]
  simp only [Function.comp_def, hshown]

end Pieces

section Torn

variable [DecidableEq α]

/-- The lines of a file that are complete. -/
def settled (stop : α) (file : List α) : List α :=
  file.rdropWhile (· ≠ stop)

/-- What follows the last complete line. -/
def torn (stop : α) (file : List α) : List α :=
  file.rtakeWhile (· ≠ stop)

theorem settled_append_torn (stop : α) (file : List α) :
    settled stop file ++ torn stop file = file :=
  rdropWhile_append_rtakeWhile

theorem not_mem_torn (stop : α) (file : List α) : stop ∉ torn stop file := by
  intro hmem
  simpa using mem_rtakeWhile_imp hmem

/-- A file in which every line is complete. -/
def Terminated (stop : α) (file : List α) : Prop :=
  file = [] ∨ file.getLast? = some stop

instance (file : List α) : Decidable (Terminated stop file) :=
  inferInstanceAs (Decidable (_ ∨ _))

theorem terminated_settled (stop : α) (file : List α) : Terminated stop (settled stop file) := by
  by_cases hnil : settled stop file = []
  · exact .inl hnil
  · right
    have hlast := rdropWhile_last_not (fun symbol => decide (symbol ≠ stop)) file hnil
    rw [List.getLast?_eq_some_getLast hnil]
    simpa [settled] using hlast

/-- A file is split into its complete lines and the rest in one way only. -/
theorem settled_torn_append {front back : List α} (hfront : Terminated stop front)
    (hback : stop ∉ back) :
    settled stop (front ++ back) = front ∧ torn stop (front ++ back) = back := by
  have hsettled : settled stop (front ++ back) = front := by
    induction back using List.reverseRecOn with
    | nil =>
      rw [append_nil, settled, rdropWhile_eq_self_iff]
      intro hne
      rcases hfront with hnil | hlast
      · exact absurd hnil hne
      · rw [List.getLast?_eq_some_getLast hne, Option.some.injEq] at hlast
        simpa using hlast
    | append_singleton back symbol ih =>
      have hsymbol : symbol ≠ stop := by
        rintro rfl
        simp at hback
      rw [settled, ← append_assoc, rdropWhile_concat_pos _ _ _ (by simpa using hsymbol)]
      exact ih fun hmem => hback (by simp [hmem])
  refine ⟨hsettled, ?_⟩
  have hsplit := settled_append_torn stop (front ++ back)
  rw [hsettled] at hsplit
  exact append_cancel_left hsplit

theorem settled_eq_self (h : Terminated stop file) : settled stop file = file := by
  have hsplit : settled stop (file ++ []) = file := (settled_torn_append h (by simp)).1
  rwa [append_nil] at hsplit

theorem torn_eq_self (h : stop ∉ file) : torn stop file = file := by
  have hsplit : torn stop ([] ++ file) = file := (settled_torn_append (.inl rfl) h).2
  rwa [nil_append] at hsplit

theorem exists_last_stop (h : stop ∈ file) :
    ∃ front back, file = front ++ stop :: back ∧ stop ∉ back := by
  have hsplit := settled_append_torn stop file
  have hne : settled stop file ≠ [] := by
    intro hnil
    rw [hnil, nil_append] at hsplit
    rw [← hsplit] at h
    exact not_mem_torn stop file h
  obtain ⟨front, hfront⟩ :=
    List.getLast?_eq_some_iff.mp ((terminated_settled stop file).resolve_left hne)
  refine ⟨front, torn stop file, ?_, not_mem_torn stop file⟩
  nth_rewrite 1 [← hsplit]
  rw [hfront, append_assoc]
  rfl

end Torn

theorem splitOn_encode [DecidableEq α] (lines : List (Line stop)) :
    (encode lines).splitOn stop = lines.map (·.1) ++ [[]] := by
  induction lines with
  | nil => simp
  | cons line lines ih =>
    have hline : ∀ symbol ∈ line.1, (symbol == stop) = false := by
      intro symbol hsymbol
      rw [beq_eq_false_iff_ne]
      rintro rfl
      exact line.2 hsymbol
    rw [encode_cons, List.splitOn, splitOnP_append_cons_of_forall_mem hline _ (by simp)]
    simp only [List.splitOn] at ih
    rw [ih]
    rfl

end LineFile
