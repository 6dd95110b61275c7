import IdlLexis.Proofs.Source.Layout
import IdlLexis.Proofs.Source.Moves
/-!
Where the moves of a reader end. A search that jumps, and a move that goes on byte by byte, both
come to the first offset that stops them and never leave the text, and a search gives the same as
its walk, which asks at each byte whether the text has ended. A zero byte of the text stops a move
only if the move is one that stops at zero bytes.
-/

namespace IdlLexis

namespace Reader

/-! The searches, one byte at a time. -/

/-- Moves on to the end of the text, or to a place before it at which the test stops the reader. -/
def walkUntil (test : Reader → Except Fault Bool) (r : Reader) : Except Fault Reader :=
  r.advanceWhile fun r => do
    if ← r.atEnd then return false
    else return !(← test r)

def walkToLineEnd (r : Reader) : Except Fault Reader :=
  r.walkUntil fun r => return (← r.look 0) == Byte.lineFeed

def walkCommentBody (r : Reader) : Except Fault (Bool × Reader) := do
  let stop ← r.walkUntil fun r => return (← r.look 0) == Byte.star && (← r.look 1) == Byte.slash
  if ← stop.atEnd then return (false, stop)
  else return (true, ← stop.advance 2)

def walkToDelimiter (r : Reader) (quote : Byte) : Except Fault (Option Byte × Reader) := do
  let stop ← r.walkUntil fun r => return isDelimiter quote (← r.look 0)
  if ← stop.atEnd then return (none, stop)
  else return (some (← stop.look 0), stop)

end Reader

namespace Source

variable {s : Source} {text : Bytes} {stops other : Nat → Prop} {probe answer : Nat → Bool}
  {test : Byte → Bool} {start found i ahead : Nat} {b quote : Byte}

/-- The first offset from `start` on that stops a move: the end of the text, or one before it. -/
def StopsFirst (text : Bytes) (start : Nat) (stops : Nat → Prop) (found : Nat) : Prop :=
  IsLeast {i | start ≤ i ∧ (i = text.length ∨ stops i)} found

namespace StopsFirst

theorem le_length (h : StopsFirst text start stops found) (hstart : start ≤ text.length) :
    found ≤ text.length := h.2 ⟨hstart, .inl rfl⟩

theorem le_found (h : StopsFirst text start stops found) : start ≤ found := h.1.1

theorem stops_found (h : StopsFirst text start stops found) (hfound : found ≠ text.length) :
    stops found := h.1.2.resolve_left hfound

theorem not_before (h : StopsFirst text start stops found) (hstart : start ≤ i) (hi : i < found) :
    ¬ stops i := fun hstops => absurd (h.2 ⟨hstart, .inr hstops⟩) (Nat.not_le.mpr hi)

/-- Only what stops a move within the text matters. -/
theorem congr (h : StopsFirst text start stops found) (hstart : start ≤ text.length)
    (hsame : ∀ i < text.length, (stops i ↔ other i)) : StopsFirst text start other found := by
  have hlength := h.le_length hstart
  constructor
  · refine ⟨h.le_found, ?_⟩
    rcases Nat.lt_or_eq_of_le hlength with hlt | heq
    · exact .inr ((hsame found hlt).mp (h.stops_found (Nat.ne_of_lt hlt)))
    · exact .inl heq
  · rintro i ⟨hi, hend | hother⟩
    · exact hend ▸ hlength
    · by_cases hlt : i < text.length
      · exact h.2 ⟨hi, .inr ((hsame i hlt).mpr hother)⟩
      · exact Nat.le_trans hlength (Nat.le_of_not_lt hlt)

end StopsFirst

theorem stopsFirst_firstIndex (hstart : start ≤ text.length) :
    StopsFirst text start (probe · = true) (firstIndex probe text.length start) := by
  have hle : firstIndex probe text.length start ≤ text.length := firstIndex_le hstart
  constructor
  · refine ⟨le_firstIndex .., ?_⟩
    rcases Nat.lt_or_eq_of_le hle with hlt | heq
    · exact .inr (test_firstIndex hlt)
    · exact .inl heq
  · rintro i ⟨hi, hend | hprobe⟩
    · exact hend ▸ hle
    · apply Nat.le_of_not_lt
      intro hlt
      rw [test_before_firstIndex hi hlt] at hprobe
      contradiction

/-! Readers that stand in the text. -/

theorem readerAt_eq (h : i ≤ s.length) : s.readerAt i = ⟨s, i⟩ := by
  rw [readerAt, Nat.min_eq_left h]

theorem toEnd_readerAt (i : Nat) : (s.readerAt i).toEnd = s.readerAt s.length :=
  (readerAt_eq (Nat.le_refl _)).symm

theorem look_readerAt (h : i + ahead ≤ s.length) :
    (s.readerAt i).look ahead = .ok (s.bytes.getD (i + ahead) 0) := by
  have hlt := s.length_lt_size
  have hread := s.padded_eq (show i + ahead < s.padded.size by omega)
  rw [readerAt_eq (by omega)]
  exact Reader.look_eq_ok.mpr hread

theorem advance_readerAt (h : i + ahead ≤ s.length) :
    (s.readerAt i).advance ahead = .ok (s.readerAt (i + ahead)) := by
  have hlimit := s.length_lt_limit
  have hadd := Offset.add_of_lt (show i + ahead < Offset.limit by omega)
  rw [readerAt_eq (by omega), readerAt_eq h]
  exact Fault.bind_eq_ok.mpr ⟨_, hadd, rfl⟩

/-! Walks and searches come to the same offset. -/

theorem advanceWhile_readerAt {test : Reader → Except Fault Bool} (hle : start ≤ found)
    (hfound : found ≤ s.length)
    (hgoes : ∀ i, start ≤ i → i < found → test (s.readerAt i) = .ok true)
    (hstops : test (s.readerAt found) = .ok false) :
    (s.readerAt start).advanceWhile test = .ok (s.readerAt found) := by
  obtain ⟨count, rfl⟩ := Nat.exists_eq_add_of_le hle
  induction count generalizing start with
  | zero => exact Reader.advanceWhile_of_false (Reader.faces_readerAt s start).offset_lt_size hstops
  | succ count ih =>
      have hadvance : (s.readerAt start).advance 1 = .ok (s.readerAt (start + 1)) :=
        advance_readerAt (by omega)
      rw [Reader.advanceWhile_of_true (Reader.faces_readerAt s start).offset_lt_size
        (hgoes start (Nat.le_refl _) (by omega)) hadvance]
      rw [← Nat.add_assoc, Nat.add_right_comm] at hfound hgoes hstops ⊢
      exact ih (by omega) hfound (fun i hi => hgoes i (Nat.le_of_succ_le hi)) hstops

theorem walkUntil_readerAt {test : Reader → Except Fault Bool}
    (htest : ∀ i < s.length, test (s.readerAt i) = .ok (answer i))
    (hanswer : ∀ i < s.length, (answer i = true ↔ stops i)) (hstart : start ≤ s.length)
    (h : StopsFirst s.bytes start stops found) :
    (s.readerAt start).walkUntil test = .ok (s.readerAt found) := by
  have hfound : found ≤ s.length := by
    rw [← length_bytes]
    exact h.le_length (by rwa [length_bytes])
  apply advanceWhile_readerAt h.le_found hfound
  · intro i hi hlt
    have hgoes : answer i = false :=
      Bool.eq_false_iff.mpr (mt (hanswer i (by omega)).mp (h.not_before hi hlt))
    rw [atEnd_readerAt, decide_eq_false (by omega), Fault.ok_bind,
      if_neg Bool.false_ne_true, htest i (by omega), hgoes]
    rfl
  · rw [atEnd_readerAt, Fault.ok_bind]
    by_cases hend : found = s.length
    · rw [if_pos (decide_eq_true (Nat.le_of_eq hend.symm))]
      rfl
    · have hstops : answer found = true :=
        (hanswer found (by omega)).mpr (h.stops_found (by rwa [length_bytes]))
      rw [if_neg (by simp; omega), htest found (by omega), hstops]
      rfl

theorem search_readerAt (hprobe : ∀ i < s.length, (probe i = true ↔ stops i))
    (hstart : start ≤ s.length) :
    ∃ found ≤ s.length, StopsFirst s.bytes start stops found ∧
      (s.readerAt start).search probe =
        .ok (if found = s.length then none else some found) := by
  have hlength := s.length_bytes
  have hfirst : StopsFirst s.bytes start (probe · = true)
      (firstIndex probe s.bytes.length start) := stopsFirst_firstIndex (by omega)
  have hstops := hfirst.congr (by omega) (by rwa [hlength])
  rw [hlength] at hstops
  refine ⟨_, ?_, hstops, ?_⟩
  · exact firstIndex_le hstart
  · rw [readerAt_eq hstart, Reader.search, if_pos hstart]
    have hle : firstIndex probe s.length start ≤ s.length := firstIndex_le hstart
    by_cases hend : firstIndex probe s.length start = s.length
    · simp [hend]
    · have hlt : firstIndex probe s.length start < s.length := by omega
      simp [hend, hlt]

/-! Each move by what stops it. -/

theorem getD_eq_iff (hb : b ≠ 0) (i : Nat) : text.getD i 0 = b ↔ text[i]? = some b := by
  rw [List.getD_eq_getElem?_getD]
  cases text[i]? with
  | none => simpa using hb.symm
  | some c => simp

theorem isAt_readerAt (hb : b ≠ 0) (start i : Nat) :
    (s.readerAt start).isAt b i = true ↔ s.bytes[i]? = some b := by
  rw [Reader.isAt, beq_iff_eq]
  exact s.padded_eq_some_iff hb

theorem lineEnd_lands (hstart : start ≤ s.length) :
    ∃ found ≤ s.length, StopsFirst s.bytes start (s.bytes[·]? = some Byte.lineFeed) found ∧
      (s.readerAt start).skipToLineEnd = .ok (s.readerAt found) ∧
      (s.readerAt start).walkToLineEnd = .ok (s.readerAt found) := by
  have hanswer : ∀ i < s.length, ((s.bytes.getD i 0 == Byte.lineFeed) = true ↔
      s.bytes[i]? = some Byte.lineFeed) := by
    intro i _
    rw [beq_iff_eq]
    exact getD_eq_iff (by decide) i
  obtain ⟨found, hfound, hstops, hsearch⟩ :=
    search_readerAt (fun i _ => isAt_readerAt (b := Byte.lineFeed) (by decide) start i) hstart
  refine ⟨found, hfound, hstops, ?_, ?_⟩
  · rw [Reader.skipToLineEnd, hsearch, Fault.ok_bind]
    by_cases hend : found = s.length
    · rw [if_pos hend, hend, ← toEnd_readerAt start]
      rfl
    · rw [if_neg hend, readerAt_eq hfound]
      rfl
  · apply walkUntil_readerAt _ hanswer hstart hstops
    intro i hi
    rw [look_readerAt (Nat.le_of_lt hi)]
    rfl

theorem pair_prefix_drop_iff {a b : Byte} (text : Bytes) (i : Nat) :
    [a, b] <+: text.drop i ↔ text[i]? = some a ∧ text[i + 1]? = some b := by
  rw [← Nat.add_zero i, ← List.getElem?_drop, Nat.add_zero, ← List.getElem?_drop]
  match text.drop i with
  | [] => simp
  | [c] => simp [List.cons_prefix_cons]
  | c :: d :: rest => simp [List.cons_prefix_cons, eq_comm]

/-- A mark that closes a comment ends within the text. -/
theorem advance_closing (hfound : found ≠ s.length)
    (h : StopsFirst s.bytes start ([Byte.star, Byte.slash] <+: s.bytes.drop ·) found) :
    (s.readerAt found).advance 2 = .ok (s.readerAt (found + 2)) := by
  apply advance_readerAt
  have hlength := (h.stops_found (by rwa [length_bytes])).length_le
  rw [List.length_drop, length_bytes, List.length_cons, List.length_singleton] at hlength
  omega

theorem commentBody_lands (hstart : start ≤ s.length) :
    ∃ found ≤ s.length,
      StopsFirst s.bytes start ([Byte.star, Byte.slash] <+: s.bytes.drop ·) found ∧
      (s.readerAt start).skipCommentBody =
        .ok (if found = s.length then (false, s.readerAt found)
          else (true, s.readerAt (found + 2))) ∧
      (s.readerAt start).walkCommentBody =
        .ok (if found = s.length then (false, s.readerAt found)
          else (true, s.readerAt (found + 2))) := by
  have hprobe : ∀ i < s.length,
      (((s.readerAt start).isAt Byte.star i && (s.readerAt start).isAt Byte.slash (i + 1)) = true ↔
        [Byte.star, Byte.slash] <+: s.bytes.drop i) := by
    intro i _
    rw [Bool.and_eq_true, isAt_readerAt (by decide), isAt_readerAt (by decide),
      pair_prefix_drop_iff]
  have hanswer : ∀ i < s.length,
      ((s.bytes.getD i 0 == Byte.star && s.bytes.getD (i + 1) 0 == Byte.slash) = true ↔
        [Byte.star, Byte.slash] <+: s.bytes.drop i) := by
    intro i _
    rw [Bool.and_eq_true, beq_iff_eq, beq_iff_eq, getD_eq_iff (by decide),
      getD_eq_iff (by decide), pair_prefix_drop_iff]
  obtain ⟨found, hfound, hstops, hsearch⟩ := search_readerAt hprobe hstart
  refine ⟨found, hfound, hstops, ?_, ?_⟩
  · rw [Reader.skipCommentBody, hsearch, Fault.ok_bind]
    by_cases hend : found = s.length
    · rw [if_pos hend, if_pos hend, hend, ← toEnd_readerAt start]
      rfl
    · rw [if_neg hend, if_neg hend]
      have hadvance := advance_closing hend hstops
      rw [readerAt_eq hfound] at hadvance
      exact Fault.bind_eq_ok.mpr ⟨_, hadvance, rfl⟩
  · have hwalk : (s.readerAt start).walkUntil (fun r =>
        return (← r.look 0) == Byte.star && (← r.look 1) == Byte.slash) =
          .ok (s.readerAt found) := by
      apply walkUntil_readerAt _ hanswer hstart hstops
      intro i hi
      rw [look_readerAt (Nat.le_of_lt hi), Fault.ok_bind, look_readerAt hi]
      rfl
    rw [Reader.walkCommentBody, hwalk, Fault.ok_bind, atEnd_readerAt, Fault.ok_bind]
    by_cases hend : found = s.length
    · rw [if_pos (decide_eq_true (Nat.le_of_eq hend.symm)), if_pos hend]
      rfl
    · rw [if_neg (by simp; omega), if_neg hend, advance_closing hend hstops]
      rfl

theorem getElem?_eq_getD (hi : i < text.length) : text[i]? = some (text.getD i 0) := by
  rw [List.getD_eq_getElem?_getD, List.getElem?_eq_getElem hi, Option.getD_some]

theorem isDelimiter_getD_iff (hi : i < text.length) :
    Reader.isDelimiter quote (text.getD i 0) = true ↔
      ∃ b ∈ [quote, Byte.backslash, Byte.lineFeed], text[i]? = some b := by
  rw [getElem?_eq_getD hi]
  simp [Reader.isDelimiter, or_assoc]

theorem delimiter_lands (hstart : start ≤ s.length) (quote : Byte) :
    ∃ found ≤ s.length,
      StopsFirst s.bytes start
        (fun i => ∃ b ∈ [quote, Byte.backslash, Byte.lineFeed], s.bytes[i]? = some b) found ∧
      (s.readerAt start).skipToDelimiter quote = .ok (s.bytes[found]?, s.readerAt found) ∧
      (s.readerAt start).walkToDelimiter quote = .ok (s.bytes[found]?, s.readerAt found) := by
  have hlength := s.length_bytes
  have hanswer : ∀ i < s.length, (Reader.isDelimiter quote (s.bytes.getD i 0) = true ↔
      ∃ b ∈ [quote, Byte.backslash, Byte.lineFeed], s.bytes[i]? = some b) :=
    fun i hi => isDelimiter_getD_iff (by rwa [hlength])
  have hprobe : ∀ i < s.length,
      ((((s.readerAt start).source.padded[i]?).any (Reader.isDelimiter quote)) = true ↔
        ∃ b ∈ [quote, Byte.backslash, Byte.lineFeed], s.bytes[i]? = some b) := by
    intro i hi
    have hread : (s.readerAt start).source.padded[i]? = some (s.bytes.getD i 0) :=
      (s.padded_of_lt hi).trans (getElem?_eq_getD (by rwa [hlength]))
    rw [hread, Option.any_some]
    exact hanswer i hi
  obtain ⟨found, hfound, hstops, hsearch⟩ := search_readerAt hprobe hstart
  have hend (heq : found = s.length) : s.bytes[found]? = none :=
    List.getElem?_eq_none (by omega)
  have hbyte (hne : found ≠ s.length) : s.bytes[found]? = some (s.bytes.getD found 0) :=
    getElem?_eq_getD (by omega)
  have hlook : (s.readerAt found).look 0 = .ok (s.bytes.getD found 0) := look_readerAt hfound
  refine ⟨found, hfound, hstops, ?_, ?_⟩
  · rw [Reader.skipToDelimiter, hsearch, Fault.ok_bind]
    by_cases heq : found = s.length
    · rw [if_pos heq, hend heq, heq, ← toEnd_readerAt start]
      rfl
    · rw [if_neg heq, hbyte heq]
      rw [readerAt_eq hfound] at hlook ⊢
      exact Fault.bind_eq_ok.mpr ⟨_, hlook, rfl⟩
  · have hwalk : (s.readerAt start).walkUntil (fun r =>
        return Reader.isDelimiter quote (← r.look 0)) = .ok (s.readerAt found) := by
      apply walkUntil_readerAt _ hanswer hstart hstops
      intro i hi
      rw [look_readerAt (Nat.le_of_lt hi)]
      rfl
    rw [Reader.walkToDelimiter, hwalk, Fault.ok_bind, atEnd_readerAt, Fault.ok_bind]
    by_cases heq : found = s.length
    · rw [if_pos (decide_eq_true (Nat.le_of_eq heq.symm)), hend heq]
      rfl
    · rw [if_neg (by simp; omega), hlook, hbyte heq]
      rfl

/-- A class without the zero byte ends at the latest where the text does. -/
theorem class_lands (hstart : start ≤ s.length) (hzero : test 0 = false) :
    ∃ found ≤ s.length, IsLeast {i | start ≤ i ∧ test (s.bytes.getD i 0) = false} found ∧
      (s.readerAt start).skipWhile test = .ok (s.readerAt found) := by
  have hlength := s.length_bytes
  have hend : s.bytes.getD s.length 0 = 0 := by
    rw [List.getD_eq_getElem?_getD, List.getElem?_eq_none (by omega)]
    rfl
  have hfirst : StopsFirst s.bytes start (fun i => (!test (s.bytes.getD i 0)) = true)
      (firstIndex (fun i => !test (s.bytes.getD i 0)) s.bytes.length start) :=
    stopsFirst_firstIndex (by omega)
  generalize firstIndex _ _ _ = found at hfirst
  have hfound : found ≤ s.length := by
    rw [← hlength]
    exact hfirst.le_length (by omega)
  have hstops : test (s.bytes.getD found 0) = false := by
    by_cases heq : found = s.length
    · rw [heq, hend, hzero]
    · simpa using hfirst.stops_found (by omega)
  refine ⟨found, hfound, ⟨⟨hfirst.le_found, hstops⟩, ?_⟩, ?_⟩
  · rintro i ⟨hi, hgoes⟩
    exact hfirst.2 ⟨hi, .inr (by simpa using hgoes)⟩
  · apply advanceWhile_readerAt hfirst.le_found hfound
    · intro i hi hlt
      have hgoes : test (s.bytes.getD i 0) = true := by simpa using hfirst.not_before hi hlt
      rw [look_readerAt (by omega)]
      exact congrArg Except.ok hgoes
    · rw [look_readerAt hfound]
      exact congrArg Except.ok hstops

/-- Where the moves of a reader that starts at an offset of the text end. -/
structure Lands (s : Source) (text : Bytes) (start : Nat) : Prop where
  lineEnd : ∃ found ≤ text.length,
    IsLeast {i | start ≤ i ∧ (i = text.length ∨ text[i]? = some Byte.lineFeed)} found ∧
      (s.readerAt start).skipToLineEnd = .ok ⟨s, found⟩
  commentBody :
    (∃ found, found + 2 ≤ text.length ∧
      IsLeast {i | start ≤ i ∧ [Byte.star, Byte.slash] <+: text.drop i} found ∧
      (s.readerAt start).skipCommentBody = .ok (true, ⟨s, found + 2⟩)) ∨
    (∀ i, start ≤ i → ¬ [Byte.star, Byte.slash] <+: text.drop i) ∧
      (s.readerAt start).skipCommentBody = .ok (false, ⟨s, text.length⟩)
  /-- What is found is not a zero byte, so zero in its place means that the text has ended. -/
  delimiter : ∀ quote : Quote, ∃ found ≤ text.length,
    IsLeast {i | start ≤ i ∧ (i = text.length ∨
      ∃ b ∈ [quote.byte, Byte.backslash, Byte.lineFeed], text[i]? = some b)} found ∧
      (s.readerAt start).skipToDelimiter quote.byte = .ok (text[found]?, ⟨s, found⟩) ∧
      ((text[found]?).getD 0 = 0 ↔ found = text.length)
  blanks : ∃ found ≤ text.length,
    IsLeast {i | start ≤ i ∧ text.getD i 0 ∉ [Byte.space, Byte.tab, Byte.carriageReturn]} found ∧
      (s.readerAt start).skipBlanks = .ok ⟨s, found⟩
  ofClass : ∀ test : Byte → Bool, test 0 = false → ∃ found ≤ text.length,
    IsLeast {i | start ≤ i ∧ test (text.getD i 0) = false} found ∧
      (s.readerAt start).skipWhile test = .ok ⟨s, found⟩
  walks : (s.readerAt start).skipToLineEnd = (s.readerAt start).walkToLineEnd ∧
    (s.readerAt start).skipCommentBody = (s.readerAt start).walkCommentBody ∧
    ∀ quote : Quote,
      (s.readerAt start).skipToDelimiter quote.byte = (s.readerAt start).walkToDelimiter quote.byte

theorem commentBody_cases (hstart : start ≤ s.length) :
    (∃ found, found + 2 ≤ s.length ∧
      IsLeast {i | start ≤ i ∧ [Byte.star, Byte.slash] <+: s.bytes.drop i} found ∧
      (s.readerAt start).skipCommentBody = .ok (true, ⟨s, found + 2⟩)) ∨
    (∀ i, start ≤ i → ¬ [Byte.star, Byte.slash] <+: s.bytes.drop i) ∧
      (s.readerAt start).skipCommentBody = .ok (false, ⟨s, s.length⟩) := by
  have hlength := s.length_bytes
  obtain ⟨found, hfound, hstops, hskip, _⟩ := commentBody_lands hstart
  by_cases hend : found = s.length
  · right
    subst hend
    refine ⟨?_, ?_⟩
    · intro i hi hcloses
      have hlt := hcloses.length_le
      rw [List.length_drop, List.length_cons] at hlt
      exact hstops.not_before hi (by omega) hcloses
    · rw [hskip, if_pos rfl, readerAt_eq (Nat.le_refl _)]
  · left
    have hcloses := hstops.stops_found (by rwa [hlength])
    have hwithin : found + 2 ≤ s.length := by
      have hle := hcloses.length_le
      rw [List.length_drop, List.length_cons, List.length_singleton] at hle
      omega
    refine ⟨found, hwithin, ⟨⟨hstops.le_found, hcloses⟩, ?_⟩, ?_⟩
    · rintro i ⟨hi, hcloses⟩
      exact hstops.2 ⟨hi, .inr hcloses⟩
    · rw [hskip, if_neg hend, readerAt_eq hwithin]

theorem getD_delimiter_iff {q : Quote} (h : StopsFirst text start
      (fun i => ∃ b ∈ [q.byte, Byte.backslash, Byte.lineFeed], text[i]? = some b) found) :
    (text[found]?).getD 0 = 0 ↔ found = text.length := by
  constructor
  · intro hzero
    apply Decidable.byContradiction
    intro hend
    obtain ⟨b, hb, hget⟩ := h.stops_found hend
    rw [hget, Option.getD_some] at hzero
    subst hzero
    revert hb
    cases q <;> decide
  · rintro rfl
    rw [List.getElem?_eq_none (Nat.le_refl _)]
    rfl

theorem isBlank_eq_false_iff :
    Byte.isBlank b = false ↔ b ∉ [Byte.space, Byte.tab, Byte.carriageReturn] := by
  simp [Byte.isBlank, and_assoc]

theorem lands (hstart : start ≤ s.length) : s.Lands s.bytes start := by
  have hlength := s.length_bytes
  obtain ⟨line, hline, hlineStops, hlineSkip, hlineWalk⟩ := lineEnd_lands hstart
  obtain ⟨_, _, _, hbodySkip, hbodyWalk⟩ := commentBody_lands hstart
  constructor
  case lineEnd =>
    rw [hlength]
    exact ⟨line, hline, hlength ▸ hlineStops, readerAt_eq hline ▸ hlineSkip⟩
  case commentBody =>
    rw [hlength]
    exact commentBody_cases hstart
  case delimiter =>
    intro quote
    obtain ⟨found, hfound, hstops, hskip, _⟩ := delimiter_lands hstart quote.byte
    exact ⟨found, hlength ▸ hfound, hstops, readerAt_eq hfound ▸ hskip,
      getD_delimiter_iff hstops⟩
  case blanks =>
    obtain ⟨found, hfound, hleast, hskip⟩ :=
      class_lands hstart (show Byte.isBlank 0 = false by decide)
    simp only [isBlank_eq_false_iff] at hleast
    exact ⟨found, hlength ▸ hfound, hleast, readerAt_eq hfound ▸ hskip⟩
  case ofClass =>
    intro test hzero
    obtain ⟨found, hfound, hleast, hskip⟩ := class_lands hstart hzero
    exact ⟨found, hlength ▸ hfound, hleast, readerAt_eq hfound ▸ hskip⟩
  case walks =>
    refine ⟨hlineSkip.trans hlineWalk.symm, hbodySkip.trans hbodyWalk.symm, ?_⟩
    intro quote
    obtain ⟨_, _, _, hskip, hwalk⟩ := delimiter_lands hstart quote.byte
    exact hskip.trans hwalk.symm

/-- In a text every search comes to the first place that it looks for, as its walk does, and every
move by bytes to the first byte that is not of its class; where there is none, to the end. -/
theorem ofBytes_lands (htext : text.length < Offset.limit) (hstart : start ≤ text.length) :
    (ofBytes text).Lands text start := by
  have hlands : (ofBytes text).Lands (ofBytes text).bytes start := by
    apply lands
    rwa [length_ofBytes_of_lt htext]
  rwa [bytes_ofBytes_of_lt htext] at hlands

/-- A comment whose opening shares its star with no closing mark, with a zero byte and a quote in
it. -/
theorem ofBytes_lands_inner_zero :
    let text : Bytes := [0x2f, 0x2a, 0x2f, 0x00, 0x22, 0x2a, 0x2f]
    text.length < Offset.limit ∧ 2 ≤ text.length ∧ (ofBytes text).Lands text 2 :=
  ⟨by decide, by decide, ofBytes_lands (by decide) (by decide)⟩

end Source

end IdlLexis
