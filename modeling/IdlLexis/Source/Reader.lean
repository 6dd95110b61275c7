import IdlLexis.Source
/-!
A reader stands at an offset of a source. It may stand, and read, anywhere in the padded layout;
a read past it is a fault. The searches look at the text alone, so they are faults for a reader
that has left the text. The lemmas about each move say that the source stays and that no move
goes back.
-/

namespace IdlLexis

structure Reader where
  source : Source
  offset : Nat

namespace Source

def reader (s : Source) : Reader := ⟨s, 0⟩

def readerAt (s : Source) (offset : Nat) : Reader := ⟨s, min offset s.length⟩

end Source

namespace Reader

/-- The byte `ahead` places on from the reader. -/
def look (r : Reader) (ahead : Nat) : Except Fault Byte :=
  match r.source.padded[r.offset + ahead]? with
  | some b => .ok b
  | none => .error .outsideText

/-- A zero byte of the text is not its end; the first byte after the text is. -/
def atEnd (r : Reader) : Except Fault Bool := do
  let b ← r.look 0
  return b == 0 && r.source.length ≤ r.offset

def advance (r : Reader) (count : Nat) : Except Fault Reader := do
  let offset ← Offset.add r.offset count
  return { r with offset }

def between (r : Reader) (start stop : Nat) : Except Fault Bytes :=
  if start ≤ stop ∧ stop ≤ r.source.length then
    .ok (r.source.padded.extract start stop).toList
  else .error .badRange

def readSince (r : Reader) (start : Nat) : Except Fault Bytes := r.between start r.offset

theorem advance_eq_ok {r r' : Reader} {count : Nat} (h : r.advance count = .ok r') :
    r' = { r with offset := r.offset + count } := by
  obtain ⟨offset, hadd, hret⟩ := Fault.bind_eq_ok.mp h
  cases hret
  rw [(Offset.add_eq_ok hadd).1]

theorem advance_nearer {r r' : Reader} (hinside : r.offset < r.source.padded.size)
    (h : r.advance 1 = .ok r') :
    r'.source.padded.size - r'.offset < r.source.padded.size - r.offset := by
  rw [advance_eq_ok h]
  dsimp only
  omega

/-- Moves on one byte at a time for as long as `test` holds of the reader. -/
def advanceWhile (test : Reader → Except Fault Bool) (r : Reader) : Except Fault Reader :=
  if hinside : r.offset < r.source.padded.size then
    match test r with
    | .error fault => .error fault
    | .ok false => .ok r
    | .ok true =>
        match hstep : r.advance 1 with
        | .error fault => .error fault
        | .ok r' =>
            have := advance_nearer hinside hstep
            advanceWhile test r'
  else .error .outsideText
termination_by r.source.padded.size - r.offset

def skipWhile (r : Reader) (test : Byte → Bool) : Except Fault Reader :=
  r.advanceWhile fun r => test <$> r.look 0

def skipBlanks (r : Reader) : Except Fault Reader := r.skipWhile Byte.isBlank

/-! Searches of the text that is left, given by a test on offsets. -/

def isAt (r : Reader) (b : Byte) (offset : Nat) : Bool :=
  r.source.padded[offset]? == some b

def search (r : Reader) (test : Nat → Bool) : Except Fault (Option Nat) :=
  if r.offset ≤ r.source.length then
    let found := Source.firstIndex test r.source.length r.offset
    .ok (if found < r.source.length then some found else none)
  else .error .badRange

def toEnd (r : Reader) : Reader := { r with offset := r.source.length }

def skipToLineEnd (r : Reader) : Except Fault Reader := do
  match ← r.search (r.isAt Byte.lineFeed) with
  | some found => return { r with offset := found }
  | none => return r.toEnd

/-- Passes the closing mark of a comment; without one, `false` and the end of the text. -/
def skipCommentBody (r : Reader) : Except Fault (Bool × Reader) := do
  let closes := fun i => r.isAt Byte.star i && r.isAt Byte.slash (i + 1)
  match ← r.search closes with
  | some found =>
      let stop ← { r with offset := found }.advance 2
      return (true, stop)
  | none => return (false, r.toEnd)

def isDelimiter (quote b : Byte) : Bool :=
  b == quote || b == Byte.backslash || b == Byte.lineFeed

/-- Stops at a quote, a backslash or a line feed and gives it, or at the end of the text. -/
def skipToDelimiter (r : Reader) (quote : Byte) : Except Fault (Option Byte × Reader) := do
  match ← r.search (fun i => (r.source.padded[i]?).any (isDelimiter quote)) with
  | some found =>
      let stopped := { r with offset := found }
      let b ← stopped.look 0
      return (some b, stopped)
  | none => return (none, r.toEnd)

/-! What a move that succeeds has done. -/

structure Reaches (r r' : Reader) : Prop where
  source_eq : r'.source = r.source
  offset_le : r.offset ≤ r'.offset

theorem Reaches.refl (r : Reader) : r.Reaches r := ⟨rfl, Nat.le_refl _⟩

theorem Reaches.trans {r₁ r₂ r₃ : Reader} (h₁₂ : r₁.Reaches r₂) (h₂₃ : r₂.Reaches r₃) :
    r₁.Reaches r₃ :=
  ⟨h₂₃.source_eq.trans h₁₂.source_eq, Nat.le_trans h₁₂.offset_le h₂₃.offset_le⟩

theorem look_eq_ok {r : Reader} {ahead : Nat} {b : Byte} :
    r.look ahead = .ok b ↔ r.source.padded[r.offset + ahead]? = some b := by
  unfold look
  split
  · next found heq =>
      rw [heq]
      constructor
      · intro h
        cases h
        rfl
      · intro h
        cases h
        rfl
  · next heq =>
      rw [heq]
      constructor <;> intro h <;> cases h

theorem lt_size_of_look {r : Reader} {ahead : Nat} {b : Byte} (h : r.look ahead = .ok b) :
    r.offset + ahead < r.source.padded.size :=
  (Array.getElem?_eq_some_iff.mp (look_eq_ok.mp h)).1

theorem Reaches.of_advance {r r' : Reader} {count : Nat} (h : r.advance count = .ok r') :
    r.Reaches r' := by
  rw [advance_eq_ok h]
  exact ⟨rfl, Nat.le_add_right ..⟩

theorem Reaches.of_advanceWhile {test : Reader → Except Fault Bool} {r r' : Reader}
    (h : r.advanceWhile test = .ok r') : r.Reaches r' := by
  fun_induction advanceWhile test r with
  | case1 => contradiction
  | case2 =>
      cases h
      exact .refl _
  | case3 => contradiction
  | case4 r _ _ r' hstep _ ih => exact (Reaches.of_advance hstep).trans (ih h)
  | case5 => contradiction

theorem Reaches.of_skipWhile {r r' : Reader} {test : Byte → Bool}
    (h : r.skipWhile test = .ok r') : r.Reaches r' := .of_advanceWhile h

theorem search_eq_some {r : Reader} {test : Nat → Bool} {found : Nat}
    (h : r.search test = .ok (some found)) :
    r.offset ≤ found ∧ found < r.source.length ∧ test found = true := by
  unfold search at h
  split at h
  · next hle =>
      have hfound := Except.ok.inj h
      split at hfound
      · next hlt =>
          cases hfound
          exact ⟨Source.le_firstIndex .., hlt, Source.test_firstIndex hlt⟩
      · contradiction
  · contradiction

theorem le_length_of_search {r : Reader} {test : Nat → Bool} {result : Option Nat}
    (h : r.search test = .ok result) : r.offset ≤ r.source.length := by
  unfold search at h
  split at h
  · assumption
  · contradiction

theorem Reaches.of_skipToLineEnd {r r' : Reader} (h : r.skipToLineEnd = .ok r') :
    r.Reaches r' := by
  obtain ⟨result, hsearch, hret⟩ := Fault.bind_eq_ok.mp h
  cases result with
  | some found =>
      cases hret
      exact ⟨rfl, (search_eq_some hsearch).1⟩
  | none =>
      cases hret
      exact ⟨rfl, le_length_of_search hsearch⟩

theorem Reaches.of_skipCommentBody {r r' : Reader} {closed : Bool}
    (h : r.skipCommentBody = .ok (closed, r')) : r.Reaches r' := by
  obtain ⟨result, hsearch, hret⟩ := Fault.bind_eq_ok.mp h
  cases result with
  | some found =>
      obtain ⟨stop, hadvance, hpair⟩ := Fault.bind_eq_ok.mp hret
      cases hpair
      have hfound : r.Reaches { r with offset := found } := ⟨rfl, (search_eq_some hsearch).1⟩
      exact hfound.trans (.of_advance hadvance)
  | none =>
      cases hret
      exact ⟨rfl, le_length_of_search hsearch⟩

theorem skipToDelimiter_eq_some {r r' : Reader} {quote b : Byte}
    (h : r.skipToDelimiter quote = .ok (some b, r')) :
    r.Reaches r' ∧ r'.offset < r.source.length ∧ r'.look 0 = .ok b := by
  obtain ⟨result, hsearch, hret⟩ := Fault.bind_eq_ok.mp h
  cases result with
  | some found =>
      obtain ⟨hle, hlt, _⟩ := search_eq_some hsearch
      obtain ⟨byte, hlook, hpair⟩ := Fault.bind_eq_ok.mp hret
      cases hpair
      exact ⟨⟨rfl, hle⟩, hlt, hlook⟩
  | none => cases hret

theorem Reaches.of_skipToDelimiter {r r' : Reader} {quote : Byte} {stopped : Option Byte}
    (h : r.skipToDelimiter quote = .ok (stopped, r')) : r.Reaches r' := by
  cases stopped with
  | some b => exact (skipToDelimiter_eq_some h).1
  | none =>
      obtain ⟨result, hsearch, hret⟩ := Fault.bind_eq_ok.mp h
      cases result with
      | some found =>
          obtain ⟨byte, _, hpair⟩ := Fault.bind_eq_ok.mp hret
          cases hpair
      | none =>
          cases hret
          exact ⟨rfl, le_length_of_search hsearch⟩

end Reader

end IdlLexis
