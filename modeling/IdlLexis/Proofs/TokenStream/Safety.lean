import IdlLexis.Proofs.TokenStream.History
/-!
No read or sum of a scan goes out of range. A reader that stands in its text goes on standing in
it, and a stream that faces its text goes on facing it, whatever is asked of them.
-/

namespace IdlLexis

namespace Reader

/-- The lexemes that come next, and the reader after them; past the last one, its end again. -/
def nextTimes (r : Reader) : Nat → Except Fault (List Lexeme × Reader)
  | 0 => .ok ([], r)
  | count + 1 => do
      let (x, r) ← r.next
      let (rest, last) ← r.nextTimes count
      return (x :: rest, last)

theorem nextTimes_succ {r stop : Reader} {x : Lexeme} (hnext : r.next = .ok (x, stop))
    (count : Nat) :
    r.nextTimes (count + 1) =
      (fun (found, last) => (x :: found, last)) <$> stop.nextTimes count := by
  rw [nextTimes, hnext, Fault.ok_bind]
  dsimp only
  cases stop.nextTimes count with
  | error fault => rfl
  | ok found => rfl

theorem Inside.next {r : Reader} (h : r.Inside) :
    ∃ x r', r.next = .ok (x, r') ∧ r'.Inside ∧ r'.source = r.source := by
  have hfaces := h.faces
  cases htext : r.rest with
  | nil =>
      rw [htext] at hfaces
      exact ⟨_, r, hfaces.next_nil, h, rfl⟩
  | cons b text =>
      rw [htext] at hfaces
      obtain ⟨category, front, hfirst, hnext⟩ := hfaces.next_cons
      obtain ⟨tail, htail⟩ := hfirst.isPrefix
      rw [← htail] at hfaces
      exact ⟨_, _, hnext, hfaces.after.inside, rfl⟩

theorem Inside.nextTimes {r : Reader} (h : r.Inside) (count : Nat) :
    ∃ found last, r.nextTimes count = .ok (found, last) ∧ last.Inside ∧
      last.source = r.source := by
  induction count generalizing r with
  | zero => exact ⟨[], r, rfl, h, rfl⟩
  | succ count ih =>
      obtain ⟨x, r', hnext, hinside, hsource⟩ := h.next
      obtain ⟨found, last, htimes, hlast, hlastSource⟩ := ih hinside
      refine ⟨x :: found, last, ?_, hlast, hlastSource.trans hsource⟩
      rw [nextTimes_succ hnext, htimes]
      rfl

end Reader

namespace TokenStream

open Lexeme (Cuts Piece)

variable {t : TokenStream} {text : Bytes} {pieces : List Piece}

theorem stands_ofBytes (htext : text.length < Offset.limit)
    (hlines : newlines text + 1 < Offset.limit) :
    (ofBytes text).Stands [] text := by
  refine ⟨Source.bytes_ofBytes_of_lt htext, rfl, rfl, hlines, Nat.le_refl _, ?_⟩
  intro hexhausted
  cases hexhausted

theorem faces_ofBytes (htext : text.length < Offset.limit)
    (hlines : newlines text + 1 < Offset.limit) (hcuts : Cuts text pieces) :
    (ofBytes text).Faces text pieces :=
  ⟨[], text, stands_ofBytes htext hlines, hcuts, rfl⟩

/-- A text holds no more line feeds than bytes, so that its length fits in an offset is enough. -/
theorem faces_ofBytes_of_lt (htext : text.length + 1 < Offset.limit) (hcuts : Cuts text pieces) :
    (ofBytes text).Faces text pieces := by
  have hlines := newlines_le_length text
  exact faces_ofBytes (by omega) (by omega) hcuts

theorem Faces.session (h : t.Faces text pieces) (requests : List Request) :
    ∃ responses last rest, t.session requests = .ok (responses, last) ∧ last.Faces text rest := by
  obtain ⟨responses, last, rest, _, _, hsession, _, hdelivers⟩ := h.session_delivers requests
  exact ⟨responses, last, rest, hsession, hdelivers.faces⟩

/-- No scan of a text faults: not one of its lexemes, not one that starts at any offset and goes
on for any time, and no session with its token stream. Readers and streams stay in the text. -/
theorem scan_ne_fault (htext : text.length < Offset.limit)
    (hlines : newlines text + 1 < Offset.limit) :
    (∃ found, lexemes text = .ok found) ∧
    (∀ offset count, ∃ found last,
      ((Source.ofBytes text).readerAt offset).nextTimes count = .ok (found, last) ∧
        last.offset ≤ text.length) ∧
    ∀ requests, ∃ responses last,
      (ofBytes text).session requests = .ok (responses, last) ∧
        last.tokenStart ≤ last.position ∧ last.position ≤ text.length := by
  obtain ⟨pieces, hcuts⟩ := exists_cuts htext
  refine ⟨⟨_, lexemes_eq htext hcuts⟩, ?_, ?_⟩
  · intro offset count
    obtain ⟨found, last, htimes, hinside, hsource⟩ :=
      (Reader.inside_readerAt (Source.ofBytes text) offset).nextTimes count
    refine ⟨found, last, htimes, ?_⟩
    have hlength : last.source.length = text.length := by
      rw [hsource]
      exact Source.length_ofBytes_of_lt htext
    rw [← hlength]
    exact hinside
  · intro requests
    obtain ⟨responses, last, rest, hsession, hfaces⟩ :=
      (faces_ofBytes htext hlines hcuts).session requests
    exact ⟨responses, last, hsession, hfaces.tokenStart_le, hfaces.position_le⟩

/-- A text whose last lexeme is an open comment of two lines that ends in a lone star. -/
theorem scan_ne_fault_open_comment :
    let text : Bytes := [0x2d, 0x2f, 0x2a, 0x0a, 0x2a]
    text.length < Offset.limit ∧ newlines text + 1 < Offset.limit ∧
      (∃ found, lexemes text = .ok found) ∧
      (∀ offset count, ∃ found last,
        ((Source.ofBytes text).readerAt offset).nextTimes count = .ok (found, last) ∧
          last.offset ≤ text.length) ∧
      ∀ requests, ∃ responses last,
        (ofBytes text).session requests = .ok (responses, last) ∧
          last.tokenStart ≤ last.position ∧ last.position ≤ text.length :=
  ⟨by decide, by decide, scan_ne_fault (by decide) (by decide)⟩

end TokenStream

end IdlLexis
