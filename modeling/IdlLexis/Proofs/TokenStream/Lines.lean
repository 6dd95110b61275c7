import IdlLexis.Proofs.TokenStream.Placement
/-!
Line numbers. Whatever has been asked of a stream, its line is that of its position: one more than
the line feeds before it. A token carries the line on which it starts, an open comment of many
lines and the end of the text included.
-/

namespace IdlLexis

namespace TokenStream

open Lexeme (Cuts Piece Placed)

variable {text : Bytes} {pieces : List Piece} {x : Placed} {token : Token}
  {cooked : List (Token × List Diagnostic)} {diagnostics : List Diagnostic} {ends : Nat}

theorem lineAt_length (text : Bytes) : lineAt text text.length = 1 + newlines text := by
  rw [lineAt, List.take_length]

theorem lineAt_mono {first second : Nat} (h : first ≤ second) :
    lineAt text first ≤ lineAt text second :=
  Nat.add_le_add_left ((List.take_prefix_take_left h).sublist.count_le _) 1

theorem Faces.line_eq {t : TokenStream} (h : t.Faces text pieces) :
    t.line = lineAt text t.position := by
  obtain ⟨passed, left, hstands, _, rfl⟩ := h
  rw [hstands.line_eq, hstands.position_eq, lineAt, List.take_left]

theorem line_of_cookAt (h : cookAt text x = some (token, diagnostics)) :
    token.line = lineAt text token.span.start := by
  obtain ⟨reading, _, hreading⟩ := Option.map_eq_some_iff.mp h
  rw [span_of_cookAt h, ← Token.line_ofReading x.span (lineAt text x.span.start) reading,
    hreading]

theorem line_of_delivered (hcuts : Cuts text pieces) (hcooked : cooked <+: cookAll 0 1 pieces)
    (htoken : token ∈ delivered text cooked ends) : token.line = lineAt text token.span.start := by
  rcases mem_delivered hcuts hcooked htoken with rfl | ⟨_, x, _, _, hcook⟩
  · exact (lineAt_length text).symm
  · exact line_of_cookAt hcook

/-- After any requests the stream stands in its text, on the line of its position, and each token
that it has handed out is on the line on which it starts. -/
theorem session_lines (htext : text.length + 1 < Offset.limit) (requests : List Request) :
    ∃ responses t, (ofBytes text).session requests = .ok (responses, t) ∧
      t.tokenStart ≤ t.position ∧ t.position ≤ text.length ∧ t.line = lineAt text t.position ∧
      ∀ token ∈ responses.flatMap Response.handed,
        token.line = lineAt text token.span.start := by
  have hlimit : text.length < Offset.limit := by omega
  obtain ⟨pieces, hcuts⟩ := exists_cuts hlimit
  obtain ⟨responses, t, rest, cooked, ends, hsession, hhanded, hdelivers⟩ :=
    session_ofBytes htext hcuts requests
  have hfaces := hdelivers.faces
  refine ⟨responses, t, hsession, hfaces.tokenStart_le, hfaces.position_le, hfaces.line_eq, ?_⟩
  intro token htoken
  rw [hhanded] at htoken
  exact line_of_delivered hcuts hdelivers.isPrefix htoken

/-- A doc comment of two lines, a quote that a backslash before the line feed leaves open, and a
comment of two lines that is left open. -/
theorem session_lines_open_comment :
    let text : Bytes := [0x2f, 0x2a, 0x2a, 0x0a, 0x2a, 0x2f, 0x22, 0x5c, 0x0a, 0x2f, 0x2a, 0x0a]
    let requests : List Request := [.next, .takeDoc, .nextInText, .next, .next]
    text.length + 1 < Offset.limit ∧
      ∃ responses t, (ofBytes text).session requests = .ok (responses, t) ∧
        t.tokenStart ≤ t.position ∧ t.position ≤ text.length ∧
        t.line = lineAt text t.position ∧
        ∀ token ∈ responses.flatMap Response.handed,
          token.line = lineAt text token.span.start :=
  ⟨by decide, session_lines (by decide) _⟩

end TokenStream

end IdlLexis
