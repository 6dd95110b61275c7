import IdlLexis.Proofs.TokenStream.Lines
import IdlLexis.Proofs.TokenStream.Literals
/-!
Diagnostics and error tokens. The log of a stream has one entry for each error token that the
stream has handed out, in the same order and at the same place, and keeps its entries. A comment
that is left open is the last thing that is reported.
-/

namespace IdlLexis

open Lexeme (Cuts Piece Placed)

namespace Token

def isError (t : Token) : Bool := t.kind.same .error

theorem isError_iff (t : Token) : t.isError = true ↔ t.kind = .error := by
  unfold isError
  cases t.kind <;> simp [Kind.same]

end Token

/-- Where something starts: its offset, and the line on which that lies. -/
structure Place where
  offset : Nat
  line : Nat

def Place.Before (p q : Place) : Prop := p.offset < q.offset ∧ p.line ≤ q.line

def Token.place (t : Token) : Place := ⟨t.span.start, t.line⟩

def Diagnostic.place (d : Diagnostic) : Place := ⟨d.offset, d.line⟩

namespace TokenStream

variable {t t' : TokenStream} {text : Bytes} {pieces rest : List Piece} {x : Placed}
  {token : Token} {d : Diagnostic} {cooked : List (Token × List Diagnostic)}
  {diagnostics : List Diagnostic} {ends : Nat}

/-! A cooked token comes with a diagnostic exactly if it is an error. -/

theorem places_of_cookAt (hlies : x.LiesIn text)
    (h : cookAt text x = some (token, diagnostics)) :
    diagnostics.map Diagnostic.place = ([token].filter Token.isError).map Token.place := by
  obtain ⟨reading, hmeaning, hreading⟩ := Option.map_eq_some_iff.mp h
  cases reading with
  | ok kind =>
      cases hreading
      have hkind := (Token.kind_of_meaning hlies.first.category_ne_endOfText hmeaning).2
      rw [List.filter_cons_of_neg (mt (Token.isError_iff _).mp hkind)]
      rfl
  | error complaint =>
      cases hreading
      rfl

theorem places_of_cooked (hcuts : Cuts text pieces)
    (hcooked : ∀ entry ∈ cooked, entry ∈ cookAll 0 1 pieces) :
    (cooked.flatMap Prod.snd).map Diagnostic.place =
      ((cooked.map Prod.fst).filter Token.isError).map Token.place := by
  induction cooked with
  | nil => rfl
  | cons entry cooked ih =>
      obtain ⟨hentry, hrest⟩ := List.forall_mem_cons.mp hcooked
      obtain ⟨x, _, hlies, hcook⟩ := exists_placed hcuts hentry
      rw [List.flatMap_cons, List.map_append, places_of_cookAt hlies hcook, ih hrest,
        List.map_cons, ← List.map_append, ← List.filter_append, List.singleton_append]

theorem errors_of_delivered (text : Bytes) (cooked : List (Token × List Diagnostic))
    (ends : Nat) :
    (delivered text cooked ends).filter Token.isError =
      (cooked.map Prod.fst).filter Token.isError := by
  have hends : (List.replicate ends (endOf text)).filter Token.isError = [] := by
    rw [List.filter_eq_nil_iff]
    intro token htoken
    rw [List.eq_of_mem_replicate htoken]
    exact Bool.false_ne_true
  rw [delivered, List.filter_append, hends, List.append_nil]

theorem Delivers.places_eq (hcuts : Cuts text pieces)
    (h : (ofBytes text).Delivers text pieces cooked ends t rest) :
    t.log.toList.map Diagnostic.place =
      ((delivered text cooked ends).filter Token.isError).map Token.place := by
  rw [errors_of_delivered, h.log_eq]
  exact places_of_cooked hcuts fun _ hentry => h.isPrefix.subset hentry

/-! Errors are handed out in order, and after an open comment there is nothing but the end. -/

theorem exists_liesIn (hcuts : Cuts text pieces) (hcooked : cooked <+: cookAll 0 1 pieces)
    (htoken : token ∈ delivered text cooked ends) (herror : token.isError = true) :
    ∃ x : Placed, x.LiesIn text ∧ token.span = x.span := by
  rcases mem_delivered hcuts hcooked htoken with rfl | ⟨_, x, _, hlies, hcook⟩
  · contradiction
  · exact ⟨x, hlies, span_of_cookAt hcook⟩

theorem errors_ordered (hcuts : Cuts text pieces) (hcooked : cooked <+: cookAll 0 1 pieces) :
    (((delivered text cooked ends).filter Token.isError).map Token.place).Pairwise
      Place.Before := by
  apply List.pairwise_map.mpr
  apply ((delivered_ordered hcuts hcooked).filter Token.isError).imp_of_mem
  intro a b ha hb hle
  obtain ⟨hamem, haerror⟩ := List.mem_filter.mp ha
  obtain ⟨hbmem, _⟩ := List.mem_filter.mp hb
  obtain ⟨x, hlies, hspan⟩ := exists_liesIn hcuts hcooked hamem haerror
  have hlt : a.span.start < a.span.stop := by
    rw [hspan]
    exact hlies.start_lt
  have hstart : a.span.start < b.span.start := Nat.lt_of_lt_of_le hlt hle
  refine ⟨hstart, ?_⟩
  change a.line ≤ b.line
  rw [line_of_delivered hcuts hcooked hamem, line_of_delivered hcuts hcooked hbmem]
  exact lineAt_mono (Nat.le_of_lt hstart)

theorem isEnd_of_start (hcuts : Cuts text pieces) (hcooked : cooked <+: cookAll 0 1 pieces)
    (htoken : token ∈ delivered text cooked ends) (hstart : text.length ≤ token.span.start) :
    token.isEnd = true := by
  rcases mem_delivered hcuts hcooked htoken with rfl | ⟨_, x, _, hlies, hcook⟩
  · rfl
  · rw [span_of_cookAt hcook] at hstart
    have hlt := hlies.start_lt
    have hle := hlies.stop_le
    omega

theorem Delivers.isEnd_of_openComment (hcuts : Cuts text pieces)
    (h : (ofBytes text).Delivers text pieces cooked ends t rest) {before after : List Token}
    (hd : d ∈ t.log.toList) (hcode : d.code = .openComment)
    (hhanded : delivered text cooked ends = before ++ token :: after)
    (herror : token.isError = true) (hplace : token.place = d.place) :
    ∀ later ∈ after, later.isEnd = true := by
  obtain ⟨x, _, hlies, complaint, hmeaning, rfl⟩ := h.exists_complaint hcuts hd
  have hcategory := (Token.code_of_complaint hlies.first hmeaning).2 hcode
  have hmem : token ∈ delivered text cooked ends := by simp [hhanded]
  obtain ⟨y, hy, hspan⟩ := exists_liesIn hcuts h.isPrefix hmem herror
  have hstart : y.span.start = x.span.start := by
    rw [← hspan]
    exact congrArg Place.offset hplace
  obtain rfl := hy.unique hlies hstart
  have hordered : (before ++ token :: after).Pairwise fun a b => a.span.stop ≤ b.span.start := by
    rw [← hhanded]
    exact delivered_ordered hcuts h.isPrefix
  intro later hlater
  have hmemLater : later ∈ delivered text cooked ends := by simp [hhanded, hlater]
  have hle := (List.pairwise_cons.mp (List.pairwise_append.mp hordered).2.1).1 later hlater
  rw [hspan, hy.stop_openComment hcategory] at hle
  exact isEnd_of_start hcuts h.isPrefix hmemLater hle

/-- The log of a stream, held against the tokens that it has handed out. -/
structure Reported (handed : List Token) (t : TokenStream) : Prop where
  places_eq : t.log.toList.map Diagnostic.place = (handed.filter Token.isError).map Token.place
  ordered : t.log.toList.Pairwise fun d later => d.offset < later.offset ∧ d.line ≤ later.line
  failed_iff : t.failed = true ↔ ∃ token ∈ handed, token.isError = true
  evidence_iff : t.log.evidence?.isSome = true ↔ ∃ token ∈ handed, token.isError = true
  openComment_last : ∀ d ∈ t.log.toList, d.code = .openComment →
    ∀ before token after, handed = before ++ token :: after → token.isError = true →
      token.place = d.place → ∀ later ∈ after, later.isEnd = true

theorem failed_iff_of_places {handed : List Token}
    (h : t.log.toList.map Diagnostic.place = (handed.filter Token.isError).map Token.place) :
    t.failed = true ↔ ∃ token ∈ handed, token.isError = true := by
  have hempty : t.log.toList = [] ↔ handed.filter Token.isError = [] := by
    rw [← List.map_eq_nil_iff, h, List.map_eq_nil_iff]
  rw [failed, Log.hasErrors_iff, ne_eq, hempty, List.filter_eq_nil_iff]
  simp

theorem Delivers.reported (hcuts : Cuts text pieces)
    (h : (ofBytes text).Delivers text pieces cooked ends t rest) :
    Reported (delivered text cooked ends) t := by
  have hplaces := h.places_eq hcuts
  have hfailed := failed_iff_of_places hplaces
  refine ⟨hplaces, ?_, hfailed, ?_, ?_⟩
  · have hordered : (t.log.toList.map Diagnostic.place).Pairwise Place.Before := by
      rw [hplaces]
      exact errors_ordered hcuts h.isPrefix
    exact List.pairwise_map.mp hordered
  · rw [Log.isSome_evidence?]
    exact hfailed
  · intro d hd hcode before token after hhanded herror hplace
    exact h.isEnd_of_openComment hcuts hd hcode hhanded herror hplace

/-- After any requests the log tells of exactly the error tokens that have been handed out, and
whatever is asked then, its entries stay as they are. -/
theorem session_reports (htext : text.length + 1 < Offset.limit) (requests : List Request) :
    ∃ responses t, (ofBytes text).session requests = .ok (responses, t) ∧
      Reported (responses.flatMap Response.handed) t ∧
      ∀ more, ∃ later t', t.session more = .ok (later, t') ∧
        t.log.toList <+: t'.log.toList := by
  have hlimit : text.length < Offset.limit := by omega
  obtain ⟨pieces, hcuts⟩ := exists_cuts hlimit
  obtain ⟨responses, t, rest, cooked, ends, hsession, hhanded, hdelivers⟩ :=
    session_ofBytes htext hcuts requests
  refine ⟨responses, t, hsession, ?_, ?_⟩
  · rw [hhanded]
    exact hdelivers.reported hcuts
  · intro more
    obtain ⟨later, t', left, _, _, hmore, _, hlater⟩ := hdelivers.faces.session_delivers more
    exact ⟨later, t', hmore, _, hlater.log_eq.symm⟩

/-- A stray byte, an integer that is too large, an open quote, and an open comment. -/
theorem session_reports_four_errors :
    let text : Bytes :=
      [0x00, 0x0a, 0x39, 0x32, 0x32, 0x33, 0x33, 0x37, 0x32, 0x30, 0x33, 0x36, 0x38, 0x35, 0x34,
        0x37, 0x37, 0x35, 0x38, 0x30, 0x38, 0x20, 0x27, 0x0a, 0x2f, 0x2a, 0x0a]
    let requests : List Request := [.next, .diagnostics, .next, .log, .next, .next, .next]
    text.length + 1 < Offset.limit ∧
      ∃ responses t, (ofBytes text).session requests = .ok (responses, t) ∧
        Reported (responses.flatMap Response.handed) t ∧
        ∀ more, ∃ later t', t.session more = .ok (later, t') ∧
          t.log.toList <+: t'.log.toList :=
  ⟨by decide, session_reports (by decide) _⟩

end TokenStream

end IdlLexis
