import IdlLexis.Proofs.Literal.Range
import IdlLexis.Proofs.Literal.Written
import IdlLexis.Proofs.TokenStream.Refinement
/-!
Tokens survive being written and read. A token is written by its spelling, its name, its decimal
digits or as a quoted text; what is written apart, with blanks or line feeds between, reads back
as the same tokens. What follows a token cannot reach into it, since no lexeme that it may be
goes on over a separator.
-/

namespace IdlLexis

open Lexeme (Cuts First Piece Run OptionalSign Stops stops_nil stops_cons)

def Byte.isSeparator (b : Byte) : Bool := b == Byte.space || b == Byte.lineFeed

theorem Byte.separates_of_isSeparator {b : Byte} (h : Byte.isSeparator b = true) :
    Byte.isBlank b = true ∨ b = Byte.lineFeed := by
  rcases Bool.or_eq_true_iff.mp h with hspace | hline
  · rw [eq_of_beq hspace]
    exact .inl rfl
  · exact .inr (eq_of_beq hline)

/-- What a token of the kind may be written as. -/
inductive Token.Kind.Writes : Token.Kind → Bytes → Prop
  | fixed {kind : Token.Kind} {spelling : String}
      (hspelling : kind.toClass.spelling? = some spelling) :
      Writes kind (Utf8.encode spelling.toList)
  | identifier {name : String} (hname : Lexeme.Covers .word (Utf8.encode name.toList))
      (hreserved : ∀ k : Keyword, k.spelling ≠ name) :
      Writes (.identifier name) (Utf8.encode name.toList)
  | integer {value : Int} (hfits : Literal.Integer.fits value = true) :
      Writes (.integer value) (Utf8.encode (toString value).toList)
  | text (quote : Quote) (value : String) :
      Writes (.text value) (Utf8.encode (Literal.Quoted.write quote value.toList))

/-- The text is tokens of these kinds, written one after another with separators between. -/
inductive Token.Kind.Joins : List Token.Kind → Bytes → Prop
  | nil : Joins [] []
  | single {kind : Token.Kind} {written : Bytes} (hwritten : kind.Writes written) :
      Joins [kind] written
  | cons {kind next : Token.Kind} {kinds : List Token.Kind} {written separators text : Bytes}
      (hwritten : kind.Writes written) (hseparators : Run Byte.isSeparator separators)
      (hjoins : Joins (next :: kinds) text) :
      Joins (kind :: next :: kinds) (written ++ separators ++ text)

namespace Lexeme

variable {category : Category} {front tail text : Bytes} {pieces : List Piece}

/-! No lexeme that a token is written as goes on over a separator. -/

/-- Nothing follows, or a separator. -/
inductive Ends : Bytes → Prop
  | nil : Ends []
  | space (rest : Bytes) : Ends (Byte.space :: rest)
  | lineFeed (rest : Bytes) : Ends (Byte.lineFeed :: rest)

theorem ends_of_separators {separators : Bytes} (h : Run Byte.isSeparator separators)
    (text : Bytes) : Ends (separators ++ text) := by
  obtain ⟨b, rest, rfl, hb⟩ := h.exists_cons
  rcases Bool.or_eq_true_iff.mp hb with hspace | hline
  · rw [eq_of_beq hspace]
    exact .space _
  · rw [eq_of_beq hline]
    exact .lineFeed _

theorem first_word (hcovers : Covers .word front) (hends : Ends tail) :
    First .word front (front ++ tail) := by
  have hstops : continuesWord tail = false := by
    cases hends <;> rfl
  cases front with
  | nil => exact absurd rfl hcovers.ne_nil
  | cons b body =>
      obtain ⟨hfirst, hbody⟩ := covers_word_iff.mp hcovers
      exact .inl (isLongest_word hfirst hbody hstops)

theorem first_integer {sign digits : Bytes} (hsign : OptionalSign sign)
    (hdigits : Run Byte.isDigit digits) (hends : Ends tail) :
    First .integer (sign ++ digits) (sign ++ digits ++ tail) := by
  have hstops : Stops Byte.isDigit tail := by
    cases hends with
    | nil => exact stops_nil
    | space rest => exact stops_cons.mpr (by decide)
    | lineFeed rest => exact stops_cons.mpr (by decide)
  apply Or.inl
  apply isLongest_integer hsign hdigits hstops
  · cases hends <;> simp [Byte.space, Byte.lineFeed, Byte.dot]
  · rintro ⟨digit, rest, _, heq⟩
    obtain ⟨_, hmark⟩ := hex_split hsign hdigits heq.symm
    obtain ⟨_, htail⟩ := run_unique hmark run_zero.2 hdigits.2 stops_lowerX hstops
    rw [← htail] at hends
    cases hends

theorem First.stops_blank (h : First category front text) (hcategory : category ≠ .blank) :
    Stops Byte.isBlank text := by
  intro b hb
  apply Bool.eq_false_iff.mpr
  intro hblank
  cases text with
  | nil => cases hb
  | cons c text =>
      cases hb
      obtain ⟨run, tail, rfl, hrun, hstops⟩ := exists_run Byte.isBlank text
      have hlongest := isLongest_blank (.cons hblank hrun) hstops
      exact hcategory (first_unique h (.inl hlongest)).1

theorem stops_append {test : Byte → Bool} (hfront : Stops test front) (htail : Stops test tail) :
    Stops test (front ++ tail) := by
  cases front with
  | nil => exact htail
  | cons b front => exact hfront

theorem isTrivia_of_blank (h : category = .blank ∨ category = .newline) :
    category.isTrivia = true := by
  rcases h with rfl | rfl <;> rfl

/-- Blanks and line feeds are lexemes of their own, whatever they stand before. -/
theorem Cuts.separated {separators : Bytes} (h : Cuts text pieces)
    (hseparators : ∀ b ∈ separators, Byte.isBlank b = true ∨ b = Byte.lineFeed)
    (hstops : Stops Byte.isBlank text) :
    ∃ gap, Cuts (separators ++ text) (gap ++ pieces) ∧
      ∀ p ∈ gap, p.category = .blank ∨ p.category = .newline := by
  induction hlength : separators.length using Nat.strongRecOn generalizing separators with
  | ind length ih =>
      cases separators with
      | nil => exact ⟨[], h, by simp⟩
      | cons b separators =>
          obtain ⟨hb, hrest⟩ := List.forall_mem_cons.mp hseparators
          rw [List.length_cons] at hlength
          rcases hb with hb | rfl
          · obtain ⟨run, more, rfl, hrun, hmore⟩ := exists_run Byte.isBlank separators
            rw [List.length_append] at hlength
            obtain ⟨gap, hcuts, hgap⟩ :=
              ih more.length (by omega) (List.forall_mem_append.mp hrest).2 rfl
            have hlongest := isLongest_blank (.cons hb hrun) (stops_append hmore hstops)
            have hall : Cuts ((b :: run) ++ (more ++ text)) _ := .cons (.inl hlongest) hcuts
            rw [List.cons_append, ← List.append_assoc] at hall
            exact ⟨_ :: gap, hall, List.forall_mem_cons.mpr ⟨.inl rfl, hgap⟩⟩
          · obtain ⟨gap, hcuts, hgap⟩ := ih separators.length (by omega) hrest rfl
            exact ⟨_ :: gap, hcuts.after_lineFeed, List.forall_mem_cons.mpr ⟨.inr rfl, hgap⟩⟩

end Lexeme

/-! What a token is written as is one lexeme, which means the token. -/

open Lexeme (Ends)

def Lexeme.Piece.meaning (p : Piece) : Option (Except Complaint Token.Kind) :=
  Token.meaning p.category p.bytes

theorem Lexeme.Piece.category_ne_blank {p : Piece} {reading : Except Complaint Token.Kind}
    (h : p.meaning = some reading) : p.category ≠ .blank := by
  intro hblank
  rw [Piece.meaning, hblank] at h
  contradiction

namespace Token.Kind

variable {kind : Token.Kind} {written tail : Bytes}

theorem covers_word {b : Byte} {rest : Bytes} (hb : Byte.isWordStart b = true)
    (hrest : ∀ c ∈ rest, Byte.isWord c = true) : Lexeme.Covers .word (b :: rest) := by
  refine Lexeme.covers_word_iff.mpr ⟨hb, ?_⟩
  rw [← List.append_nil rest]
  exact .append hrest .nil

theorem covers_keyword (k : Keyword) : Lexeme.Covers .word k.bytes := by
  have hword : k.bytes ≠ [] ∧ (k.bytes.head?.all Byte.isWordStart &&
      k.bytes.tail.all Byte.isWord) = true := by
    cases k <;> decide
  obtain ⟨hne, hword⟩ := hword
  obtain ⟨hfirst, hrest⟩ := Bool.and_eq_true_iff.mp hword
  obtain ⟨b, rest, hbytes⟩ := List.exists_cons_of_ne_nil hne
  rw [hbytes] at hfirst hrest ⊢
  exact covers_word hfirst (List.all_eq_true.mp hrest)

theorem ofWord_identifier {name : String} (hreserved : ∀ k : Keyword, k.spelling ≠ name) :
    ofWord (Utf8.encode name.toList) = .identifier name := by
  have hnone : Keyword.ofBytes? (Utf8.encode name.toList) = none := by
    rw [Option.eq_none_iff_forall_ne_some]
    intro k hk
    have hbytes := Utf8.encode_injective (Keyword.bytes_of_ofBytes? hk)
    exact hreserved k (String.toList_injective hbytes)
  rw [ofWord, hnone]
  dsimp only
  rw [Utf8.lossy_encode]

theorem encode_spelling (s : Symbol) : Utf8.encode s.spelling.toList = [s.byte] := by
  cases s <;> decide

theorem Writes.first (h : kind.Writes written) (hends : Ends tail) :
    ∃ category, First category written (written ++ tail) ∧
      Piece.meaning ⟨category, written⟩ = some (.ok kind) := by
  cases h with
  | @fixed _ spelling hspelling =>
      cases kind with
      | symbol s =>
          obtain rfl : s.spelling = spelling := Option.some.inj hspelling
          rw [encode_spelling]
          exact ⟨.symbol s, .inl (Lexeme.isLongest_symbol s), rfl⟩
      | keyword k =>
          obtain rfl : k.spelling = spelling := Option.some.inj hspelling
          refine ⟨.word, Lexeme.first_word (covers_keyword k) hends, ?_⟩
          have hfound : Keyword.ofBytes? (Utf8.encode k.spelling.toList) = some k :=
            Keyword.ofBytes?_bytes k
          rw [Piece.meaning, Token.meaning, ofWord, hfound]
      | _ => contradiction
  | @identifier name hname hreserved =>
      refine ⟨.word, Lexeme.first_word hname hends, ?_⟩
      rw [Piece.meaning, Token.meaning, ofWord_identifier hreserved]
  | @integer value hfits =>
      obtain ⟨sign, m, hbytes, hsign⟩ := Literal.Integer.encode_toString value
      have hoptional : OptionalSign sign := by
        rcases hsign with ⟨rfl, _⟩ | ⟨rfl, _⟩
        · exact .nil
        · exact .inr ⟨0x2d, rfl, rfl⟩
      refine ⟨.integer, ?_, ?_⟩
      · rw [hbytes]
        exact Lexeme.first_integer hoptional (Literal.Integer.run_decimal m) hends
      · rw [Piece.meaning, Token.meaning, Literal.Integer.decode_toString value hfits]
        rfl
  | text quote value =>
      refine ⟨.quoted quote, Literal.Quoted.covers_write quote value.toList tail, ?_⟩
      rw [Piece.meaning, Token.meaning, Literal.Quoted.decode_write]
      rfl

theorem Writes.cuts (h : kind.Writes written) :
    ∃ category, Cuts written [⟨category, written⟩] ∧
      Piece.meaning ⟨category, written⟩ = some (.ok kind) ∧ Stops Byte.isBlank written := by
  obtain ⟨category, hfirst, hmeaning⟩ := h.first .nil
  have hcuts : Cuts (written ++ []) [⟨category, written⟩] := .cons hfirst .nil
  rw [List.append_nil] at hfirst hcuts
  exact ⟨category, hcuts, hmeaning, hfirst.stops_blank (Piece.category_ne_blank hmeaning)⟩

end Token.Kind

/-! What the tokens of a text are, and what is reported of them, follows from what its pieces
mean. -/

def Token.Kind.ofReading : Except Complaint Token.Kind → Token.Kind
  | .ok kind => kind
  | .error _ => .error

def Complaint.ofReading : Except Complaint Token.Kind → List Complaint
  | .ok _ => []
  | .error complaint => [complaint]

/-- A diagnostic without its place. -/
def Diagnostic.complaint (d : Diagnostic) : Complaint := ⟨d.code, d.message⟩

namespace TokenStream

theorem kinds_cookAll (offset line : Nat) (pieces : List Piece) :
    (cookAll offset line pieces).map (·.1.kind) =
      (pieces.filterMap Piece.meaning).map Token.Kind.ofReading := by
  induction pieces generalizing offset line with
  | nil => rfl
  | cons p pieces ih =>
      cases hmeaning : p.meaning with
      | none => rw [cookAll_of_none hmeaning, List.filterMap_cons_none hmeaning, ih]
      | some reading =>
          rw [cookAll_of_some hmeaning, List.filterMap_cons_some hmeaning, List.map_cons,
            List.map_cons, ih]
          cases reading <;> rfl

theorem complaints_cookAll (offset line : Nat) (pieces : List Piece) :
    ((cookAll offset line pieces).flatMap Prod.snd).map Diagnostic.complaint =
      (pieces.filterMap Piece.meaning).flatMap Complaint.ofReading := by
  induction pieces generalizing offset line with
  | nil => rfl
  | cons p pieces ih =>
      cases hmeaning : p.meaning with
      | none => rw [cookAll_of_none hmeaning, List.filterMap_cons_none hmeaning, ih]
      | some reading =>
          rw [cookAll_of_some hmeaning, List.filterMap_cons_some hmeaning, List.flatMap_cons,
            List.flatMap_cons, List.map_append, ih]
          cases reading <;> rfl

theorem cookAll_kinds {pieces : List Piece} {kinds : List Token.Kind}
    (h : pieces.filterMap Piece.meaning = kinds.map .ok) (offset line : Nat) :
    (cookAll offset line pieces).map (·.1.kind) = kinds ∧
      (cookAll offset line pieces).flatMap Prod.snd = [] := by
  constructor
  · rw [kinds_cookAll, h, List.map_map]
    exact List.map_id kinds
  · have hcomplaints := complaints_cookAll offset line pieces
    rw [h, List.flatMap_map] at hcomplaints
    have hnone : kinds.flatMap (fun kind => Complaint.ofReading (.ok kind)) = [] :=
      List.flatMap_eq_nil_iff.mpr fun _ _ => rfl
    exact List.map_eq_nil_iff.mp (hcomplaints.trans hnone)

end TokenStream

/-! A text whose pieces mean tokens of some kinds reads as these tokens. -/

theorem Token.Kind.Joins.cuts {kinds : List Token.Kind} {text : Bytes}
    (h : Token.Kind.Joins kinds text) :
    ∃ pieces, Cuts text pieces ∧ pieces.filterMap Piece.meaning = kinds.map .ok ∧
      Stops Byte.isBlank text := by
  induction h with
  | nil => exact ⟨[], .nil, rfl, stops_nil⟩
  | @single kind written hwritten =>
      obtain ⟨category, hcuts, hmeaning, hstops⟩ := hwritten.cuts
      exact ⟨_, hcuts, List.filterMap_cons_some hmeaning, hstops⟩
  | @cons kind next kinds written separators text hwritten hseparators _ ih =>
      obtain ⟨pieces, hcuts, hmeanings, hstops⟩ := ih
      obtain ⟨gap, hgap, hblanks⟩ :=
        hcuts.separated (fun b hb => Byte.separates_of_isSeparator (hseparators.2 b hb)) hstops
      obtain ⟨category, hfirst, hmeaning⟩ :=
        hwritten.first (Lexeme.ends_of_separators hseparators text)
      have hsilent : gap.filterMap Piece.meaning = [] := by
        rw [List.filterMap_eq_nil_iff]
        intro p hp
        exact (Token.meaning_eq_none_iff _ _).mpr (Lexeme.isTrivia_of_blank (hblanks p hp))
      rw [List.append_assoc]
      refine ⟨⟨category, written⟩ :: (gap ++ pieces), .cons hfirst hgap, ?_, ?_⟩
      · rw [List.filterMap_cons_some hmeaning, List.filterMap_append, hsilent, hmeanings]
        rfl
      · exact hfirst.stops_blank (Piece.category_ne_blank hmeaning)

/-- Tokens written apart read back as they were, without a diagnostic. -/
theorem readTokens_joins {kinds : List Token.Kind} {text : Bytes}
    (hjoins : Token.Kind.Joins kinds text) (htext : text.length + 1 < Offset.limit) :
    ∃ tokens, readTokens text = .ok (tokens, []) ∧ tokens.map Token.kind = kinds := by
  obtain ⟨pieces, hcuts, hmeaning, _⟩ := hjoins.cuts
  obtain ⟨hkinds, hsilent⟩ := TokenStream.cookAll_kinds hmeaning 0 1
  refine ⟨(TokenStream.cookAll 0 1 pieces).map Prod.fst, ?_, ?_⟩
  · rw [TokenStream.readTokens_of_cuts htext hcuts, hsilent]
  · rw [List.map_map]
    exact hkinds

/-- A reserved word, the least integer, and a text with a quote and a line feed in it. -/
theorem readTokens_joins_least_integer :
    let kinds : List Token.Kind :=
      [.keyword .constValue, .integer (-0x8000000000000000), .text "it's\n"]
    let text : Bytes :=
      Utf8.encode "const".toList ++ [Byte.space] ++
        (Utf8.encode (toString (-0x8000000000000000 : Int)).toList ++
            [Byte.lineFeed, Byte.space] ++
          Utf8.encode (Literal.Quoted.write .single "it's\n".toList))
    Token.Kind.Joins kinds text ∧ text.length + 1 < Offset.limit ∧
      ∃ tokens, readTokens text = .ok (tokens, []) ∧ tokens.map Token.kind = kinds := by
  intro kinds text
  have hword : Token.Kind.Writes (.keyword .constValue) (Utf8.encode "const".toList) := .fixed rfl
  have hinteger : Token.Kind.Writes (.integer (-0x8000000000000000))
      (Utf8.encode (toString (-0x8000000000000000 : Int)).toList) := .integer (by decide +kernel)
  have hspace : Run Byte.isSeparator [Byte.space] :=
    ⟨List.cons_ne_nil _ _, by simp [Byte.isSeparator]⟩
  have hline : Run Byte.isSeparator [Byte.lineFeed, Byte.space] :=
    ⟨List.cons_ne_nil _ _, by simp [Byte.isSeparator]⟩
  have hjoins : Token.Kind.Joins kinds text :=
    .cons hword hspace (.cons hinteger hline (.single (.text .single "it's\n")))
  have htext : text.length + 1 < Offset.limit := by decide +kernel
  exact ⟨hjoins, htext, readTokens_joins hjoins htext⟩

end IdlLexis
