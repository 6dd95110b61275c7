import IdlLexis.Proofs.TokenStream.Literals
import IdlLexis.Proofs.TokenStream.Relexing
/-!
Spellings. A token is a symbol or a reserved word by what it covers of the text alone, and its
class has the number and the spelling that stand in the tables for it. A word that is not reserved
in exactly its spelling is an identifier, also where it begins with a reserved word, and its name
is the bytes that it covers.
-/

namespace IdlLexis

open Lexeme (Category Covers Placed)

/-! The tables. -/

/-- The bytes of the characters `()*,:;<=>[]` and of the braces. -/
def Symbol.bytes : Bytes :=
  [0x28, 0x29, 0x2a, 0x2c, 0x3a, 0x3b, 0x3c, 0x3d, 0x3e, 0x5b, 0x5d, 0x7b, 0x7d]

theorem Symbol.bytes_eq : Symbol.bytes = Token.Class.symbolsInOrder.map Symbol.byte := rfl

theorem Symbol.exists_of_mem_bytes {b : Byte} (h : b ∈ Symbol.bytes) :
    ∃ s : Symbol, s.byte = b := by
  rw [Symbol.bytes_eq] at h
  obtain ⟨s, _, hs⟩ := List.mem_map.mp h
  exact ⟨s, hs⟩

theorem Symbol.byte_mem_bytes (s : Symbol) : s.byte ∈ Symbol.bytes := by
  cases s <;> decide

namespace Keyword

/-- The reserved words in the order that numbers them. -/
def reserved : List String :=
  ["include", "namespace", "void", "bool", "byte", "i8", "i16", "i32", "i64", "double", "string",
    "binary", "map", "list", "set", "oneway", "typedef", "struct", "union", "exception", "extends",
    "throws", "service", "enum", "const", "required", "optional", "true", "false"]

/-- The reserved words of a length. -/
def ofLength : Nat → List Keyword
  | 2 => [i8Type]
  | 3 => [i16Type, i32Type, i64Type, mapType, setType]
  | 4 => [boolType, byteType, enumType, listType, trueValue, voidType]
  | 5 => [constValue, falseValue, unionType]
  | 6 => [binaryType, doubleType, onewayCall, stringType, structType, throwsException]
  | 7 => [extendsService, includeFile, serviceType, typedefName]
  | 8 => [optionalField, requiredField]
  | 9 => [exceptionType, namespaceScope]
  | _ => []

/-- Looks a word up among those of its length. -/
def lookup? (text : Bytes) : Option Keyword := (ofLength text.length).find? (·.bytes == text)

variable {text : Bytes} {k : Keyword} {word : String} {i : Nat}

theorem lookup?_bytes (k : Keyword) : lookup? k.bytes = some k := by
  cases k <;> decide

theorem lookup?_eq_some_iff : lookup? text = some k ↔ k.bytes = text := by
  constructor
  · intro h
    rw [lookup?, List.find?_eq_some_iff_append] at h
    exact eq_of_beq h.1
  · rintro rfl
    exact lookup?_bytes k

theorem lookup?_eq (text : Bytes) : lookup? text = ofBytes? text := by
  apply Option.ext
  intro k
  rw [lookup?_eq_some_iff, ofBytes?_eq_some_iff]

theorem bytes_injective {k other : Keyword} (h : k.bytes = other.bytes) : k = other := by
  have hk := ofBytes?_bytes k
  rw [h, ofBytes?_bytes] at hk
  exact (Option.some.inj hk).symm

theorem reserved_eq : reserved = all.map spelling := rfl

theorem exists_of_getElem?_reserved (h : reserved[i]? = some word) :
    ∃ k : Keyword, k.spelling = word ∧ k.rank = i := by
  rw [reserved_eq, List.getElem?_map] at h
  obtain ⟨k, hk, rfl⟩ := Option.map_eq_some_iff.mp h
  obtain ⟨hi, rfl⟩ := List.getElem?_eq_some_iff.mp hk
  exact ⟨all[i], rfl, List.Nodup.idxOf_getElem (by decide) i hi⟩

theorem spelling_mem_reserved (k : Keyword) : k.spelling ∈ reserved :=
  reserved_eq ▸ List.mem_map_of_mem (mem_all k)

theorem exists_of_mem_reserved (h : word ∈ reserved) : ∃ k : Keyword, k.spelling = word := by
  rw [reserved_eq] at h
  obtain ⟨k, _, hk⟩ := List.mem_map.mp h
  exact ⟨k, hk⟩

/-- The text is a reserved word. -/
def IsReserved (text : Bytes) : Prop := ∃ word ∈ reserved, text = Utf8.encode word.toList

theorem isReserved_iff : IsReserved text ↔ ∃ k : Keyword, k.bytes = text := by
  constructor
  · rintro ⟨word, hword, rfl⟩
    obtain ⟨k, rfl⟩ := exists_of_mem_reserved hword
    exact ⟨k, rfl⟩
  · rintro ⟨k, rfl⟩
    exact ⟨k.spelling, spelling_mem_reserved k, rfl⟩

theorem isSome_ofBytes?_iff : (ofBytes? text).isSome = true ↔ IsReserved text := by
  rw [isReserved_iff, Option.isSome_iff_exists]
  simp only [ofBytes?_eq_some_iff]

end Keyword

/-! A word is made of bytes of ASCII. -/

namespace Lexeme

theorem isWord_ascii : ∀ b, Byte.isWord b = true → b < 0x80 := by
  decide +kernel

theorem WordTail.ascii {text : Bytes} (h : WordTail text) : ∀ b ∈ text, b < 0x80 := by
  induction h with
  | nil => simp
  | word hb _ ih => exact List.forall_mem_cons.mpr ⟨isWord_ascii _ hb, ih⟩
  | dot _ _ ih => exact List.forall_mem_cons.mpr ⟨by decide, ih⟩

theorem encode_lossy_word {text : Bytes} (h : Covers .word text) :
    Utf8.encode (Utf8.lossy text).toList = text := by
  cases text with
  | nil => exact absurd rfl h.ne_nil
  | cons b body =>
      obtain ⟨hb, hbody⟩ := covers_word_iff.mp h
      have hfirst : b < 0x80 := isWord_ascii b (by simp [Byte.isWord, hb])
      obtain ⟨name, hname⟩ :=
        Utf8.decode?_ascii (List.forall_mem_cons.mpr ⟨hfirst, hbody.ascii⟩)
      have hencode := Utf8.decode?_eq_some_iff.mp hname
      rw [← hencode, Utf8.lossy_encode]

end Lexeme

namespace Token.Kind

variable {kind : Token.Kind} {slice : Bytes} {category : Category}

/-- What a token covers of the text tells whether it is a symbol, a reserved word or an identifier,
and which. -/
structure Spells (slice : Bytes) (kind : Token.Kind) : Prop where
  symbol : kind.toClass.isSymbol = true ↔ ∃ b ∈ Symbol.bytes, slice = [b]
  symbol_class : ∀ b ∈ Symbol.bytes, slice = [b] → kind.toClass.number = b.toNat ∧
    ∃ spelling, kind.toClass.spelling? = some spelling ∧ Utf8.encode spelling.toList = slice
  keyword : kind.isKeyword = true ↔ Keyword.IsReserved slice
  keyword_class : ∀ i word, Keyword.reserved[i]? = some word → slice = Utf8.encode word.toList →
    kind.toClass.number = 128 + i ∧ kind.toClass.spelling? = some word
  identifier : (∃ name, kind = .identifier name) ↔
    Covers .word slice ∧ ¬ Keyword.IsReserved slice
  identifier_name : ∀ name, kind = .identifier name → Utf8.encode name.toList = slice

/-! The grammar is unambiguous, so a lexeme of another category is spelled otherwise. -/

theorem not_symbol_of_covers (h : Covers category slice) (hcategory : ∀ s, category ≠ .symbol s)
    {b : Byte} (hb : b ∈ Symbol.bytes) : slice ≠ [b] := by
  rintro rfl
  obtain ⟨s, rfl⟩ := Symbol.exists_of_mem_bytes hb
  exact hcategory s (Lexeme.covers_unique h (.symbol s))

theorem not_reserved_of_covers (h : Covers category slice) (hcategory : category ≠ .word) :
    ¬ Keyword.IsReserved slice := by
  intro hreserved
  obtain ⟨k, rfl⟩ := Keyword.isReserved_iff.mp hreserved
  exact hcategory (Lexeme.covers_unique h (covers_keyword k))

theorem covers_word_iff_category (h : Covers category slice) :
    Covers .word slice ↔ category = .word := by
  constructor
  · exact Lexeme.covers_unique h
  · rintro rfl
    exact h

theorem spells_symbol (s : Symbol) : Spells [s.byte] (.symbol s) := by
  have hcovers : Covers (.symbol s) [s.byte] := .symbol s
  have hreserved := not_reserved_of_covers hcovers (by simp)
  constructor
  case symbol => simp [toClass, Class.isSymbol, Symbol.byte_mem_bytes]
  case symbol_class =>
    intro b _ hslice
    obtain rfl := (List.cons.inj hslice).1
    exact ⟨rfl, s.spelling, rfl, encode_spelling s⟩
  case keyword => simp [isKeyword, toClass, Class.isKeyword, hreserved]
  case keyword_class =>
    intro i word hget hslice
    exact absurd ⟨word, List.mem_of_getElem? hget, hslice⟩ hreserved
  case identifier => simp [covers_word_iff_category hcovers]
  case identifier_name =>
    intro name hname
    contradiction

theorem spells_keyword (k : Keyword) : Spells k.bytes (.keyword k) := by
  have hsymbol {b : Byte} (hb : b ∈ Symbol.bytes) : k.bytes ≠ [b] :=
    not_symbol_of_covers (covers_keyword k) (by simp) hb
  have hreserved : Keyword.IsReserved k.bytes := Keyword.isReserved_iff.mpr ⟨k, rfl⟩
  constructor
  case symbol => simpa [toClass, Class.isSymbol] using fun b => hsymbol
  case symbol_class => exact fun b hb hslice => absurd hslice (hsymbol hb)
  case keyword => simp [isKeyword, toClass, Class.isKeyword, hreserved]
  case keyword_class =>
    intro i word hget hslice
    obtain ⟨other, rfl, rfl⟩ := Keyword.exists_of_getElem?_reserved hget
    obtain rfl : k = other := Keyword.bytes_injective hslice
    exact ⟨rfl, rfl⟩
  case identifier => simp [hreserved]
  case identifier_name =>
    intro name hname
    contradiction

/-- A token without a spelling of its own is an identifier where it is a word. -/
theorem spells_free (hcovers : Covers category slice) (hsymbol : ∀ s, category ≠ .symbol s)
    (hreserved : ¬ Keyword.IsReserved slice) (hfree : kind.toClass.spelling? = none)
    (hidentifier : (∃ name, kind = .identifier name) ↔ category = .word)
    (hname : ∀ name, kind = .identifier name → Utf8.encode name.toList = slice) :
    Spells slice kind := by
  have hslice {b : Byte} (hb : b ∈ Symbol.bytes) : slice ≠ [b] :=
    not_symbol_of_covers hcovers hsymbol hb
  have hclass : kind.toClass.isSymbol = false ∧ kind.isKeyword = false := by
    rw [isKeyword]
    generalize kind.toClass = found at hfree
    cases found with
    | symbol s => contradiction
    | keyword k => contradiction
    | _ => exact ⟨rfl, rfl⟩
  constructor
  case symbol => simpa [hclass.1] using fun b => hslice
  case symbol_class => exact fun b hb heq => absurd heq (hslice hb)
  case keyword => simp [hclass.2, hreserved]
  case keyword_class =>
    intro i word hget heq
    exact absurd ⟨word, List.mem_of_getElem? hget, heq⟩ hreserved
  case identifier => simp [hidentifier, covers_word_iff_category hcovers, hreserved]
  case identifier_name => exact hname

theorem spells_ofWord (hword : Covers .word slice) : Spells slice (ofWord slice) := by
  rw [ofWord]
  cases hfound : Keyword.ofBytes? slice with
  | some k =>
      obtain rfl := Keyword.bytes_of_ofBytes? hfound
      exact spells_keyword k
  | none =>
      have hreserved : ¬ Keyword.IsReserved slice := by
        rw [← Keyword.isSome_ofBytes?_iff, hfound]
        exact Bool.false_ne_true
      apply spells_free hword (by simp) hreserved rfl (by simp)
      intro name hname
      cases hname
      exact Lexeme.encode_lossy_word hword

theorem exists_of_ofLiteral {α : Type} {make : α → Token.Kind} {value : Except Literal.Failure α}
    (h : ofLiteral make value = .ok kind) : ∃ read, kind = make read := by
  cases value with
  | ok read =>
      cases h
      exact ⟨read, rfl⟩
  | error failure => contradiction

/-- What a lexeme means is spelled as the lexeme is, each category by its own rule. -/
theorem spells_of_meaning (hcovers : Covers category slice)
    (hmeaning : meaning category slice = some (.ok kind)) : Spells slice kind := by
  cases category with
  | symbol s =>
      cases hmeaning
      cases hcovers
      exact spells_symbol s
  | word =>
      cases hmeaning
      exact spells_ofWord hcovers
  | integer | hexInteger | real | quoted quote =>
      obtain ⟨value, rfl⟩ := exists_of_ofLiteral (Option.some.inj hmeaning)
      have hreserved := not_reserved_of_covers hcovers (by simp)
      exact spells_free hcovers (by simp) hreserved rfl (by simp) (by simp)
  | endOfText => exact absurd rfl hcovers.category_ne_endOfText
  | _ => cases hmeaning

end Token.Kind

namespace TokenStream

variable {text : Bytes} {x : Placed} {token : Token} {diagnostics : List Diagnostic}

theorem spells_of_cookAt (htext : text.length < Offset.limit) (hlies : x.LiesIn text)
    (hcook : cookAt text x = some (token, diagnostics)) (herror : token.kind ≠ .error) :
    Token.Kind.Spells ((ofBytes text).textOf token.span) token.kind := by
  rw [textOf_ofBytes htext, span_of_cookAt hcook]
  obtain ⟨reading, hmeaning, hreading⟩ := Option.map_eq_some_iff.mp hcook
  cases reading with
  | error complaint =>
      cases hreading
      contradiction
  | ok kind =>
      cases hreading
      have hcategory : x.category.isError = false := by
        cases hx : x.category <;> rw [hx] at hmeaning <;> first | rfl | cases hmeaning
      exact Token.Kind.spells_of_meaning (hlies.first.covers hcategory) hmeaning

/-- In every session over a text the tokens that it hands out, but for errors and the end, are
spelled as what they cover. And a word, looked up among those of its length only, is found if and
only if it is reserved. -/
theorem session_spells (htext : text.length + 1 < Offset.limit) :
    (∀ requests, ∃ responses t, (ofBytes text).session requests = .ok (responses, t) ∧
      ∀ token ∈ responses.flatMap Response.handed, token.kind ≠ .error →
        token.kind ≠ .endOfText →
          Token.Kind.Spells ((ofBytes text).textOf token.span) token.kind) ∧
      ∀ word : Bytes, Keyword.ofBytes? word = Keyword.lookup? word ∧
        ((Keyword.lookup? word).isSome = true ↔ Keyword.IsReserved word) := by
  have hlimit : text.length < Offset.limit := by omega
  obtain ⟨pieces, hcuts⟩ := exists_cuts hlimit
  constructor
  · intro requests
    obtain ⟨responses, t, rest, cooked, ends, hsession, hhanded, hdelivers⟩ :=
      session_ofBytes htext hcuts requests
    refine ⟨responses, t, hsession, ?_⟩
    intro token htoken herror hend
    rw [hhanded] at htoken
    rcases mem_delivered hcuts hdelivers.isPrefix htoken with rfl | ⟨_, x, _, hlies, hcook⟩
    · exact absurd rfl hend
    · exact spells_of_cookAt hlimit hlies hcook herror
  · intro word
    rw [Keyword.lookup?_eq]
    exact ⟨rfl, Keyword.isSome_ofBytes?_iff⟩

/-- A reserved word, the same word before a dot, and a brace. -/
theorem session_spells_dotted :
    let text : Bytes :=
      [0x73, 0x65, 0x74, 0x20, 0x73, 0x65, 0x74, 0x2e, 0x78, 0x20, 0x7b]
    text.length + 1 < Offset.limit ∧
      (∀ requests, ∃ responses t, (ofBytes text).session requests = .ok (responses, t) ∧
        ∀ token ∈ responses.flatMap Response.handed, token.kind ≠ .error →
          token.kind ≠ .endOfText →
            Token.Kind.Spells ((ofBytes text).textOf token.span) token.kind) ∧
        ∀ word : Bytes, Keyword.ofBytes? word = Keyword.lookup? word ∧
          ((Keyword.lookup? word).isSome = true ↔ Keyword.IsReserved word) :=
  ⟨by decide, session_spells (by decide)⟩

end TokenStream

end IdlLexis
