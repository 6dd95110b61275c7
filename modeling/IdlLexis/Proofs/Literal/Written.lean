import IdlLexis.Literal.Quoted
import IdlLexis.Proofs.Lexeme.Quoted
import IdlLexis.Proofs.Text.Utf8
/-!
A text written between quotes. Three characters are written as escapes: the backslash, the quote
and the line feed. Each character is written as items of the grammar, which read back as the
bytes of that character, so the whole reads back as the text.
-/

namespace IdlLexis

open Lexeme (QuotedItem)

namespace Literal

namespace Quoted

def quoteChar : Quote → Char
  | .double => '"'
  | .single => '\''

def writeChar (quote : Quote) (c : Char) : List Char :=
  if c = '\\' then ['\\', '\\']
  else if c = quoteChar quote then ['\\', c]
  else if c = '\n' then ['\\', 'n']
  else [c]

def write (quote : Quote) (text : List Char) : List Char :=
  quoteChar quote :: text.flatMap (writeChar quote) ++ [quoteChar quote]

variable {quote : Quote} {bytes digits rest meant body : Bytes} {b letter style : Byte}
  {escape : Byte → Bytes → Except Failure Escape} {failure : Failure}

/-! How bytes and escapes read back before whatever follows. -/

theorem map_resolve_nil (escape : Byte → Bytes → Except Failure Escape) (bytes : Bytes) :
    (bytes ++ ·) <$> resolve escape [] = .ok bytes := by
  rw [resolve]
  exact congrArg Except.ok (List.append_nil bytes)

theorem resolve_plain (h : ∀ b ∈ bytes, b ≠ Byte.backslash) (rest : Bytes) :
    resolve escape (bytes ++ rest) = (bytes ++ ·) <$> resolve escape rest := by
  induction bytes with
  | nil =>
      rw [List.nil_append]
      cases resolve escape rest <;> rfl
  | cons b bytes ih =>
      obtain ⟨hb, hbytes⟩ := List.forall_mem_cons.mp h
      rw [List.cons_append, resolve.eq_def]
      dsimp only
      rw [if_neg hb, ih hbytes]
      cases resolve escape rest <;> rfl

theorem resolve_escape (h : escape letter (digits ++ rest) = .ok ⟨meant, digits.length⟩) :
    resolve escape (Byte.backslash :: letter :: (digits ++ rest)) =
      (meant ++ ·) <$> resolve escape rest := by
  rw [resolve.eq_def]
  dsimp only
  rw [if_pos rfl, h]
  dsimp only
  rw [List.drop_left]
  cases resolve escape rest <;> rfl

/-! A body, by what its bytes read as. -/

/-- A body without a backslash need not be read, for it would be read as itself. -/
theorem bodyBytes_eq_resolve (style : Byte) (body : Bytes) :
    bodyBytes style body = resolve (escapesOf style) body := by
  unfold bodyBytes
  split
  · rfl
  · next hbackslash =>
      rw [List.contains_iff_mem] at hbackslash
      have hplain := @resolve_plain body (escapesOf style)
        (fun b hb heq => hbackslash (heq ▸ hb)) []
      rw [List.append_nil, map_resolve_nil] at hplain
      exact hplain.symm

theorem readBody_of_lineFeed (hline : Byte.lineFeed ∈ body) :
    readBody style body = .error .rawLineFeed := by
  rw [readBody, if_pos (List.contains_iff_mem.mpr hline)]

theorem readBody_of_error (hline : Byte.lineFeed ∉ body)
    (h : resolve (escapesOf style) body = .error failure) :
    readBody style body = .error failure := by
  rw [readBody, if_neg (mt List.contains_iff_mem.mp hline), bodyBytes_eq_resolve, h]
  rfl

theorem readBody_of_ok (hline : Byte.lineFeed ∉ body)
    (h : resolve (escapesOf style) body = .ok bytes) :
    readBody style body =
      match Utf8.decode? bytes with
      | some text => .ok text
      | none => .error .illFormedText := by
  rw [readBody, if_neg (mt List.contains_iff_mem.mp hline), bodyBytes_eq_resolve, h]
  rfl

/-- A body fails by a line feed, by its bytes, or where its escapes do not resolve. -/
theorem failure_of_readBody (h : readBody style body = .error failure) :
    (Byte.lineFeed ∈ body ∧ failure = .rawLineFeed) ∨ failure = .illFormedText ∨
      (Byte.lineFeed ∉ body ∧ resolve (escapesOf style) body = .error failure) := by
  by_cases hline : Byte.lineFeed ∈ body
  · rw [readBody_of_lineFeed hline] at h
    cases h
    exact .inl ⟨hline, rfl⟩
  · cases hresolve : resolve (escapesOf style) body with
    | error cause =>
        rw [readBody_of_error hline hresolve] at h
        cases h
        exact .inr (.inr ⟨hline, rfl⟩)
    | ok bytes =>
        rw [readBody_of_ok hline hresolve] at h
        split at h
        · contradiction
        · cases h
          exact .inr (.inl rfl)

/-! Characters, and the items that they are written as. -/

/-- What a character is written as: items that read back as its bytes. -/
structure WritesItems (quote : Quote) (written : Bytes) (items : List Bytes) (meant : Bytes) :
    Prop where
  flatten_eq : items.flatten = written
  quoted : ∀ item ∈ items, QuotedItem quote item
  resolve_eq : ∀ rest, resolve (escapesOf quote.byte) (written ++ rest) =
    (meant ++ ·) <$> resolve (escapesOf quote.byte) rest

theorem WritesItems.append {written meant written' meant' : Bytes} {items items' : List Bytes}
    (h : WritesItems quote written items meant) (h' : WritesItems quote written' items' meant') :
    WritesItems quote (written ++ written') (items ++ items') (meant ++ meant') := by
  constructor
  · rw [List.flatten_append, h.flatten_eq, h'.flatten_eq]
  · exact List.forall_mem_append.mpr ⟨h.quoted, h'.quoted⟩
  · intro rest
    rw [List.append_assoc, h.resolve_eq, h'.resolve_eq]
    cases resolve (escapesOf quote.byte) rest with
    | error failure => rfl
    | ok resolved => simp [Functor.map, Except.map]

theorem writesItems_escape (hletter : letter ≠ Byte.lineFeed)
    (hescape : ∀ rest, escapesOf quote.byte letter rest = .ok ⟨[b], 0⟩) :
    WritesItems quote [Byte.backslash, letter] [[Byte.backslash, letter]] [b] := by
  constructor
  · rfl
  · exact List.forall_mem_singleton.mpr (.escape hletter)
  · intro rest
    exact @resolve_escape [] rest [b] letter _ (hescape rest)

theorem writesItems_plain (hquote : quote.byte ∉ bytes) (hbackslash : Byte.backslash ∉ bytes)
    (hline : Byte.lineFeed ∉ bytes) : WritesItems quote bytes (bytes.map ([·])) bytes := by
  constructor
  · simp [List.flatten_eq_flatMap, List.flatMap_map]
  · intro item hitem
    obtain ⟨b, hb, rfl⟩ := List.mem_map.mp hitem
    exact .plain (fun heq => hquote (heq ▸ hb)) (fun heq => hbackslash (heq ▸ hb))
      (fun heq => hline (heq ▸ hb))
  · intro rest
    exact resolve_plain (fun b hb heq => hbackslash (heq ▸ hb)) rest

theorem writesItems_char (quote : Quote) (c : Char) :
    ∃ items, WritesItems quote (Utf8.encode (writeChar quote c)) items
      (String.utf8EncodeChar c) := by
  unfold writeChar
  by_cases hbackslash : c = '\\'
  · rw [if_pos hbackslash, hbackslash]
    refine ⟨_, writesItems_escape (by decide) ?_⟩
    intro rest
    cases quote <;> rfl
  rw [if_neg hbackslash]
  by_cases hquote : c = quoteChar quote
  · rw [if_pos hquote, hquote]
    cases quote with
    | double => exact ⟨_, writesItems_escape (by decide) fun _ => rfl⟩
    | single => exact ⟨_, writesItems_escape (by decide) fun _ => rfl⟩
  rw [if_neg hquote]
  by_cases hline : c = '\n'
  · rw [if_pos hline, hline]
    refine ⟨_, writesItems_escape (by decide) ?_⟩
    intro rest
    cases quote <;> rfl
  rw [if_neg hline, Utf8.encode_cons, Utf8.encode_nil, List.append_nil]
  refine ⟨_, writesItems_plain ?_ ?_ ?_⟩
  · cases quote with
    | double => exact Utf8.not_mem_encodeChar (by decide) hquote
    | single => exact Utf8.not_mem_encodeChar (by decide) hquote
  · exact Utf8.not_mem_encodeChar (by decide) hbackslash
  · exact Utf8.not_mem_encodeChar (by decide) hline

theorem writesItems_text (quote : Quote) (text : List Char) :
    ∃ items, WritesItems quote (Utf8.encode (text.flatMap (writeChar quote))) items
      (Utf8.encode text) := by
  induction text with
  | nil =>
      refine ⟨[], rfl, by simp, ?_⟩
      intro rest
      exact @resolve_plain [] _ (by simp) rest
  | cons c text ih =>
      obtain ⟨front, hfront⟩ := writesItems_char quote c
      obtain ⟨back, hback⟩ := ih
      rw [List.flatMap_cons, Utf8.encode_append, Utf8.encode_cons]
      exact ⟨front ++ back, hfront.append hback⟩

theorem encode_write (quote : Quote) (text : List Char) :
    Utf8.encode (write quote text) =
      quote.byte :: (Utf8.encode (text.flatMap (writeChar quote)) ++ [quote.byte]) := by
  have hchar : String.utf8EncodeChar (quoteChar quote) = [quote.byte] := by
    cases quote <;> rfl
  rw [write, List.cons_append, Utf8.encode_cons, Utf8.encode_append, Utf8.encode_cons, hchar]
  rfl

theorem WritesItems.lineFeed_not_mem {written meant : Bytes} {items : List Bytes}
    (h : WritesItems quote written items meant) : Byte.lineFeed ∉ written := by
  rw [← h.flatten_eq]
  intro hmem
  exact absurd (Lexeme.items_no_lineFeed h.quoted _ hmem) (by decide)

theorem decode_write (quote : Quote) (text : String) :
    decode (Utf8.encode (write quote text.toList)) = .ok text := by
  obtain ⟨items, hitems⟩ := writesItems_text quote text.toList
  have hresolve := hitems.resolve_eq []
  rw [List.append_nil, map_resolve_nil] at hresolve
  rw [encode_write, decode, if_pos ⟨by rw [Quote.ofByte?_byte]; rfl, List.getLast?_concat⟩,
    List.dropLast_concat, readBody_of_ok hitems.lineFeed_not_mem hresolve, Utf8.decode?_encode]

theorem covers_write (quote : Quote) (text : List Char) (tail : Bytes) :
    Lexeme.First (.quoted quote) (Utf8.encode (write quote text))
      (Utf8.encode (write quote text) ++ tail) := by
  obtain ⟨items, hitems⟩ := writesItems_text quote text
  rw [encode_write, ← hitems.flatten_eq]
  exact .inl (Lexeme.isLongest_quoted hitems.quoted)

end Quoted

end Literal

end IdlLexis
