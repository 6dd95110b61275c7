import IdlLexis.Proofs.Lexeme.Opening
import IdlLexis.Proofs.Source.Moves
/-!
Quoted literals. A body falls into items in one way only, up to a place at which no item begins:
the closing quote, or where the literal is cut off. A reader that jumps from delimiter to
delimiter comes to the same place as one that goes item by item.
-/

namespace IdlLexis

namespace Lexeme

variable {quote : Quote} {item other more text cut tail : Bytes} {items others : List Bytes}

/-- No item of a literal begins here. -/
def Stuck (quote : Quote) (text : Bytes) : Prop :=
  ∀ item more, QuotedItem quote item → item ++ more ≠ text

/-- Where a literal is cut off: it still takes `cut`, and the text then has ended or has come to
the end of the line. -/
structure CutOff (cut tail : Bytes) : Prop where
  cut_eq : cut = [] ∨ cut = [Byte.backslash]
  stops : Stops (· != Byte.lineFeed) tail

theorem quote_ne_backslash (quote : Quote) : quote.byte ≠ Byte.backslash := by
  cases quote <;> decide

theorem quote_ne_lineFeed (quote : Quote) : quote.byte ≠ Byte.lineFeed := by
  cases quote <;> decide

theorem stuck_quote : Stuck quote (quote.byte :: tail) := by
  intro item more hitem heq
  cases hitem with
  | plain hquote _ _ => exact hquote (List.cons.inj heq).1
  | escape _ => exact quote_ne_backslash quote (List.cons.inj heq).1.symm

theorem CutOff.stuck (h : CutOff cut tail) : Stuck quote (cut ++ tail) := by
  intro item more hitem heq
  obtain ⟨hcut, hstops⟩ := h
  rcases hcut with rfl | rfl
  · rw [List.nil_append] at heq
    rw [← heq] at hstops
    cases hitem with
    | plain _ _ hline => exact hline (by simpa using hstops)
    | escape _ => exact absurd (stops_cons.mp hstops) (by decide)
  · cases hitem with
    | plain _ hbackslash _ => exact hbackslash (List.cons.inj heq).1
    | escape hline =>
        have htail := (List.cons.inj heq).2
        change _ :: more = tail at htail
        rw [← htail] at hstops
        exact hline (by simpa using hstops)

theorem CutOff.ne_quote (h : CutOff cut tail) : cut ++ tail ≠ quote.byte :: more := by
  intro heq
  obtain ⟨hcut, hstops⟩ := h
  rcases hcut with rfl | rfl
  · rw [List.nil_append] at heq
    rw [heq] at hstops
    exact quote_ne_lineFeed quote (by simpa using hstops)
  · exact quote_ne_backslash quote (List.cons.inj heq).1.symm

theorem QuotedItem.append_inj (hitem : QuotedItem quote item) (hother : QuotedItem quote other)
    (heq : item ++ more = other ++ tail) : item = other ∧ more = tail := by
  cases hitem with
  | plain _ hbackslash _ =>
      cases hother with
      | plain _ _ _ =>
          cases heq
          exact ⟨rfl, rfl⟩
      | escape _ => exact absurd (List.cons.inj heq).1 hbackslash
  | escape _ =>
      cases hother with
      | plain _ hbackslash _ => exact absurd (List.cons.inj heq).1.symm hbackslash
      | escape _ =>
          cases heq
          exact ⟨rfl, rfl⟩

theorem QuotedItem.no_lineFeed (h : QuotedItem quote item) :
    ∀ b ∈ item, (b != Byte.lineFeed) = true := by
  intro b hb
  cases h with
  | plain _ _ hline =>
      rw [List.mem_singleton.mp hb]
      exact bne_iff_ne.mpr hline
  | escape hline =>
      rcases List.mem_cons.mp hb with rfl | hb
      · decide
      · rw [List.mem_singleton.mp hb]
        exact bne_iff_ne.mpr hline

theorem items_no_lineFeed (hitems : ∀ item ∈ items, QuotedItem quote item) :
    ∀ b ∈ items.flatten, (b != Byte.lineFeed) = true := by
  intro b hb
  obtain ⟨item, hitem, hmem⟩ := List.mem_flatten.mp hb
  exact (hitems item hitem).no_lineFeed b hmem

theorem items_unique (hitems : ∀ item ∈ items, QuotedItem quote item)
    (hothers : ∀ item ∈ others, QuotedItem quote item) (htext : Stuck quote text)
    (hmore : Stuck quote more) (heq : items.flatten ++ text = others.flatten ++ more) :
    items = others ∧ text = more := by
  induction items generalizing others with
  | nil =>
      cases others with
      | nil => exact ⟨rfl, heq⟩
      | cons other others =>
          rw [List.flatten_nil, List.nil_append, List.flatten_cons, List.append_assoc] at heq
          exact absurd heq.symm (htext _ _ (hothers other List.mem_cons_self))
  | cons item items ih =>
      have hitem := hitems item List.mem_cons_self
      cases others with
      | nil =>
          rw [List.flatten_nil, List.nil_append, List.flatten_cons, List.append_assoc] at heq
          exact absurd heq (hmore _ _ hitem)
      | cons other others =>
          rw [List.flatten_cons, List.flatten_cons, List.append_assoc, List.append_assoc] at heq
          obtain ⟨rfl, hrest⟩ := hitem.append_inj (hothers other List.mem_cons_self) heq
          obtain ⟨rfl, htail⟩ := ih (fun i hi => hitems i (List.mem_cons_of_mem item hi))
            (fun i hi => hothers i (List.mem_cons_of_mem item hi)) hrest
          exact ⟨rfl, htail⟩

/-! Every text falls into items up to a closing quote, or up to where the literal is cut off. -/

def Falls (quote : Quote) (text : Bytes) : Prop :=
  ∃ items : List Bytes, (∀ item ∈ items, QuotedItem quote item) ∧
    ((∃ tail, text = items.flatten ++ quote.byte :: tail) ∨
      ∃ cut tail, text = items.flatten ++ (cut ++ tail) ∧ CutOff cut tail)

theorem Falls.cons (hitem : QuotedItem quote item) (h : Falls quote text) :
    Falls quote (item ++ text) := by
  obtain ⟨items, hitems, hend⟩ := h
  refine ⟨item :: items, List.forall_mem_cons.mpr ⟨hitem, hitems⟩, ?_⟩
  rw [List.flatten_cons]
  rcases hend with ⟨tail, rfl⟩ | ⟨cut, tail, rfl, hcut⟩
  · exact .inl ⟨tail, (List.append_assoc ..).symm⟩
  · exact .inr ⟨cut, tail, (List.append_assoc ..).symm, hcut⟩

theorem Falls.of_quote : Falls quote (quote.byte :: tail) :=
  ⟨[], by simp, .inl ⟨tail, rfl⟩⟩

theorem Falls.of_cutOff (h : CutOff cut tail) : Falls quote (cut ++ tail) :=
  ⟨[], by simp, .inr ⟨cut, tail, rfl, h⟩⟩

theorem falls (quote : Quote) (text : Bytes) : Falls quote text := by
  induction hlength : text.length using Nat.strongRecOn generalizing text with
  | ind length ih =>
      cases text with
      | nil => exact .of_cutOff ⟨.inl rfl, stops_nil⟩
      | cons b text =>
          rw [List.length_cons] at hlength
          by_cases hquote : b = quote.byte
          · rw [hquote]
            exact .of_quote
          · by_cases hline : b = Byte.lineFeed
            · have hcut : CutOff [] (b :: text) := ⟨.inl rfl, by simp [hline]⟩
              exact .of_cutOff hcut
            · by_cases hbackslash : b = Byte.backslash
              · subst hbackslash
                cases text with
                | nil => exact .of_cutOff ⟨.inr rfl, stops_nil⟩
                | cons c text =>
                    rw [List.length_cons] at hlength
                    by_cases hnext : c = Byte.lineFeed
                    · have hcut : CutOff [Byte.backslash] (c :: text) :=
                        ⟨.inr rfl, by simp [hnext]⟩
                      exact .of_cutOff hcut
                    · exact .cons (.escape hnext) (ih text.length (by omega) text rfl)
              · exact .cons (.plain hquote hbackslash hline)
                  (ih text.length (by omega) text rfl)

theorem isLongest_quoted (hitems : ∀ item ∈ items, QuotedItem quote item) :
    IsLongest (.quoted quote) (quote.byte :: items.flatten ++ [quote.byte])
      (quote.byte :: items.flatten ++ [quote.byte] ++ tail) := by
  apply isLongest_append (.quoted hitems)
  intro other longer more hother heq
  have hopening : longer ++ more = quote.byte :: (items.flatten ++ quote.byte :: tail) := by
    simpa using heq
  obtain rfl := Category.mayBegin_quote quote _ (hother.mayBegin_of_append hopening)
  cases hother with
  | @quoted _ others hothers =>
      have hbodies : others.flatten ++ quote.byte :: more =
          items.flatten ++ quote.byte :: tail := by
        simpa using hopening
      obtain ⟨rfl, _⟩ := items_unique hothers hitems stuck_quote stuck_quote hbodies
      exact Nat.le_refl _

theorem uncovered_openQuote (hitems : ∀ item ∈ items, QuotedItem quote item)
    (hcut : CutOff cut tail) : Uncovered (quote.byte :: (items.flatten ++ (cut ++ tail))) := by
  rintro category front hcovers ⟨more, heq⟩
  obtain rfl := Category.mayBegin_quote quote _ (hcovers.mayBegin_of_append heq)
  cases hcovers with
  | @quoted _ others hothers =>
      have hbodies : others.flatten ++ quote.byte :: more = items.flatten ++ (cut ++ tail) := by
        simpa using heq
      obtain ⟨_, htail⟩ := items_unique hothers hitems stuck_quote hcut.stuck hbodies
      exact hcut.ne_quote htail.symm

theorem takeWhile_openQuote (hitems : ∀ item ∈ items, QuotedItem quote item)
    (hcut : CutOff cut tail) :
    (quote.byte :: (items.flatten ++ (cut ++ tail))).takeWhile (· != Byte.lineFeed) =
      quote.byte :: items.flatten ++ cut := by
  have htext : quote.byte :: (items.flatten ++ (cut ++ tail)) =
      (quote.byte :: items.flatten ++ cut) ++ tail := by
    simp
  rw [htext]
  apply takeWhile_run _ hcut.stops
  intro b hb
  rcases List.mem_append.mp hb with hb | hb
  · rcases List.mem_cons.mp hb with rfl | hb
    · exact bne_iff_ne.mpr (quote_ne_lineFeed quote)
    · exact items_no_lineFeed hitems b hb
  · rcases hcut.cut_eq with rfl | rfl
    · cases hb
    · rw [List.mem_singleton.mp hb]
      decide

end Lexeme

namespace Reader

open Lexeme (QuotedItem CutOff)

/-! What `closeQuote` does is settled by where the next delimiter is and what it is. -/

section Close

variable {r stop rest : Reader} {quote : Quote} {b : Byte} {passed : Bool} {fault : Fault}

theorem closeQuote_of_fault (hstop : r.skipToDelimiter quote.byte = .error fault) :
    r.closeQuote quote = .error fault := by
  rw [closeQuote]
  split <;> rename_i h <;> rw [hstop] at h <;> cases h
  rfl

theorem closeQuote_of_none (hstop : r.skipToDelimiter quote.byte = .ok (none, stop)) :
    r.closeQuote quote = .ok (false, stop) := by
  rw [closeQuote]
  split <;> rename_i h <;> rw [hstop] at h <;> cases h
  rfl

theorem closeQuote_of_backslash
    (hstop : r.skipToDelimiter quote.byte = .ok (some Byte.backslash, stop)) :
    r.closeQuote quote = (do
      let (passed, rest) ← stop.passEscape
      if passed then rest.closeQuote quote else return (false, rest)) := by
  rw [closeQuote]
  split <;> rename_i h <;> rw [hstop] at h <;> cases h
  rw [if_pos rfl]
  split <;> rename_i hpass <;> simp only [hpass] <;> rfl

theorem closeQuote_of_other (hstop : r.skipToDelimiter quote.byte = .ok (some b, stop))
    (hb : b ≠ Byte.backslash) :
    r.closeQuote quote =
      if b = Byte.lineFeed then .ok (false, stop)
      else (fun r => (true, r)) <$> stop.advance 1 := by
  rw [closeQuote]
  split <;> rename_i h <;> rw [hstop] at h <;> cases h
  rw [if_neg hb]
  rfl

theorem closeQuote_congr {r' : Reader}
    (h : r.skipToDelimiter quote.byte = r'.skipToDelimiter quote.byte) :
    r.closeQuote quote = r'.closeQuote quote := by
  cases hstop : r'.skipToDelimiter quote.byte with
  | error fault => rw [closeQuote_of_fault (h.trans hstop), closeQuote_of_fault hstop]
  | ok result =>
      obtain ⟨stopped, stop⟩ := result
      cases stopped with
      | none => rw [closeQuote_of_none (h.trans hstop), closeQuote_of_none hstop]
      | some b =>
          by_cases hb : b = Byte.backslash
          · subst hb
            rw [closeQuote_of_backslash (h.trans hstop), closeQuote_of_backslash hstop]
          · rw [closeQuote_of_other (h.trans hstop) hb, closeQuote_of_other hstop hb]

end Close

namespace Faces

variable {r : Reader} {quote : Quote} {b : Byte} {text cut tail : Bytes} {items : List Bytes}

theorem skipToDelimiter_nil (h : r.Faces []) (q : Byte) :
    r.skipToDelimiter q = .ok (none, r) := by
  have hsearch : r.search (fun i => (r.source.padded[i]?).any (isDelimiter q)) = .ok none :=
    @search r [] [] _ h (by simp) (by simp)
  rw [Reader.skipToDelimiter, hsearch, h.eq_toEnd]
  rfl

theorem any_padded (h : r.Faces (b :: text)) (test : Byte → Bool) :
    (r.source.padded[r.offset]?).any test = test b := by
  have hget := h.padded (i := 0) (by simp)
  rw [Nat.add_zero] at hget
  rw [hget]
  rfl

theorem skipToDelimiter_here (h : r.Faces (b :: text)) {q : Byte}
    (hb : isDelimiter q b = true) : r.skipToDelimiter q = .ok (some b, r) := by
  have hsearch : r.search (fun i => (r.source.padded[i]?).any (isDelimiter q)) =
      .ok (some r.offset) := by
    apply @search r [] (b :: text) _ h (by simp)
    intro _
    exact (h.any_padded _).trans hb
  rw [Reader.skipToDelimiter, hsearch]
  change (do
    let b ← r.look 0
    return (some b, r)) = _
  rw [h.look_zero]
  rfl

theorem skipToDelimiter_later (h : r.Faces (b :: text)) {q : Byte}
    (hb : isDelimiter q b = false) : r.skipToDelimiter q = (r.after 1).skipToDelimiter q := by
  have hsearch : r.search (fun i => (r.source.padded[i]?).any (isDelimiter q)) =
      (r.after 1).search (fun i => (r.source.padded[i]?).any (isDelimiter q)) :=
    h.search_cons ((h.any_padded _).trans hb)
  rw [Reader.skipToDelimiter, Reader.skipToDelimiter, hsearch]
  rfl

theorem passEscape_cut (h : r.Faces (Byte.backslash :: tail))
    (hstops : Lexeme.Stops (· != Byte.lineFeed) tail) :
    r.passEscape = .ok (false, r.after 1) := by
  rw [Reader.passEscape, h.advance_one, Fault.ok_bind, h.after_cons.look_zero, Fault.ok_bind,
    h.after_cons.atEnd]
  cases tail with
  | nil => rfl
  | cons b tail =>
      have hb : b = Byte.lineFeed := by simpa using hstops
      rw [List.headD_cons, if_pos hb]
      rfl

theorem passEscape_item (h : r.Faces (Byte.backslash :: b :: tail)) (hb : b ≠ Byte.lineFeed) :
    r.passEscape = .ok (true, r.after 2) := by
  rw [Reader.passEscape, h.advance_one, Fault.ok_bind, h.after_cons.look_zero, Fault.ok_bind,
    h.after_cons.atEnd, List.headD_cons, if_neg hb, Fault.ok_bind, h.after_cons.advance_one,
    after_after]
  rfl

/-! A reader before an item does what a reader after the item does. -/

theorem closeQuote_item {item : Bytes} (h : r.Faces (item ++ text))
    (hitem : QuotedItem quote item) :
    r.closeQuote quote = (r.after item.length).closeQuote quote := by
  cases hitem with
  | @plain b hquote hbackslash hline =>
      apply closeQuote_congr
      apply h.skipToDelimiter_later
      simp [isDelimiter, hquote, hbackslash, hline]
  | @escape b hline =>
      have hdelimiter : isDelimiter quote.byte Byte.backslash = true := by
        simp [isDelimiter]
      rw [closeQuote_of_backslash (h.skipToDelimiter_here hdelimiter), h.passEscape_item hline]
      rfl

theorem closeQuote_items (h : r.Faces (items.flatten ++ text))
    (hitems : ∀ item ∈ items, QuotedItem quote item) :
    r.closeQuote quote = (r.after items.flatten.length).closeQuote quote := by
  induction items generalizing r with
  | nil => rfl
  | cons item items ih =>
      rw [List.flatten_cons, List.append_assoc] at h
      rw [h.closeQuote_item (hitems item List.mem_cons_self),
        ih h.after fun i hi => hitems i (List.mem_cons_of_mem item hi), after_after,
        List.flatten_cons, List.length_append]

theorem closeQuote_here (h : r.Faces (quote.byte :: tail)) :
    r.closeQuote quote = .ok (true, r.after 1) := by
  have hdelimiter : isDelimiter quote.byte quote.byte = true := by
    simp [isDelimiter]
  rw [closeQuote_of_other (h.skipToDelimiter_here hdelimiter) (Lexeme.quote_ne_backslash quote),
    if_neg (Lexeme.quote_ne_lineFeed quote), h.advance_one]
  rfl

theorem closeQuote_cutOff (h : r.Faces (cut ++ tail)) (hcut : CutOff cut tail) :
    r.closeQuote quote = .ok (false, r.after cut.length) := by
  obtain ⟨hcut, hstops⟩ := hcut
  rcases hcut with rfl | rfl
  · cases tail with
    | nil => exact closeQuote_of_none (h.skipToDelimiter_nil _)
    | cons b tail =>
        have hb : b = Byte.lineFeed := by simpa using hstops
        subst hb
        have hdelimiter : isDelimiter quote.byte Byte.lineFeed = true := by
          simp [isDelimiter]
        rw [closeQuote_of_other (h.skipToDelimiter_here hdelimiter) (by decide), if_pos rfl]
        rfl
  · have hdelimiter : isDelimiter quote.byte Byte.backslash = true := by
      simp [isDelimiter]
    rw [closeQuote_of_backslash (h.skipToDelimiter_here hdelimiter), h.passEscape_cut hstops]
    rfl

theorem readsFirst_quoted (h : r.Faces (quote.byte :: text)) :
    r.ReadsFirst (quote.byte :: text) (r.readQuoted quote) := by
  have hbody := h.after_cons
  obtain ⟨items, hitems, hend⟩ := Lexeme.falls quote text
  rcases hend with ⟨tail, rfl⟩ | ⟨cut, tail, rfl, hcut⟩
  · have hclose := hbody.closeQuote_items hitems
    rw [hbody.after.closeQuote_here] at hclose
    have htext : quote.byte :: (items.flatten ++ quote.byte :: tail) =
        quote.byte :: items.flatten ++ [quote.byte] ++ tail := by
      simp
    rw [htext]
    refine .of_longest (Lexeme.isLongest_quoted hitems) ?_
    have hlength : (quote.byte :: items.flatten ++ [quote.byte]).length =
        1 + items.flatten.length + 1 := by
      simp only [List.length_append, List.length_cons, List.length_nil]
      omega
    rw [Reader.readQuoted, h.advance_one, Fault.ok_bind, hclose, Fault.ok_bind, after_after,
      after_after, hlength]
    rfl
  · have hclose := hbody.closeQuote_items hitems
    rw [hbody.after.closeQuote_cutOff hcut] at hclose
    refine .of_mistake (Lexeme.uncovered_openQuote hitems hcut) .openQuote ?_
    have hlength : (quote.byte :: items.flatten ++ cut).length =
        1 + (items.flatten.length + cut.length) := by
      simp only [List.length_append, List.length_cons]
      omega
    rw [Lexeme.takeWhile_openQuote hitems hcut, Reader.readQuoted, h.advance_one, Fault.ok_bind,
      hclose, Fault.ok_bind, after_after, after_after, hlength]
    rfl

end Faces

end Reader

end IdlLexis
