import IdlLexis.Proofs.Lexeme.Pieces
/-!
How far a lexeme looks ahead. Between the longest front of a text that a category covers and any
other covered front lie steps of at most three bytes: an exponent begins with a mark, a sign and a
digit, and nothing else needs as many. No step passes the end of a line. So what follows a lexeme
settles it by its next three bytes, or by those up to the end of the line if they are fewer.
-/

namespace IdlLexis

namespace Lexeme

/-- A lexeme of the category ends in blanks, or takes its line to the end. -/
def Category.takesBlanks : Category → Bool
  | blank | lineComment | openQuote => true
  | _ => false

/-- The bytes that no lexeme of the category goes on over: line feeds, and carriage returns unless
it takes blanks along. -/
def Category.halts (category : Category) (b : Byte) : Bool :=
  b == Byte.lineFeed || (b == Byte.carriageReturn && !category.takesBlanks)

/-- What a lexeme of the category may see of what follows it. -/
def nearby (category : Category) (tail : Bytes) : Bytes :=
  (tail.takeWhile (!category.halts ·)).take 3

variable {category other : Category} {front tail ext more text : Bytes} {b : Byte}

theorem Category.halts_lineFeed (category : Category) : category.halts Byte.lineFeed = true := rfl

theorem prefix_of_nearby (h : ext <+: nearby category tail) : ext <+: tail :=
  h.trans ((List.take_prefix _ _).trans (List.takeWhile_prefix _))

theorem prefix_nearby (hlength : ext.length ≤ 3) (hext : ∀ b ∈ ext, category.halts b = false) :
    ext <+: nearby category (ext ++ tail) := by
  rw [nearby, List.takeWhile_append_of_pos (by simpa using hext), List.prefix_take_iff]
  exact ⟨List.prefix_append _ _, hlength⟩

theorem nearby_eq_nil_iff : nearby category tail = [] ↔ Stops (!category.halts ·) tail := by
  cases tail with
  | nil => simp [nearby]
  | cons b tail =>
      rw [stops_cons, nearby]
      cases hb : category.halts b <;> simp [hb]

theorem nearby_eq_nil_of_takesBlanks (h : category.takesBlanks = true) :
    nearby category tail = [] ↔ Stops (· != Byte.lineFeed) tail := by
  have hhalts : (!category.halts ·) = (· != Byte.lineFeed) := by
    funext b
    simp [Category.halts, h, bne]
  rw [nearby_eq_nil_iff, hhalts]

/-! Where a line ends, the end of the text could be. -/

theorem nearby_append_lineFeed (category : Category) (tail more : Bytes) :
    nearby category (tail ++ Byte.lineFeed :: more) = nearby category tail := by
  rw [nearby, nearby]
  congr 1
  induction tail with
  | nil => simp [category.halts_lineFeed]
  | cons b tail ih =>
      rw [List.cons_append, List.takeWhile_cons, List.takeWhile_cons, ih]

theorem nearby_lineFeed (category : Category) (more : Bytes) :
    nearby category (Byte.lineFeed :: more) = [] := by
  rw [nearby_eq_nil_iff, stops_cons, category.halts_lineFeed]
  rfl

theorem take_takeWhile (test : Byte → Bool) (count : Nat) (text : Bytes) :
    (text.takeWhile test).take count = (text.take count).takeWhile test := by
  induction text generalizing count with
  | nil => simp
  | cons b text ih =>
      cases count with
      | zero => simp
      | succ count =>
          rw [List.take_succ_cons, List.takeWhile_cons, List.takeWhile_cons]
          split
          · rw [List.take_succ_cons, ih]
          · rfl

theorem nearby_congr (h : tail.take 3 = more.take 3) (category : Category) :
    nearby category tail = nearby category more := by
  rw [nearby, nearby, take_takeWhile, take_takeWhile, h]

/-! A covered front stays the longest one as long as no step leads on from it. -/

/-- Nothing nearby makes a longer lexeme of the front. -/
def Stays (category : Category) (front tail : Bytes) : Prop :=
  ∀ other ext, Covers other (front ++ ext) → ext <+: nearby category tail → ext = []

namespace Stays

variable {test : Byte → Bool}

theorem absurd_of_step (h : Stays category front (ext ++ tail)) (hne : ext ≠ [])
    (hlength : ext.length ≤ 3) (hext : ∀ b ∈ ext, category.halts b = false) :
    ¬ Covers other (front ++ ext) :=
  fun hcovers => hne (h other ext hcovers (prefix_nearby hlength hext))

/-- A byte that the front can take along does not follow it. -/
theorem stops (h : Stays category front tail)
    (htest : ∀ b, test b = true → category.halts b = false)
    (hcovers : ∀ b, test b = true → ∃ other, Covers other (front ++ [b])) : Stops test tail := by
  intro b hb
  obtain ⟨rest, rfl⟩ := List.head?_eq_some_iff.mp hb
  apply Bool.eq_false_iff.mpr
  intro hgoes
  obtain ⟨other, hother⟩ := hcovers b hgoes
  have hstep : Stays category front ([b] ++ rest) := h
  exact hstep.absurd_of_step (List.cons_ne_nil _ _) (by simp)
    (List.forall_mem_singleton.mpr (htest b hgoes)) hother

end Stays

theorem WordTail.trans (h : WordTail text) (hmore : WordTail more) : WordTail (text ++ more) := by
  induction h with
  | nil => exact hmore
  | word hb _ ih => exact .word hb ih
  | dot hb _ ih => exact .dot hb ih

theorem Run.append_singleton {test : Byte → Bool} {run : Bytes} (h : ∀ c ∈ run, test c = true)
    (hb : test b = true) : Run test (run ++ [b]) :=
  ⟨by simp, List.forall_mem_append.mpr ⟨h, List.forall_mem_singleton.mpr hb⟩⟩

/-! The bytes that a lexeme takes along in steps are no ends of lines. -/

theorem Category.halts_eq_false {test : Byte → Bool} (hb : test b = true)
    (hline : test Byte.lineFeed = false) (hreturn : test Byte.carriageReturn = false)
    (category : Category) : category.halts b = false := by
  have hne_line : b ≠ Byte.lineFeed := by
    rintro rfl
    exact Bool.false_ne_true (hline.symm.trans hb)
  have hne_return : b ≠ Byte.carriageReturn := by
    rintro rfl
    exact Bool.false_ne_true (hreturn.symm.trans hb)
  rw [halts, beq_false_of_ne hne_line, beq_false_of_ne hne_return]
  rfl

theorem halts_dot (c : Category) : c.halts Byte.dot = false := rfl

theorem halts_lowerX (c : Category) : c.halts Byte.lowerX = false := rfl

theorem halts_slash (c : Category) : c.halts Byte.slash = false := rfl

/-- Blanks take carriage returns along. -/
theorem halts_blank_of_isBlank (hb : Byte.isBlank b = true) :
    Category.halts .blank b = false := by
  have hne : b ≠ Byte.lineFeed := by
    rintro rfl
    exact absurd hb (by decide)
  rw [Category.halts, beq_false_of_ne hne, Bool.false_or]
  exact Bool.and_false _

theorem continuesWord_of_stays {first : Byte} {body : Bytes}
    (hfirst : Byte.isWordStart first = true) (hbody : WordTail body)
    (h : Stays .word (first :: body) tail) : continuesWord tail = false := by
  have hword {ext : Bytes} (hext : WordTail ext) : Covers .word (first :: body ++ ext) :=
    covers_word_iff.mpr ⟨hfirst, hbody.trans hext⟩
  cases tail with
  | nil => rfl
  | cons b tail =>
      apply Bool.eq_false_iff.mpr
      intro hgoes
      rcases Bool.or_eq_true_iff.mp hgoes with hb | hdot
      · have hstep : Stays .word (first :: body) ([b] ++ tail) := h
        exact hstep.absurd_of_step (by simp) (by simp)
          (by simp [Category.halts_eq_false hb rfl rfl]) (hword (.word hb .nil))
      · obtain ⟨hb, hnext⟩ := Bool.and_eq_true_iff.mp hdot
        obtain rfl := eq_of_beq hb
        cases tail with
        | nil => exact absurd hnext (by decide)
        | cons c tail =>
            have hc : Byte.isWord c = true := hnext
            have hstep : Stays .word (first :: body) ([Byte.dot, c] ++ tail) := h
            exact hstep.absurd_of_step (by simp) (by simp)
              (by simp [halts_dot, Category.halts_eq_false hc rfl rfl])
              (hword (.dot hc (.word hc .nil)))

section Number

variable {sign digits fraction exponent : Bytes}

theorem stops_digit_of_stays (hsign : OptionalSign sign) (hdigits : Run Byte.isDigit digits)
    (h : Stays category (sign ++ digits) tail) : Stops Byte.isDigit tail := by
  apply h.stops fun b hb => category.halts_eq_false hb rfl rfl
  intro b hb
  rw [List.append_assoc]
  exact ⟨.integer, .integer hsign (.append_singleton hdigits.2 hb)⟩

theorem head_ne_dot_of_stays (hsign : OptionalSign sign) (hdigits : Run Byte.isDigit digits)
    (h : Stays category (sign ++ digits) tail) : tail.head? ≠ some Byte.dot := by
  intro hdot
  obtain ⟨rest, rfl⟩ := List.head?_eq_some_iff.mp hdot
  have hstep : Stays category (sign ++ digits) ([Byte.dot] ++ rest) := h
  have hreal : Covers .real (sign ++ digits ++ [Byte.dot] ++ []) :=
    .real hsign hdigits (by simp) .nil
  rw [List.append_nil] at hreal
  exact hstep.absurd_of_step (by simp) (by simp) (by simp [halts_dot]) hreal

theorem not_beginsHex_of_stays (hsign : OptionalSign sign) (hdigits : Run Byte.isDigit digits)
    (hstops : Stops Byte.isDigit tail) (h : Stays category (sign ++ digits) tail) :
    ¬ BeginsHex (sign ++ (digits ++ tail)) := by
  rintro ⟨digit, more, hdigit, heq⟩
  obtain ⟨rfl, hmark⟩ := hex_split hsign hdigits heq.symm
  obtain ⟨rfl, rfl⟩ := run_unique hmark run_zero.2 hdigits.2 stops_lowerX hstops
  have hstep : Stays category [Byte.zero] ([Byte.lowerX, digit] ++ more) := h
  have hhex : Covers .hexInteger ([Byte.zero] ++ [Byte.lowerX, digit]) :=
    .hexInteger (.cons hdigit (by simp))
  exact hstep.absurd_of_step (by simp) (by simp)
    (by simp [halts_lowerX, Category.halts_eq_false hdigit rfl rfl]) hhex

theorem exponentEnds_of_stays (hsign : OptionalSign sign) (hwhole : Run Byte.isDigit digits)
    (hfraction : ∀ b ∈ fraction, Byte.isDigit b = true) (hexponent : OptionalExponent exponent)
    (h : Stays category (sign ++ digits ++ Byte.dot :: fraction ++ exponent) tail) :
    ExponentEnds exponent tail ∧ Stops Byte.isDigit (exponent ++ tail) := by
  have hreal {fraction exponent : Bytes} (hfraction : ∀ b ∈ fraction, Byte.isDigit b = true)
      (hexponent : OptionalExponent exponent) :
      Covers .real (sign ++ digits ++ Byte.dot :: fraction ++ exponent) :=
    .real hsign hwhole hfraction hexponent
  rcases hexponent with rfl | ⟨mark, s, ds, hmark, hs, hds, rfl⟩
  · rw [List.append_nil] at h
    have hstops : Stops Byte.isDigit tail := by
      apply h.stops fun b hb => category.halts_eq_false hb rfl rfl
      intro b hb
      have hlonger := hreal (Run.append_singleton hfraction hb).2 .nil
      exact ⟨.real, by simpa using hlonger⟩
    refine ⟨.absent ?_, hstops⟩
    rintro ⟨mark, s, digit, more, hmark, hs, hdigit, rfl⟩
    have hlonger := hreal hfraction
      (.inr ⟨mark, s, [digit], hmark, hs, .cons hdigit (by simp), rfl⟩)
    have hstep : Stays category (sign ++ digits ++ Byte.dot :: fraction)
        ((mark :: s ++ [digit]) ++ more) := by
      simpa using h
    have hdigit := category.halts_eq_false hdigit rfl rfl
    have hmark := category.halts_eq_false hmark rfl rfl
    rcases hs with rfl | ⟨b, hb, rfl⟩
    · exact hstep.absurd_of_step (by simp) (by simp) (by simp [hmark, hdigit]) hlonger
    · have hb := category.halts_eq_false hb rfl rfl
      exact hstep.absurd_of_step (by simp) (by simp) (by simp [hmark, hb, hdigit]) hlonger
  · have hstops : Stops Byte.isDigit tail := by
      apply h.stops fun b hb => category.halts_eq_false hb rfl rfl
      intro b hb
      have hlonger := hreal hfraction
        (.inr ⟨mark, s, ds ++ [b], hmark, hs, .append_singleton hds.2 hb, rfl⟩)
      exact ⟨.real, by simpa using hlonger⟩
    exact ⟨.present hmark hs hds hstops, stops_cons.mpr (isDigit_of_isExponentMark mark hmark)⟩

end Number

theorem stops_blank_of_stays (hblank : Run Byte.isBlank front) (h : Stays .blank front tail) :
    Stops Byte.isBlank tail := by
  apply h.stops fun b hb => halts_blank_of_isBlank hb
  intro b hb
  exact ⟨.blank, .blank (.append_singleton hblank.2 hb)⟩

theorem stops_line_of_stays {mark body : Bytes}
    (hmark : mark = [Byte.hash] ∨ mark = [Byte.slash, Byte.slash]) (hbody : Byte.lineFeed ∉ body)
    (h : Stays .lineComment (mark ++ body) tail) : Stops (· != Byte.lineFeed) tail := by
  apply h.stops
  · intro b hb
    have hne : (b == Byte.lineFeed) = false := beq_false_of_ne (bne_iff_ne.mp hb)
    rw [Category.halts, hne]
    exact Bool.and_false _
  · intro b hb
    have hlonger : Byte.lineFeed ∉ body ++ [b] := by
      simp [hbody, (bne_iff_ne.mp hb).symm]
    have hcovers := Covers.lineComment hmark hlonger
    rw [← List.append_assoc] at hcovers
    exact ⟨.lineComment, hcovers⟩

theorem isLongest_of_stays (hcovers : Covers category front) (h : Stays category front tail) :
    IsLongest category front (front ++ tail) := by
  cases hcovers with
  | word hfirst hrest hjoined =>
      obtain ⟨hfirst, hbody⟩ := covers_word_iff.mp (.word hfirst hrest hjoined)
      exact isLongest_word hfirst hbody (continuesWord_of_stays hfirst hbody h)
  | integer hsign hdigits =>
      have hstops := stops_digit_of_stays hsign hdigits h
      exact isLongest_integer hsign hdigits hstops (head_ne_dot_of_stays hsign hdigits h)
        (not_beginsHex_of_stays hsign hdigits hstops h)
  | @hexInteger digits hdigits =>
      apply isLongest_hexInteger hdigits
      apply h.stops fun b hb => Category.halts_eq_false hb rfl rfl _
      intro b hb
      exact ⟨.hexInteger, .hexInteger (.append_singleton hdigits.2 hb)⟩
  | real hsign hwhole hfraction hexponent =>
      obtain ⟨hends, hstops⟩ := exponentEnds_of_stays hsign hwhole hfraction hexponent h
      exact isLongest_real hsign hwhole hfraction hends hstops
  | quoted hitems => exact isLongest_quoted hitems
  | symbol s => exact isLongest_symbol s
  | blank htext => exact isLongest_blank htext (stops_blank_of_stays htext h)
  | newline => exact isLongest_newline
  | lineComment hmark hbody =>
      exact isLongest_lineComment hmark hbody (stops_line_of_stays hmark hbody h)
  | blockComment hclosed hplain =>
      exact isLongest_closedComment (.blockComment hclosed hplain) hclosed
  | docComment hclosed hdoc =>
      exact isLongest_closedComment (.docComment hclosed hdoc) hclosed

/-! Mistakes. A byte strays as long as no step leads on from it either, and a quote is left open
by its line alone. -/

theorem false_of_stray_number {sign digits : Bytes} (halone : ∀ other, ¬ Covers other [b])
    (h : Stays .strayByte [b] tail) (hsign : OptionalSign sign) (hdigits : Run Byte.isDigit digits)
    (heq : sign ++ (digits ++ more) = b :: tail) : False := by
  obtain ⟨d, rest, rfl, hd⟩ := hdigits.exists_cons
  have hdigit : Run Byte.isDigit [d] := .cons hd (by simp)
  rcases hsign with rfl | ⟨s, hs, rfl⟩
  · obtain ⟨rfl, _⟩ := List.cons.inj heq
    exact halone .integer (.integer .nil hdigit)
  · obtain ⟨rfl, rfl⟩ := List.cons.inj heq
    have hstep : Stays .strayByte [s] ([d] ++ (rest ++ more)) := h
    exact hstep.absurd_of_step (by simp) (by simp) (by simp [Category.halts_eq_false hd rfl rfl])
      (.integer (.inr ⟨s, hs, rfl⟩) hdigit)

theorem uncovered_of_stays (hquote : Quote.ofByte? b = none)
    (hcomment : b = Byte.slash → tail.head? ≠ some Byte.star)
    (halone : ∀ other, ¬ Covers other [b]) (h : Stays .strayByte [b] tail) :
    Uncovered (b :: tail) := by
  have hclosed {text more : Bytes} (hclosed : ClosedComment text) : text ++ more ≠ b :: tail := by
    obtain ⟨body, _, rfl⟩ := hclosed
    intro heq
    obtain ⟨rfl, rfl⟩ := List.cons.inj heq
    exact hcomment rfl rfl
  rintro category longer hcovers ⟨more, heq⟩
  cases hcovers with
  | word hfirst _ _ =>
      obtain ⟨rfl, _⟩ := List.cons.inj heq
      exact halone .word (covers_word_iff.mpr ⟨hfirst, .nil⟩)
  | integer hsign hdigits =>
      rw [List.append_assoc] at heq
      exact false_of_stray_number halone h hsign hdigits heq
  | hexInteger _ =>
      obtain ⟨rfl, _⟩ := List.cons.inj heq
      exact halone .integer (.integer .nil run_zero)
  | real hsign hwhole _ _ =>
      simp only [List.append_assoc] at heq
      exact false_of_stray_number halone h hsign hwhole heq
  | @quoted quote _ _ =>
      obtain ⟨rfl, _⟩ := List.cons.inj heq
      rw [Quote.ofByte?_byte] at hquote
      contradiction
  | symbol s =>
      obtain ⟨rfl, _⟩ := List.cons.inj heq
      exact halone _ (.symbol s)
  | blank htext =>
      obtain ⟨c, rest, rfl, hc⟩ := htext.exists_cons
      obtain ⟨rfl, _⟩ := List.cons.inj heq
      exact halone .blank (.blank (.cons hc (by simp)))
  | newline =>
      obtain ⟨rfl, _⟩ := List.cons.inj heq
      exact halone .newline .newline
  | @lineComment mark body hmark _ =>
      rcases hmark with rfl | rfl
      · obtain ⟨rfl, _⟩ := List.cons.inj heq
        have hopening : Covers .lineComment ([Byte.hash] ++ []) := .lineComment (.inl rfl) (by simp)
        exact halone .lineComment hopening
      · obtain ⟨rfl, rfl⟩ := List.cons.inj heq
        have hstep : Stays .strayByte [Byte.slash] ([Byte.slash] ++ (body ++ more)) := h
        have hopening : Covers .lineComment ([Byte.slash, Byte.slash] ++ []) :=
          .lineComment (.inr rfl) (by simp)
        exact hstep.absurd_of_step (by simp) (by simp) (by simp [halts_slash])
          hopening
  | blockComment hcomment _ => exact hclosed hcomment heq
  | docComment hcomment _ => exact hclosed hcomment heq

theorem Uncovered.of_front (h : Uncovered text) (hfront : front <+: text) : Uncovered front :=
  fun category longer hcovers hlonger => h category longer hcovers (hlonger.trans hfront)

/-- What follows an open quote is no part of any literal that its line could hold. -/
theorem first_openQuote_iff :
    First .openQuote front (front ++ tail) ↔
      (∃ (quote : Quote) (rest : Bytes), front = quote.byte :: rest) ∧ Byte.lineFeed ∉ front ∧
        Stops (· != Byte.lineFeed) tail ∧ Uncovered front := by
  constructor
  · rintro (hlongest | ⟨huncovered, hmistake⟩)
    · cases hlongest.covers
    · have hfront := huncovered.of_front (List.prefix_append front tail)
      generalize htext : front ++ tail = text at hmistake
      cases hmistake with
      | @openQuote quote text =>
          obtain ⟨run, rest, hsplit, hrun, hstops⟩ :=
            exists_run (· != Byte.lineFeed) (quote.byte :: text)
          have hopen : (quote.byte :: text).takeWhile (· != Byte.lineFeed) =
              quote.byte :: text.takeWhile (· != Byte.lineFeed) :=
            List.takeWhile_cons_of_pos (bne_iff_ne.mpr (quote_ne_lineFeed quote))
          refine ⟨⟨quote, _, hopen⟩, ?_, ?_, hfront⟩
          · exact not_mem_of_forall (List.all_eq_true.mp List.all_takeWhile) (by decide)
          · rw [hsplit, takeWhile_run hrun hstops] at htext
            rwa [List.append_cancel_left htext]
  · rintro ⟨⟨quote, rest, rfl⟩, hline, hstops, huncovered⟩
    have hrun : ∀ b ∈ quote.byte :: rest, (b != Byte.lineFeed) = true :=
      fun b hb => bne_iff_ne.mpr fun heq => hline (heq ▸ hb)
    refine .inr ⟨?_, ?_⟩
    · rintro category longer hcovers ⟨more, heq⟩
      obtain rfl := Category.mayBegin_quote quote _ (hcovers.mayBegin_of_append heq)
      have hlonger : ∀ b ∈ longer, (b != Byte.lineFeed) = true :=
        fun b hb => bne_iff_ne.mpr fun heq => hcovers.lineFeed_not_mem rfl (heq ▸ hb)
      have hlength := run_length_le heq hlonger hstops
      exact huncovered _ _ hcovers
        (List.prefix_of_prefix_length_le ⟨more, heq⟩ (List.prefix_append _ tail) hlength)
    · have hmistake := @Mistake.openQuote quote (rest ++ tail)
      rw [← List.cons_append, takeWhile_run hrun hstops] at hmistake
      exact hmistake

/-! A lexeme stays what it is before any text of which it sees no more than before, and be it
nothing. -/

theorem IsLongest.stays (h : IsLongest category front (front ++ tail))
    (hnear : nearby category more <+: nearby category tail) : Stays category front more := by
  intro other ext hcovers hext
  have hlonger : front ++ ext <+: front ++ tail :=
    (List.prefix_append_right_inj front).mpr (prefix_of_nearby (hext.trans hnear))
  have hlength := h.longest _ _ hcovers hlonger
  rw [List.length_append] at hlength
  exact List.eq_nil_of_length_eq_zero (by omega)

theorem IsLongest.of_nearby (h : IsLongest category front (front ++ tail))
    (hnear : nearby category more <+: nearby category tail) :
    IsLongest category front (front ++ more) :=
  isLongest_of_stays h.covers (h.stays hnear)

theorem first_strayByte_of_nearby (h : First .strayByte front (front ++ tail))
    (hnear : nearby .strayByte more <+: nearby .strayByte tail) :
    First .strayByte front (front ++ more) := by
  rcases h with hlongest | ⟨huncovered, hmistake⟩
  · cases hlongest.covers
  · generalize htext : front ++ tail = text at huncovered hmistake
    cases hmistake with
    | @strayByte b rest hquote hcomment =>
        obtain rfl := (List.cons.inj htext).2
        have hnone {other : Category} {ext : Bytes} (hext : ext <+: nearby .strayByte more) :
            ¬ Covers other ([b] ++ ext) := by
          intro hcovers
          apply huncovered _ _ hcovers
          exact (List.prefix_append_right_inj [b]).mpr (prefix_of_nearby (hext.trans hnear))
        have hstar : b = Byte.slash → more.head? ≠ some Byte.star := by
          intro hb hhead
          obtain ⟨rest, rfl⟩ := List.head?_eq_some_iff.mp hhead
          have hseen : [Byte.star] <+: nearby .strayByte ([Byte.star] ++ rest) :=
            prefix_nearby (by simp) (List.forall_mem_singleton.mpr rfl)
          obtain ⟨after, htail⟩ := prefix_of_nearby (hseen.trans hnear)
          apply hcomment hb
          rw [← htail]
          rfl
        refine .inr ⟨uncovered_of_stays hquote hstar ?_ ?_, .strayByte hquote hstar⟩
        · intro other
          exact hnone List.nil_prefix
        · intro other ext hcovers hext
          exact absurd hcovers (hnone hext)

/-- What a lexeme is shows in the next three bytes of its line at most, unless it is a comment
that takes all that is left of its text. -/
theorem First.of_nearby (h : First category front (front ++ tail))
    (hcategory : category ≠ .openComment) (hnear : nearby category more <+: nearby category tail) :
    First category front (front ++ more) := by
  cases category with
  | openComment => contradiction
  | strayByte => exact first_strayByte_of_nearby h hnear
  | openQuote =>
      obtain ⟨hquote, hline, hstops, huncovered⟩ := first_openQuote_iff.mp h
      rw [(nearby_eq_nil_of_takesBlanks rfl).mpr hstops, List.prefix_nil] at hnear
      exact first_openQuote_iff.mpr
        ⟨hquote, hline, (nearby_eq_nil_of_takesBlanks rfl).mp hnear, huncovered⟩
  | _ =>
      rcases h with hlongest | ⟨_, hmistake⟩
      · exact .inl (hlongest.of_nearby hnear)
      · cases hmistake

theorem First.of_nearby_eq (h : First category front (front ++ tail))
    (hcategory : category ≠ .openComment) (hnear : nearby category more = nearby category tail) :
    First category front (front ++ more) :=
  h.of_nearby hcategory ⟨[], by rw [List.append_nil, hnear]⟩

end Lexeme

end IdlLexis
