import IdlLexis.Proofs.Lexeme.Lookahead
import IdlLexis.Proofs.TokenStream.Placement
/-!
Lexemes depend on little of their text. Where two texts begin alike, they begin with the same
lexemes, up to those that stop less than three bytes before the texts part. So whoever has changed
a text need not read again what stops three bytes before the change.
-/

namespace IdlLexis

namespace Lexeme

variable {category : Category} {front tail text other : Bytes} {pieces others : List Piece}
  {count offset : Nat}

theorem First.of_take (h : First category front (front ++ tail)) (hlength : 3 ≤ tail.length)
    (htake : tail.take 3 = other.take 3) : First category front (front ++ other) := by
  have hcategory : category ≠ .openComment := by
    rintro rfl
    have hlast := congrArg List.length h.openComment
    rw [List.length_append] at hlast
    omega
  exact h.of_nearby_eq hcategory (nearby_congr htake category).symm

/-- A lexeme that stops well before the texts part is a lexeme of either. -/
theorem First.exists_of_agree (h : First category front (front ++ tail))
    (hagree : (front ++ tail).take count = other.take count)
    (hcount : count ≤ (front ++ tail).length) (hfront : front.length + 3 ≤ count) :
    ∃ more, other = front ++ more ∧
      tail.take (count - front.length) = more.take (count - front.length) ∧
      First category front (front ++ more) := by
  have hbegins : front <+: other := by
    have hkept : front <+: (front ++ tail).take count :=
      List.prefix_take_iff.mpr ⟨List.prefix_append _ _, by omega⟩
    rw [hagree] at hkept
    exact hkept.trans (List.take_prefix _ _)
  obtain ⟨more, rfl⟩ := hbegins
  rw [List.take_append, List.take_append, List.append_cancel_left_eq] at hagree
  refine ⟨more, rfl, hagree, ?_⟩
  rw [List.length_append] at hcount
  apply h.of_take (by omega)
  have hthree := congrArg (List.take 3) hagree
  rwa [List.take_take, List.take_take, Nat.min_eq_left (by omega)] at hthree

namespace Placed

/-- The lexeme stops three bytes before the offset, or earlier. -/
def settled (offset : Nat) (x : Placed) : Bool := x.span.stop + 3 ≤ offset

theorem start_le_stop_row (offset : Nat) (found : List Lexeme) :
    ∀ x ∈ row offset found, x.span.start ≤ x.span.stop := by
  induction found generalizing offset with
  | nil =>
      intro x hx
      cases hx
  | cons y found ih => exact List.forall_mem_cons.mpr ⟨Nat.le_add_right .., ih _⟩

theorem settled_of_short {p : Piece} (h : p.bytes.length + 3 ≤ count) :
    (row offset ((p :: pieces).map Piece.toLexeme)).filter (settled (offset + count)) =
      ⟨p.category, offset, offset + p.bytes.length⟩ ::
        (row (offset + p.bytes.length) (pieces.map Piece.toLexeme)).filter
          (settled (offset + count)) := by
  rw [row_cons, List.filter_cons_of_pos]
  apply decide_eq_true
  dsimp only
  omega

/-- No lexeme stops earlier than the one that comes first. -/
theorem settled_of_long {p : Piece} (h : count < p.bytes.length + 3) :
    (row offset ((p :: pieces).map Piece.toLexeme)).filter (settled (offset + count)) = [] := by
  rw [List.filter_eq_nil_iff, row_cons]
  have hlate {x : Placed} (hx : offset + p.bytes.length ≤ x.span.stop) :
      ¬ settled (offset + count) x = true := by
    intro hsettled
    have hle := of_decide_eq_true hsettled
    omega
  refine List.forall_mem_cons.mpr ⟨hlate (Nat.le_refl _), ?_⟩
  intro x hx
  exact hlate (Nat.le_trans (le_start_row _ _ x hx) (start_le_stop_row _ _ x hx))

end Placed

theorem Cuts.settled_agree (offset : Nat) (hcuts : Cuts text pieces)
    (hothers : Cuts other others) (hagree : text.take count = other.take count)
    (htext : count ≤ text.length) (hother : count ≤ other.length) :
    (Placed.row offset (pieces.map Piece.toLexeme)).filter (Placed.settled (offset + count)) =
      (Placed.row offset (others.map Piece.toLexeme)).filter (Placed.settled (offset + count)) := by
  induction hcuts generalizing other others offset count with
  | nil =>
      obtain rfl : count = 0 := Nat.le_zero.mp htext
      cases hothers with
      | nil => rfl
      | cons _ _ => exact (Placed.settled_of_long (by omega)).symm
  | @cons category front tail pieces hfirst _ ih =>
      by_cases hfront : front.length + 3 ≤ count
      · obtain ⟨more, rfl, hrest, hfirst'⟩ := hfirst.exists_of_agree hagree htext hfront
        obtain ⟨later, rfl, hlater⟩ := hothers.of_first hfirst'
        rw [List.length_append] at htext hother
        have hsame := ih (offset + front.length) hlater hrest (by omega) (by omega)
        rw [Nat.add_assoc, Nat.add_sub_cancel' (by omega)] at hsame
        rw [Placed.settled_of_short hfront, Placed.settled_of_short hfront, hsame]
      · have hlong : count < front.length + 3 := Nat.lt_of_not_le hfront
        rw [Placed.settled_of_long (p := ⟨category, front⟩) hlong]
        cases hothers with
        | nil => rfl
        | @cons category' front' tail' later hfirst' _ =>
            apply Eq.symm
            apply Placed.settled_of_long
            apply Nat.lt_of_not_le
            intro hshort
            -- Both texts then begin with this lexeme.
            obtain ⟨more, heq, _, hboth⟩ :=
              hfirst'.exists_of_agree hagree.symm hother hshort
            rw [← heq] at hboth
            obtain ⟨_, rfl⟩ := first_unique hfirst hboth
            exact hfront hshort

end Lexeme

open Lexeme (Placed)

/-- Two texts that agree up to an offset have the same lexemes, in the same places and in the same
order, as far as these stop three bytes before it. -/
theorem lexemes_agree {text other : Bytes} {offset : Nat} (htext : text.length + 1 < Offset.limit)
    (hother : other.length + 1 < Offset.limit) (hoffset : offset ≤ text.length)
    (hoffset' : offset ≤ other.length) (hagree : text.take offset = other.take offset) :
    ∃ found others, lexemes text = .ok found ∧ lexemes other = .ok others ∧
      (Placed.row 0 found).filter (Placed.settled offset) =
        (Placed.row 0 others).filter (Placed.settled offset) := by
  have hlimit : text.length < Offset.limit := by omega
  have hlimit' : other.length < Offset.limit := by omega
  obtain ⟨pieces, hcuts⟩ := exists_cuts hlimit
  obtain ⟨pieces', hcuts'⟩ := exists_cuts hlimit'
  have hsame := hcuts.settled_agree 0 hcuts' hagree hoffset hoffset'
  rw [Nat.zero_add] at hsame
  exact ⟨_, _, lexemes_eq hlimit hcuts, lexemes_eq hlimit' hcuts', hsame⟩

/-- The texts `ab 1.5e+7` and `ab 1.5e+x`, which part at the byte that makes an exponent or not. -/
theorem lexemes_agree_exponent :
    let text : Bytes := [0x61, 0x62, 0x20, 0x31, 0x2e, 0x35, 0x65, 0x2b, 0x37]
    let other : Bytes := [0x61, 0x62, 0x20, 0x31, 0x2e, 0x35, 0x65, 0x2b, 0x78]
    text.length + 1 < Offset.limit ∧ other.length + 1 < Offset.limit ∧ 8 ≤ text.length ∧
      8 ≤ other.length ∧ text.take 8 = other.take 8 ∧
      ∃ found others, lexemes text = .ok found ∧ lexemes other = .ok others ∧
        (Placed.row 0 found).filter (Placed.settled 8) =
          (Placed.row 0 others).filter (Placed.settled 8) :=
  ⟨by decide, by decide, by decide, by decide, by decide,
    lexemes_agree (by decide) (by decide) (by decide) (by decide) (by decide)⟩

end IdlLexis
