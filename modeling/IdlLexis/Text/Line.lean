/-!
The lines of a text. A line ends in a line feed, and in the carriage return before it if there
is one; after the last line feed comes one more line only if it is not empty.
-/

namespace IdlLexis

namespace Text

/-- A line that a line feed ended, without its carriage return. -/
def withoutReturn (line : List Char) : List Char :=
  if line.getLast? = some '\r' then line.dropLast else line

theorem length_dropWhile_le (test : Char → Bool) (text : List Char) :
    (text.dropWhile test).length ≤ text.length :=
  (List.dropWhile_suffix test).length_le

def lines (text : List Char) : List (List Char) :=
  match hrest : text.dropWhile (· != '\n') with
  | [] => if text.isEmpty then [] else [text]
  | _ :: rest =>
      have : rest.length < text.length := by
        have hle := length_dropWhile_le (· != '\n') text
        rw [hrest] at hle
        exact hle
      withoutReturn (text.takeWhile (· != '\n')) :: lines rest
termination_by text.length

/-! The length of a text in bytes, and what is left of it after its first bytes, unless they
end inside a character. -/

def byteLength : List Char → Nat
  | [] => 0
  | c :: rest => c.utf8Size + byteLength rest

def dropBytes? : Nat → List Char → Option (List Char)
  | 0, text => some text
  | _ + 1, [] => none
  | count + 1, c :: rest =>
      if c.utf8Size ≤ count + 1 then dropBytes? (count + 1 - c.utf8Size) rest else none

@[simp] theorem byteLength_nil : byteLength [] = 0 := rfl

@[simp] theorem byteLength_cons (c : Char) (rest : List Char) :
    byteLength (c :: rest) = c.utf8Size + byteLength rest := rfl

theorem eq_append_of_dropBytes? {count : Nat} {text rest : List Char}
    (h : dropBytes? count text = some rest) :
    ∃ front, text = front ++ rest ∧ byteLength front = count := by
  fun_induction dropBytes? count text with
  | case1 text =>
      cases h
      exact ⟨[], rfl, rfl⟩
  | case2 => contradiction
  | case3 count c tail hsize ih =>
      obtain ⟨front, htail, hlength⟩ := ih h
      refine ⟨c :: front, congrArg (c :: ·) htail, ?_⟩
      rw [byteLength_cons, hlength]
      omega
  | case4 => contradiction

end Text

end IdlLexis
