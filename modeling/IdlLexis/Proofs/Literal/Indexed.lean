import IdlLexis.Proofs.Literal.Body
/-!
Reading a body by places. Each byte and each stretch of the body is asked for by its place, and
places are words below some limit. A sum that reaches the limit of its word, a difference below
zero and a stretch that does not lie in the body are faults. Where the words have room for the
body and eight bytes more, reading by places has no fault, and gives what reading by items gives.
-/

namespace IdlLexis

namespace Literal

namespace Quoted

namespace Indexed

def add (limit a b : Nat) : Except Fault { c : Nat // c = a + b } :=
  if a + b < limit then .ok ⟨a + b, rfl⟩ else .error .offsetOverflow

def mul (limit a b : Nat) : Except Fault Nat :=
  if a * b < limit then .ok (a * b) else .error .offsetOverflow

def byteAt (body : Bytes) (i : Nat) : Except Fault Byte :=
  match body[i]? with
  | some b => .ok b
  | none => .error .outsideText

def slice (body : Bytes) (start stop : Nat) : Except Fault Bytes :=
  if start ≤ stop ∧ stop ≤ body.length then .ok (body.extract start stop) else .error .badRange

/-! The numbers of escapes, in words of 32 bits. A hexadecimal digit is looked at before the number
makes room for it, and an octal digit after that. -/

def hexStep (number : Nat) (b : Byte) : Except Fault (Option Nat) :=
  match Byte.digitValue? 16 b with
  | none => return none
  | some digit => do
      let scaled ← mul Offset.limit number 16
      some <$> Offset.add scaled digit

def octalStep (number : Nat) (b : Byte) : Except Fault (Option Nat) := do
  let scaled ← mul Offset.limit number 8
  match Byte.digitValue? 8 b with
  | none => return none
  | some digit => some <$> Offset.add scaled digit

def follow (step : Nat → Byte → Except Fault (Option Nat)) :
    Nat → Bytes → Except Fault (Option Nat)
  | number, [] => return some number
  | number, b :: rest => do
      match ← step number b with
      | none => return none
      | some number => follow step number rest

section

variable (limit : Nat) (body : Bytes)

/-- The complaint about `count` bytes from a letter on, or as many as there are. -/
def unknown (letter count : Nat) : Except Fault Failure := do
  let stop ← add limit letter count
  let shown ← slice body letter (min stop.val body.length)
  return .unknownEscape (Utf8.lossy shown)

def hexNumber (start count : Nat) : Except Fault (Except Failure Nat) := do
  let stop ← add limit start count
  if start ≤ stop.val ∧ stop.val ≤ body.length then
    match ← follow hexStep 0 (body.extract start stop.val) with
    | some number => return .ok number
    | none =>
        let letter ← Offset.sub start 1
        let shown ← add limit count 1
        let failure ← unknown limit body letter shown.val
        return .error failure
  else
    let letter ← Offset.sub start 1
    let left ← Offset.sub body.length start
    let shown ← add limit left 1
    let failure ← unknown limit body letter shown.val
    return .error failure

def hexByte (i : Nat) : Except Fault (Except Failure Escape) := do
  match ← hexNumber limit body i 2 with
  | .error failure => return .error failure
  | .ok number =>
      if number < 256 then return .ok ⟨[UInt8.ofNat number], 2⟩
      else
        let letter ← Offset.sub i 1
        let failure ← unknown limit body letter 3
        return .error failure

def character (i width : Nat) : Except Fault (Except Failure Escape) := do
  match ← hexNumber limit body i width with
  | .error failure => return .error failure
  | .ok number =>
      if number.isValidChar then return .ok ⟨String.utf8EncodeChar (Char.ofNat number), width⟩
      else
        let letter ← Offset.sub i 1
        let stop ← add limit i width
        let shown ← slice body letter stop.val
        return .error (.notACharacter (Utf8.lossy shown))

def octalNumber (start : Nat) : Except Fault (Option Nat) := do
  let stop ← add limit start 3
  if start ≤ stop.val ∧ stop.val ≤ body.length then
    follow octalStep 0 (body.extract start stop.val)
  else return none

def octal (letter : Byte) (i : Nat) : Except Fault (Except Failure Escape) := do
  let start ← Offset.sub i 1
  match (← octalNumber limit body start).filter (· < 256) with
  | some number => return .ok ⟨[UInt8.ofNat number], 2⟩
  | none =>
      if letter = Byte.zero then return Escape.byte 0
      else
        let failure ← unknown limit body start 1
        return .error failure

/-- The escape of a letter, given the place after the letter. -/
def escape (letter : Byte) (i : Nat) : Except Fault (Except Failure Escape) :=
  match Escape.doubleLetters.lookup letter with
  | some b => return Escape.byte b
  | none =>
      if letter = 0x78 then hexByte limit body i
      else if letter = 0x75 then character limit body i 4
      else if letter = 0x55 then character limit body i 8
      else if 0x30 ≤ letter ∧ letter ≤ 0x37 then octal limit body letter i
      else do
        let start ← Offset.sub i 1
        let failure ← unknown limit body start 1
        return .error failure

def resolve (i : Nat) : Except Fault (Except Failure Bytes) :=
  if i < body.length then do
    let b ← byteAt body i
    let next ← add limit i 1
    if b = Byte.backslash then
      match body[next.val]? with
      | none => return .error .loneBackslash
      | some letter =>
          let start ← add limit i 2
          match ← escape limit body letter start.val with
          | .error failure => return .error failure
          | .ok e =>
              let next ← add limit start.val e.width
              let resolved ← resolve next.val
              return (e.bytes ++ ·) <$> resolved
    else
      let resolved ← resolve next.val
      return (b :: ·) <$> resolved
  else return .ok []
termination_by body.length - i
decreasing_by
  · have := next.property
    have := start.property
    omega
  · have := next.property
    omega

/-- The escapes of a single quote are read without places, byte after byte. -/
def bodyBytes (quote : Byte) : Except Fault (Except Failure Bytes) :=
  if body.contains Byte.backslash then
    if quote = Quote.single.byte then return Quoted.resolve Escape.inSingle body
    else resolve limit body 0
  else return .ok body

def readBody (quote : Byte) : Except Fault (Except Failure String) :=
  if body.contains Byte.lineFeed then return .error .rawLineFeed
  else do
    match ← bodyBytes limit body quote with
    | .error failure => return .error failure
    | .ok bytes =>
        match Utf8.decode? bytes with
        | some text => return .ok text
        | none => return .error .illFormedText

end

variable {limit count i number : Nat} {body after digits : Bytes} {letter b : Byte}

theorem add_of_lt {a b : Nat} (h : a + b < limit) : add limit a b = .ok ⟨a + b, rfl⟩ := if_pos h

theorem mul_of_lt {a b : Nat} (h : a * b < limit) : mul limit a b = .ok (a * b) := if_pos h

/-! Numbers of digits. -/

theorem hexStep_eq (h : number * 16 + 16 ≤ Offset.limit) (b : Byte) :
    hexStep number b = .ok ((Byte.digitValue? 16 b).map (number * 16 + ·)) := by
  unfold hexStep
  cases hdigit : Byte.digitValue? 16 b with
  | none => rfl
  | some digit =>
      have hlt := Byte.digitValue?_lt hdigit
      dsimp only
      rw [mul_of_lt (by omega), Fault.ok_bind, Offset.add_of_lt (by omega)]
      rfl

theorem octalStep_eq (h : number * 8 + 8 ≤ Offset.limit) (b : Byte) :
    octalStep number b = .ok ((Byte.digitValue? 8 b).map (number * 8 + ·)) := by
  unfold octalStep
  rw [mul_of_lt (by omega), Fault.ok_bind]
  cases hdigit : Byte.digitValue? 8 b with
  | none => rfl
  | some digit =>
      have hlt := Byte.digitValue?_lt hdigit
      dsimp only
      rw [Offset.add_of_lt (by omega)]
      rfl

/-- Steps that follow digits end at the number of the digits, if there is room for as many. -/
theorem follow_eq {radix size : Nat} {step : Nat → Byte → Except Fault (Option Nat)}
    (hradix : 0 < radix)
    (hstep : ∀ number b, number * radix + radix ≤ Offset.limit →
      step number b = .ok ((Byte.digitValue? radix b).map (number * radix + ·)))
    (hnumber : number < radix ^ size) (hroom : radix ^ (size + digits.length) ≤ Offset.limit) :
    follow step number digits =
      .ok ((digits.mapM (Byte.digitValue? radix)).map (Integer.extend radix number)) := by
  induction digits generalizing number size with
  | nil => rfl
  | cons b digits ih =>
      have hsucc : (number + 1) * radix ≤ radix ^ (size + 1) := by
        rw [Nat.pow_succ]
        exact Nat.mul_le_mul_right radix hnumber
      have hroom' : radix ^ (size + 1 + digits.length) ≤ Offset.limit := by
        rw [Nat.add_assoc, Nat.add_comm 1]
        exact hroom
      have hle : radix ^ (size + 1) ≤ Offset.limit :=
        Nat.le_trans (Nat.pow_le_pow_right hradix (Nat.le_add_right ..)) hroom'
      rw [Nat.succ_mul] at hsucc
      rw [follow, hstep number b (Nat.le_trans hsucc hle), Fault.ok_bind, List.mapM_cons]
      cases hdigit : Byte.digitValue? radix b with
      | none => rfl
      | some digit =>
          have hlt := Byte.digitValue?_lt hdigit
          dsimp only [Option.map_some]
          rw [ih (by omega) hroom']
          cases digits.mapM (Byte.digitValue? radix) <;> rfl

theorem follow_number {radix width : Nat} {step : Nat → Byte → Except Fault (Option Nat)}
    (hradix : 0 < radix)
    (hstep : ∀ number b, number * radix + radix ≤ Offset.limit →
      step number b = .ok ((Byte.digitValue? radix b).map (number * radix + ·)))
    (hroom : radix ^ width ≤ Offset.limit) {text : Bytes} (hwidth : width ≤ text.length) :
    follow step 0 (text.take width) = .ok (Escape.number? radix width text) := by
  have hlength : radix ^ (0 + (text.take width).length) ≤ Offset.limit := by
    rwa [Nat.zero_add, List.length_take_of_le hwidth]
  rw [follow_eq hradix hstep Nat.one_pos hlength, number?_eq, if_pos hwidth]

theorem follow_hex (hcount : count ≤ 8) {text : Bytes} (hwidth : count ≤ text.length) :
    follow hexStep 0 (text.take count) = .ok (Escape.number? 16 count text) := by
  have hroom : 16 ^ count ≤ Offset.limit :=
    Nat.le_trans (Nat.pow_le_pow_right (by decide) hcount) (by decide)
  exact follow_number (by decide) (fun _ b h => hexStep_eq h b) hroom hwidth

theorem follow_octal {text : Bytes} (hwidth : 3 ≤ text.length) :
    follow octalStep 0 (text.take 3) = .ok (Escape.number? 8 3 text) :=
  follow_number (by decide) (fun _ b h => octalStep_eq h b) (by decide) hwidth

/-! Stretches of the body from a letter on. -/

theorem drop_succ {rest : Bytes} (h : body.drop i = b :: rest) : body.drop (i + 1) = rest := by
  rw [← List.tail_drop, h, List.tail_cons]

/-- Of the bytes from a place on, as many as there are. -/
theorem extract_min (body : Bytes) (i count : Nat) :
    body.extract i (min (i + count) body.length) = (body.drop i).take count := by
  rw [List.extract_eq_take_drop, List.take_eq_take_iff, List.length_drop]
  omega

/-- The place is the one after the letter, in a body that words have room for. -/
structure Faces (limit : Nat) (body : Bytes) (i : Nat) (letter : Byte) (after : Bytes) :
    Prop where
  room : body.length + 8 < limit
  exists_front : ∃ front, body = front ++ letter :: after ∧ i = front.length + 1

namespace Faces

theorem drop_eq (h : Faces limit body i letter after) : body.drop (i - 1) = letter :: after := by
  obtain ⟨front, rfl, rfl⟩ := h.exists_front
  rw [Nat.add_sub_cancel, List.drop_left]

theorem length_eq (h : Faces limit body i letter after) :
    1 ≤ i ∧ body.length = i + after.length := by
  obtain ⟨front, rfl, rfl⟩ := h.exists_front
  rw [List.length_append, List.length_cons]
  omega

theorem sub_one (h : Faces limit body i letter after) : Offset.sub i 1 = .ok (i - 1) :=
  Offset.sub_of_le h.length_eq.1

theorem extract_eq (h : Faces limit body i letter after) (count : Nat) :
    body.extract i (i + count) = after.take count := by
  have hdrop := drop_succ h.drop_eq
  rw [Nat.sub_add_cancel h.length_eq.1] at hdrop
  rw [List.extract_eq_take_drop, hdrop, Nat.add_sub_cancel_left]

theorem unknown_eq (h : Faces limit body i letter after) (hcount : i - 1 + count < limit) :
    unknown limit body (i - 1) count =
      .ok (.unknownEscape (Utf8.lossy ((letter :: after).take count))) := by
  have hlength := h.length_eq
  have hinside : i - 1 ≤ min (i - 1 + count) body.length ∧
      min (i - 1 + count) body.length ≤ body.length := by
    omega
  rw [unknown, add_of_lt hcount, Fault.ok_bind]
  dsimp only
  rw [slice, if_pos hinside, extract_min, h.drop_eq]
  rfl

theorem hexNumber_some (h : Faces limit body i letter after) (hcount : count ≤ 8)
    (hnumber : Escape.number? 16 count after = some number) :
    hexNumber limit body i count = .ok (.ok number) := by
  have hlength := h.length_eq
  have hroom := h.room
  have hwidth := ((number?_eq_some_iff (by decide)).mp hnumber).1
  have hinside : i ≤ i + count ∧ i + count ≤ body.length := by omega
  rw [hexNumber, add_of_lt (by omega), Fault.ok_bind, if_pos hinside, h.extract_eq,
    follow_hex hcount hwidth, hnumber]
  rfl

theorem hexNumber_none (h : Faces limit body i letter after) (hcount : count ≤ 8)
    (hnumber : Escape.number? 16 count after = none) :
    hexNumber limit body i count = .ok (.error (Escape.unknown letter after count)) := by
  have hlength := h.length_eq
  have hroom := h.room
  rw [hexNumber, add_of_lt (by omega), Fault.ok_bind]
  by_cases hwidth : count ≤ after.length
  · have hinside : i ≤ i + count ∧ i + count ≤ body.length := by omega
    rw [if_pos hinside, h.extract_eq, follow_hex hcount hwidth, hnumber, Fault.ok_bind]
    dsimp only
    rw [h.sub_one, Fault.ok_bind, add_of_lt (by omega), Fault.ok_bind]
    dsimp only
    rw [h.unknown_eq (by omega)]
    rfl
  · have houtside : ¬ (i ≤ i + count ∧ i + count ≤ body.length) := by omega
    have hall : (letter :: after).take (body.length - i + 1) = letter :: after.take count := by
      rw [List.take_succ_cons, List.take_of_length_le (by omega),
        List.take_of_length_le (by omega)]
    rw [if_neg houtside, h.sub_one, Fault.ok_bind, Offset.sub_of_le (by omega), Fault.ok_bind,
      add_of_lt (by omega), Fault.ok_bind]
    dsimp only
    rw [h.unknown_eq (by omega), hall]
    rfl

theorem hexByte_eq (h : Faces limit body i letter after) :
    hexByte limit body i = .ok (Escape.hexByte letter after) := by
  unfold hexByte Escape.hexByte
  cases hnumber : Escape.number? 16 2 after with
  | none =>
      rw [h.hexNumber_none (by decide) hnumber]
      rfl
  | some number =>
      obtain ⟨hwidth, hdigits⟩ := (number?_eq_some_iff (by decide)).mp hnumber
      have hlt : number < 256 := by
        have hbound := hdigits.lt_pow (by decide)
        rwa [List.length_take_of_le hwidth] at hbound
      rw [h.hexNumber_some (by decide) hnumber, Fault.ok_bind]
      dsimp only
      rw [if_pos hlt]
      rfl

theorem character_eq {width : Nat} (h : Faces limit body i letter after) (hwidth : width ≤ 8) :
    character limit body i width = .ok (Escape.character letter after width) := by
  have hlength := h.length_eq
  have hroom := h.room
  unfold character Escape.character
  cases hnumber : Escape.number? 16 width after with
  | none =>
      rw [h.hexNumber_none hwidth hnumber]
      rfl
  | some number =>
      have hdigits := ((number?_eq_some_iff (by decide)).mp hnumber).1
      have hinside : i - 1 ≤ i + width ∧ i + width ≤ body.length := by omega
      have hall : i + width - (i - 1) = width + 1 := by omega
      rw [h.hexNumber_some hwidth hnumber, Fault.ok_bind]
      dsimp only
      split
      · rfl
      · rw [h.sub_one, Fault.ok_bind, add_of_lt (by omega), Fault.ok_bind]
        dsimp only
        rw [slice, if_pos hinside, List.extract_eq_take_drop, h.drop_eq, hall]
        rfl

theorem octalNumber_eq (h : Faces limit body i letter after) :
    octalNumber limit body (i - 1) = .ok (Escape.number? 8 3 (letter :: after)) := by
  have hlength := h.length_eq
  have hroom := h.room
  rw [octalNumber, add_of_lt (by omega), Fault.ok_bind]
  by_cases hwidth : 3 ≤ (letter :: after).length
  · have hinside : i - 1 ≤ i - 1 + 3 ∧ i - 1 + 3 ≤ body.length := by
      rw [List.length_cons] at hwidth
      omega
    rw [if_pos hinside, List.extract_eq_take_drop, h.drop_eq, Nat.add_sub_cancel_left,
      follow_octal hwidth]
  · have houtside : ¬ (i - 1 ≤ i - 1 + 3 ∧ i - 1 + 3 ≤ body.length) := by
      rw [List.length_cons] at hwidth
      omega
    rw [if_neg houtside, number?_eq, if_neg hwidth]
    rfl

theorem octal_eq (h : Faces limit body i letter after) :
    octal limit body letter i = .ok (Escape.octal letter after) := by
  have hlength := h.length_eq
  have hroom := h.room
  rw [octal, h.sub_one, Fault.ok_bind, h.octalNumber_eq, Fault.ok_bind, Escape.octal]
  cases (Escape.number? 8 3 (letter :: after)).filter (· < 256) with
  | some number => rfl
  | none =>
      dsimp only
      split
      · rfl
      · rw [h.unknown_eq (by omega)]
        rfl

theorem escape_eq (h : Faces limit body i letter after) :
    escape limit body letter i = .ok (Escape.inDouble letter after) := by
  have hlength := h.length_eq
  have hroom := h.room
  unfold escape Escape.inDouble
  cases Escape.doubleLetters.lookup letter with
  | some b => rfl
  | none =>
      dsimp only
      split
      · exact h.hexByte_eq
      · split
        · exact h.character_eq (by decide)
        · split
          · exact h.character_eq (by decide)
          · split
            · exact h.octal_eq
            · rw [h.sub_one, Fault.ok_bind, h.unknown_eq (by omega)]
              rfl

end Faces

/-! The whole body. -/

theorem width_le {e : Escape} (h : Escape.inDouble letter after = .ok e) :
    e.width ≤ after.length := by
  obtain ⟨digits, rest, rfl, hwidth, _⟩ :=
    takes_of_inDouble (show Quote.double.byte ≠ Quote.single.byte by decide) h
  rw [List.length_append]
  omega

theorem byteAt_eq {rest : Bytes} (h : body.drop i = b :: rest) : byteAt body i = .ok b := by
  have hhead := congrArg List.head? h
  rw [List.head?_drop, List.head?_cons] at hhead
  rw [byteAt, hhead]

theorem faces_of_drop {rest : Bytes} (hroom : body.length + 8 < limit)
    (h : body.drop i = b :: letter :: rest) : Faces limit body (i + 2) letter rest := by
  refine ⟨hroom, body.take i ++ [b], ?_, ?_⟩
  · rw [List.append_assoc, List.singleton_append, ← h, List.take_append_drop]
  · have hlength := congrArg List.length h
    rw [List.length_drop, List.length_cons, List.length_cons] at hlength
    rw [List.length_append, List.length_take_of_le (by omega), List.length_singleton]

theorem resolve_eq (hroom : body.length + 8 < limit) (hi : i ≤ body.length) :
    resolve limit body i = .ok (Quoted.resolve Escape.inDouble (body.drop i)) := by
  induction hleft : body.length - i using Nat.strong_induction_on generalizing i with
  | _ left ih =>
      rw [resolve.eq_def]
      cases hdrop : body.drop i with
      | nil =>
          have hend : ¬ i < body.length := by
            rw [List.drop_eq_nil_iff] at hdrop
            omega
          rw [if_neg hend, Quoted.resolve]
          rfl
      | cons b rest =>
          have hlength := congrArg List.length hdrop
          rw [List.length_drop, List.length_cons] at hlength
          have hnext := drop_succ hdrop
          rw [if_pos (by omega), byteAt_eq hdrop, Fault.ok_bind, add_of_lt (by omega),
            Fault.ok_bind, Quoted.resolve.eq_def]
          dsimp only
          split
          · cases rest with
            | nil =>
                rw [List.getElem?_eq_none (by rw [List.length_nil] at hlength; omega)]
                rfl
            | cons letter after =>
                have hfaces := faces_of_drop hroom hdrop
                have hletter : body[i + 1]? = some letter := by
                  rw [← List.head?_drop, hnext, List.head?_cons]
                rw [hletter]
                dsimp only
                rw [add_of_lt (by omega), Fault.ok_bind]
                dsimp only
                rw [hfaces.escape_eq, Fault.ok_bind]
                cases hescape : Escape.inDouble letter after with
                | error failure => rfl
                | ok e =>
                    have hwidth := width_le hescape
                    have hafter : body.drop (i + 2 + e.width) = after.drop e.width := by
                      rw [← List.drop_drop, drop_succ hnext]
                    rw [List.length_cons] at hlength
                    dsimp only
                    rw [add_of_lt (by omega), Fault.ok_bind]
                    dsimp only
                    rw [ih _ (by omega) (by omega) rfl, hafter, Fault.ok_bind]
                    cases Quoted.resolve Escape.inDouble (after.drop e.width) <;> rfl
          · rw [ih _ (by omega) (by omega) rfl, hnext, Fault.ok_bind]
            cases Quoted.resolve Escape.inDouble rest <;> rfl

theorem bodyBytes_eq (hroom : body.length + 8 < limit) (quote : Byte) :
    bodyBytes limit body quote = .ok (Quoted.bodyBytes quote body) := by
  unfold bodyBytes Quoted.bodyBytes
  split
  · split
    · next hquote =>
        rw [escapesOf, if_pos hquote]
        rfl
    · next hquote =>
        rw [resolve_eq hroom (Nat.zero_le _), escapesOf, if_neg hquote, List.drop_zero]
  · rfl

/-- Words with room for the body and eight bytes more are enough for its reading by places. -/
theorem readBody_eq (hroom : body.length + 8 < limit) (quote : Byte) :
    readBody limit body quote = .ok (Quoted.readBody quote body) := by
  unfold readBody Quoted.readBody
  split
  · rfl
  · rw [bodyBytes_eq hroom, Fault.ok_bind]
    cases Quoted.bodyBytes quote body with
    | error failure => rfl
    | ok bytes =>
        dsimp only [bind, Except.bind]
        cases Utf8.decode? bytes <;> rfl

end Indexed

end Quoted

end Literal

end IdlLexis
