import IdlLexis.Diagnostic
/-!
A log holds diagnostics in the order in which they were reported. Nothing is merged, and only
`drain` takes entries out. Every diagnostic is an error, so a log with an entry is evidence
that a scan has failed.
-/

namespace IdlLexis

structure Log where
  entries : Array Diagnostic
  deriving DecidableEq, Repr

/-- Evidence that errors were reported: their number, which is not zero. -/
structure Evidence where
  count : Nat
  count_pos : 0 < count

namespace Evidence

def ofCount? (count : Nat) : Option Evidence :=
  if h : 0 < count then some ⟨count, h⟩ else none

def display (_ : Evidence) : String := "one or more lexical errors were reported"

theorem isSome_ofCount? (count : Nat) : (ofCount? count).isSome = decide (0 < count) := by
  unfold ofCount?
  split
  · next h => simp [h]
  · next h => simp [h]

end Evidence

namespace Log

def empty : Log := ⟨#[]⟩

def toList (log : Log) : List Diagnostic := log.entries.toList

def size (log : Log) : Nat := log.entries.size

def isEmpty (log : Log) : Bool := log.entries.isEmpty

def hasErrors (log : Log) : Bool := !log.isEmpty

def push (log : Log) (d : Diagnostic) : Log := ⟨log.entries.push d⟩

def report (log : Log) (code : Diagnostic.Code) (line offset : Nat) (message : String) : Log :=
  log.push ⟨code, line, offset, message⟩

def evidence? (log : Log) : Option Evidence := Evidence.ofCount? log.size

def drain (log : Log) : List Diagnostic × Log := (log.toList, empty)

@[simp] theorem toList_push (log : Log) (d : Diagnostic) :
    (log.push d).toList = log.toList ++ [d] :=
  Array.toList_push

@[simp] theorem length_toList (log : Log) : log.toList.length = log.size :=
  Array.length_toList

theorem hasErrors_iff (log : Log) : log.hasErrors = true ↔ log.toList ≠ [] := by
  simp [hasErrors, isEmpty, toList]

theorem isSome_evidence? (log : Log) : log.evidence?.isSome = log.hasErrors := by
  rw [evidence?, Evidence.isSome_ofCount?, Bool.eq_iff_iff, hasErrors_iff,
    decide_eq_true_eq, ← length_toList, List.length_pos_iff]

end Log

end IdlLexis
