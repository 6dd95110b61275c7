import IdlLexis.Text.Utf8
/-!
The reserved words. Their order is fixed, since it numbers them. A word is reserved only in
exactly this spelling.
-/

namespace IdlLexis

inductive Keyword
  | includeFile
  | namespaceScope
  | voidType
  | boolType
  | byteType
  | i8Type
  | i16Type
  | i32Type
  | i64Type
  | doubleType
  | stringType
  | binaryType
  | mapType
  | listType
  | setType
  | onewayCall
  | typedefName
  | structType
  | unionType
  | exceptionType
  | extendsService
  | throwsException
  | serviceType
  | enumType
  | constValue
  | requiredField
  | optionalField
  | trueValue
  | falseValue
  deriving DecidableEq, Repr

namespace Keyword

def all : List Keyword :=
  [includeFile, namespaceScope, voidType, boolType, byteType, i8Type, i16Type, i32Type,
    i64Type, doubleType, stringType, binaryType, mapType, listType, setType, onewayCall,
    typedefName, structType, unionType, exceptionType, extendsService, throwsException,
    serviceType, enumType, constValue, requiredField, optionalField, trueValue, falseValue]

def spelling : Keyword → String
  | includeFile => "include"
  | namespaceScope => "namespace"
  | voidType => "void"
  | boolType => "bool"
  | byteType => "byte"
  | i8Type => "i8"
  | i16Type => "i16"
  | i32Type => "i32"
  | i64Type => "i64"
  | doubleType => "double"
  | stringType => "string"
  | binaryType => "binary"
  | mapType => "map"
  | listType => "list"
  | setType => "set"
  | onewayCall => "oneway"
  | typedefName => "typedef"
  | structType => "struct"
  | unionType => "union"
  | exceptionType => "exception"
  | extendsService => "extends"
  | throwsException => "throws"
  | serviceType => "service"
  | enumType => "enum"
  | constValue => "const"
  | requiredField => "required"
  | optionalField => "optional"
  | trueValue => "true"
  | falseValue => "false"

def spellings : List String := all.map spelling

def bytes (k : Keyword) : Bytes := Utf8.encode k.spelling.toList

def rank (k : Keyword) : Nat := all.idxOf k

def ofBytes? (text : Bytes) : Option Keyword := all.find? (·.bytes == text)

theorem mem_all (k : Keyword) : k ∈ all := by
  cases k <;> decide

theorem ofBytes?_bytes (k : Keyword) : ofBytes? k.bytes = some k := by
  cases k <;> decide

theorem bytes_of_ofBytes? {text : Bytes} {k : Keyword} (h : ofBytes? text = some k) :
    k.bytes = text := by
  rw [ofBytes?, List.find?_eq_some_iff_append] at h
  exact eq_of_beq h.1

theorem ofBytes?_eq_some_iff {text : Bytes} {k : Keyword} :
    ofBytes? text = some k ↔ k.bytes = text :=
  ⟨bytes_of_ofBytes?, fun h => h ▸ ofBytes?_bytes k⟩

end Keyword

end IdlLexis
