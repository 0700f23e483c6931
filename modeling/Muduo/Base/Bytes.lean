import Mathlib.Data.Nat.Notation

/-! # Bytes

Byte strings, the characters that the parsers look for, and decimal numbers. -/

namespace Muduo

/-- A string of bytes. -/
abbrev Bytes := List UInt8

/-- The bytes of an ASCII text. -/
def ascii (s : String) : Bytes := s.toList.map Char.toUInt8

/-- `'\t'`. -/
def TAB : UInt8 := 9

/-- `'\r'`. -/
def CR : UInt8 := 13

/-- `'\n'`. -/
def LF : UInt8 := 10

/-- `' '`. -/
def SP : UInt8 := 32

/-- `':'`. -/
def COLON : UInt8 := 58

/-- `'?'`. -/
def QUESTION : UInt8 := 63

/-- `'"'`. -/
def QUOTE : UInt8 := 34

/-- `','`. -/
def COMMA : UInt8 := 44

/-- `'.'`. -/
def DOT : UInt8 := 46

/-- `'['`. -/
def LBRACKET : UInt8 := 91

/-- `']'`. -/
def RBRACKET : UInt8 := 93

/-- The opening brace. -/
def LBRACE : UInt8 := 123

/-- The closing brace. -/
def RBRACE : UInt8 := 125

/-- `isdigit(c)`. -/
def isdigit (c : UInt8) : Bool := 48 ≤ c && c ≤ 57

/-- `tolower` in the C locale. -/
def tolower (c : UInt8) : UInt8 := if 65 ≤ c ∧ c ≤ 90 then c + 32 else c

/-- The number that a string of digits writes in base ten. -/
def decimal (s : Bytes) : ℕ := s.foldl (fun n c => 10 * n + (c.toNat - 48)) 0

end Muduo
