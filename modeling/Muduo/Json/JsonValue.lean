import Muduo.Base.Bytes
import Mathlib.Algebra.Order.Ring.Int

/-! # `JsonValue` and its parser

The recursive descent parser of `muduo/base/JsonValue.h`. A pointer into the NUL-terminated text is
the list of bytes from it to the terminating NUL, and `*next` is `peek`. Parsing ends with a value,
or with one of the faults: an assertion that fails, a read behind the terminating NUL, or the
exception of `std::stoll`.

The loops and the recursion are bounded by a number of steps; a text on which the parser runs for
ever is one for which every bound is too small. -/

namespace Muduo

namespace Json

/-- `JsonValue::JType`. -/
inductive JType
  | kInt
  | kFloat
  | kString
  | kHash
  | kArray
  | kBool
  | kNull
deriving DecidableEq, Repr

/-- The union of `floatNum_`, `intNum_` and `boolNum_`: what was written to it last. A `double` is
given by the text that `std::strtod` reads it from. -/
inductive Num
  | unset
  | floatNum (text : Bytes)
  | intNum (n : ℤ)
  | boolNum (b : Bool)
deriving DecidableEq, Repr

/-- `JsonValue`. -/
structure JsonValue where
  /-- `elements_`. -/
  elements : List JsonValue
  /-- `str_`. -/
  str : Bytes
  /-- `key_`. -/
  key : Bytes
  /-- The union. -/
  num : Num
  /-- `type_`. -/
  type : JType

/-- `JsonValue()`. -/
def JsonValue.new : JsonValue := ⟨[], [], [], .unset, .kNull⟩

/-- How parsing can end without a value. -/
inductive Fault
  /-- An assertion fails. -/
  | assertion
  /-- A character behind the terminating NUL is read. -/
  | overrun
  /-- `std::stoll` throws `std::out_of_range`. -/
  | outOfRange
  /-- The bound on the number of steps is reached. -/
  | outOfSteps
deriving DecidableEq, Repr

/-- `*next`. -/
def peek (s : Bytes) : UInt8 := s.headD 0

/-- `*begin!='\0'&&*begin<=32`; `char` is signed. -/
def isBlank (c : UInt8) : Bool := c != 0 && (c ≤ 32 || 128 ≤ c)

/-- `skipSpace(begin)`. -/
def skipSpace (s : Bytes) : Bytes := s.dropWhile isBlank

/-- The loop of `parseString`, which copies up to the closing quote. -/
def copyString : Bytes → Except Fault (Bytes × Bytes)
  | [] => .error .overrun
  | c :: s => if c = QUOTE then .ok (s, []) else (copyString s).map fun p => (p.1, c :: p.2)

/-- `parseString(next, output)`: the pointer it returns, and `output`. It asserts `*next=='\"'`. -/
def parseString (s : Bytes) : Except Fault (Bytes × Bytes) :=
  if peek s = QUOTE then (copyString (skipSpace (s.drop 1))).map fun p => (skipSpace p.1, p.2)
  else .error .assertion

/-- `isdigit(*end)||*end=='.'`. -/
def isNumChar (c : UInt8) : Bool := isdigit c || c == DOT

/-- `parseNumber(next, output, isFloat)`: the pointer it returns, the number and its type. -/
def parseNumber (s : Bytes) : Except Fault (Bytes × Num × JType) :=
  let numStr := s.takeWhile isNumChar
  let next := skipSpace (s.drop numStr.length)
  -- `*end=='.'` is tested from the second character on
  if DOT ∈ numStr.tail then .ok (next, .floatNum s, .kFloat)
  else if decimal numStr < 2 ^ 63 then .ok (next, .intNum (decimal numStr), .kInt)
  else .error .outOfRange

mutual

/-- `parseObject(next, output)`: the pointer it returns, and `output`. The branch for `null` only
sets the type. -/
def parseObject : ℕ → Bytes → JsonValue → Except Fault (Bytes × JsonValue)
  | 0, _, _ => .error .outOfSteps
  | n + 1, s, output =>
    let s := skipSpace s
    if peek s = LBRACE then do
      let (s, elements) ← parseHash n (skipSpace (s.drop 1)) []
      pure (skipSpace s, { output with elements := elements, type := .kHash })
    else if peek s = LBRACKET then do
      let (s, elements) ← parseArray n (skipSpace (s.drop 1)) []
      pure (skipSpace s, { output with elements := elements, type := .kArray })
    else if peek s = QUOTE then do
      let (s, str) ← parseString s
      pure (skipSpace s, { output with str := str, type := .kString })
    else if isdigit (peek s) then do
      let (s, num, type) ← parseNumber s
      pure (skipSpace s, { output with num := num, type := type })
    else if s.take 4 = ascii "true" then
      .ok (skipSpace (skipSpace (s.drop 4)), { output with num := .boolNum true, type := .kBool })
    else if s.take 5 = ascii "false" then
      .ok (skipSpace (skipSpace (s.drop 5)), { output with num := .boolNum false, type := .kBool })
    else if (s.take 4).map tolower = ascii "null" then
      .ok (skipSpace s, { output with type := .kNull })
    else .ok (skipSpace s, output)

/-- The loop of `parseHash`, with the elements so far. -/
def parseHash : ℕ → Bytes → List JsonValue → Except Fault (Bytes × List JsonValue)
  | 0, _, _ => .error .outOfSteps
  | n + 1, s, elements =>
    if peek s = RBRACE then .ok (skipSpace (s.drop 1), elements)
    else do
      let (s, key) ← parseString s
      if peek s = COLON then do
        let (s, element) ← parseObject n (s.drop 1) { JsonValue.new with key := key }
        if peek s = COMMA then parseHash n (skipSpace (s.drop 1)) (elements ++ [element])
        else parseHash n s (elements ++ [element])
      else .error .assertion

/-- The loop of `parseArray`, with the elements so far. -/
def parseArray : ℕ → Bytes → List JsonValue → Except Fault (Bytes × List JsonValue)
  | 0, _, _ => .error .outOfSteps
  | n + 1, s, elements =>
    if peek s = RBRACKET then .ok (skipSpace (s.drop 1), elements)
    else do
      let (s, element) ← parseObject n s .new
      if peek s = COMMA then parseArray n (skipSpace (s.drop 1)) (elements ++ [element])
      else parseArray n s (elements ++ [element])

end

/-- A string for `c_str()`: the bytes before the terminating NUL. -/
abbrev CString := { s : Bytes // 0 ∉ s }

/-- `fromString(str)` on the value `v`, within `n` steps. -/
def fromString (n : ℕ) (v : JsonValue) (str : CString) : Except Fault JsonValue :=
  (parseObject n str.1 v).map Prod.snd

end Json

end Muduo
