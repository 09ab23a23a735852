import CsdWorker.Lib.Endian
import CsdWorker.DataStructure

/-! # Strings, keys and column offsets

`utils.h`, with the conversions of the C++ library that the evaluator calls. A conversion that
throws is `none`.
-/

namespace CsdWorker

open Memory Endian

set_option autoImplicit false

def bytesOf (s : String) : Bytes := s.toList.map fun c => UInt8.ofNat c.toNat

/-- `getline` on the delimiter, empty pieces dropped. -/
def split (input : Bytes) (delimiter : UInt8) : List Bytes :=
  (input.splitOn delimiter).filter fun part => !part.isEmpty

def makeMapKey (queryId workId : Int) : String := queryId.repr ++ "|" ++ workId.repr

/-- The set `" \t\n\r\f\v"`: the literal's own `\0` ends the C string and is not part of it. -/
def isTrimmed (b : UInt8) : Bool := b == 32 || b == 9 || b == 10 || b == 13 || b == 12 || b == 11

def rtrim (s : Bytes) : Bytes := s.rdropWhile isTrimmed

def ltrim (s : Bytes) : Bytes := s.dropWhile isTrimmed

def trim (s : Bytes) : Bytes := ltrim (rtrim s)

def convertToLowercase (target : Bytes) : Bytes :=
  target.map fun b => if 65 ≤ b ∧ b ≤ 90 then b + 32 else b

def isDigitByte (b : UInt8) : Bool := 48 ≤ b && b ≤ 57

def digitsValue (ds : Bytes) : Nat := ds.foldl (fun n d => n * 10 + (d.toNat - 48)) 0

def takeSign : Bytes → Bool × Bytes
  | 45 :: s => (true, s)
  | 43 :: s => (false, s)
  | s => (false, s)

/-- `strtol` in base ten: blanks, a sign, then as many digits as there are. -/
def parseInteger (low high : Int) (s : Bytes) : Option Int :=
  let (negative, s) := takeSign (s.dropWhile isTrimmed)
  let ds := s.takeWhile isDigitByte
  let value : Int := if negative then -(digitsValue ds : Int) else digitsValue ds
  if ds.isEmpty then none else if low ≤ value ∧ value ≤ high then some value else none

def stoi (s : Bytes) : Option Int := parseInteger (-2 ^ 31) (2 ^ 31 - 1) s

def stoll (s : Bytes) : Option Int := parseInteger (-2 ^ 63) (2 ^ 63 - 1) s

/-- The decimal form of `strtod`: sign, digits as one integer, power of ten. -/
def parseDecimal (s : Bytes) : Option (Bool × Nat × Int) :=
  let (negative, s) := takeSign (s.dropWhile isTrimmed)
  let whole := s.takeWhile isDigitByte
  let s := s.dropWhile isDigitByte
  let (fraction, s) := match s with
    | 46 :: t => (t.takeWhile isDigitByte, t.dropWhile isDigitByte)
    | _ => ([], s)
  let exponent : Int := match s with
    | e :: t =>
      let (down, t) := takeSign t
      let n : Int := digitsValue (t.takeWhile isDigitByte)
      if e = 101 ∨ e = 69 then if down then -n else n else 0
    | [] => 0
  if (whole ++ fraction).isEmpty then none
  else some (negative, digitsValue (whole ++ fraction), exponent - fraction.length)

def stod (s : Bytes) : Option Float := do
  let (negative, mantissa, exponent) ← parseDecimal s
  let value := Float.ofScientific mantissa (exponent < 0) exponent.natAbs
  pure (if negative then -value else value)

def stof (s : Bytes) : Option Float32 := do
  let (negative, mantissa, exponent) ← parseDecimal s
  let value := Float32.ofScientific mantissa (exponent < 0) exponent.natAbs
  pure (if negative then -value else value)

/-- An access before the object is undefined; one past its end reads what lies there. -/
def byteAt (m : Mem) (i : Int) : Option UInt8 := if 0 ≤ i then some (m i.toNat) else none

def slice (m : Mem) (start length : Int) : Option Bytes :=
  if 0 ≤ start ∧ 0 ≤ length then some (read m start.toNat length.toNat) else none

def calculColumnOffsetFrom (row : Mem) (schemaInfo : SchemaInfo) : Nat → Nat → Int → Option (List Int)
  | 0, _, _ => some []
  | n + 1, i, tune => do
    let type ← schemaInfo.columnType[i]?
    let length ← schemaInfo.columnLength[i]?
    let offset ← schemaInfo.columnOffset[i]?
    let newOffset := offset + tune
    let tune ←
      if type = .varString then
        if length < 256 then do
          let varLen ← byteAt row newOffset
          pure (tune + (varLen.toNat + 1 - length))
        else do
          let low ← byteAt row newOffset
          let high ← byteAt row (newOffset + 1)
          pure (tune + (leNat [low, high] + 2 - length))
      else pure tune
    let rest ← calculColumnOffsetFrom row schemaInfo n (i + 1) tune
    pure (newOffset :: rest)

def calculColumnOffset (row : Mem) (schemaInfo : SchemaInfo) : Option (List Int) :=
  calculColumnOffsetFrom row schemaInfo schemaInfo.columnName.length 0 0

def columnOffsetList (row : Bytes) (schemaInfo : SchemaInfo) : Option (List Int) :=
  if schemaInfo.hasVarChar then do
    let offsets ← calculColumnOffset (ofBytes row) schemaInfo
    pure (offsets ++ [(row.length : Int)])
  else some schemaInfo.columnOffset

theorem not_mem_repr_bar (n : Int) : '|' ∉ n.repr.toList := by
  have hDigits : ∀ m : Nat, '|' ∉ m.repr.toList := by
    intro m hm
    rw [Nat.repr, String.toList_ofList] at hm
    exact absurd (Nat.isDigit_of_mem_toDigits (by decide) (by decide) hm) (by decide)
  cases n with
  | ofNat m => exact hDigits m
  | negSucc m =>
    rw [Int.repr, String.toList_append, List.mem_append, not_or]
    exact ⟨by decide, hDigits _⟩

theorem makeMapKey_inj {q w q' w' : Int} (h : makeMapKey q w = makeMapKey q' w') : q = q' ∧ w = w' := by
  have hList := congrArg String.toList h
  simp only [makeMapKey, String.toList_append, List.append_assoc] at hList
  have hBar : "|".toList = ['|'] := by decide
  rw [hBar, List.singleton_append, List.singleton_append] at hList
  obtain ⟨hq, -, hw⟩ := (List.append_cons_inj_of_notMem (not_mem_repr_bar q) (not_mem_repr_bar w)).mp hList
  exact ⟨Int.repr_inj.mp (String.toList_injective hq), Int.repr_inj.mp (String.toList_injective hw)⟩

end CsdWorker
