import Gloss.Toml.Lexical
import Gloss.Toml.Value
/-!
# Numbers, dates and times

Integers keep their value and must fit 64 bits. Floats, dates and times are
only read past, but they must be well formed.
-/

namespace Gloss.Toml

open Reader

/-- Digits, with single underscores between them. -/
def groups (base : Nat) : Reader Text := do
  let d ← char (isDigitOf base)
  let ds ← many (do
    let _ ← optional (exact "_")
    char (isDigitOf base))
  return d :: ds

/-- A minus sign counts, a plus sign may stand. -/
def sign : Reader Bool := (do exact "-"; return true) <|> (do exact "+"; return false) <|> pure false

/-- Decimal digits without a needless zero in front. -/
def decimal : Reader Text := do
  let ds ← groups 10
  guard (ds.length = 1 || ds.head? != some '0')
  return ds

/-! ## Integers -/

def inRange (n : Int) : Bool := -Int.pow 2 63 ≤ n && n < Int.pow 2 63

/-- An integer of another base than ten. -/
def based (mark : String) (base : Nat) : Reader Int := do
  exact mark
  return ofDigits base (← groups base)

def signed : Reader Int := do
  let negative ← sign
  let n := ofDigits 10 (← decimal)
  return if negative then -n else n

def integer : Reader Value := do
  let n ← based "0x" 16 <|> based "0o" 8 <|> based "0b" 2 <|> signed
  guard (inRange n)
  return .integer n

/-! ## Floats -/

/-- The number `m * 10 ^ e` rounds to no finite double. -/
def overflows (m : Nat) (e : Int) : Bool :=
  let size : Int := (Nat.toDigits 10 m).length + e
  if m = 0 || size < 300 then false
  else if 320 < size then true
  else (Nat.pow 2 1024 - Nat.pow 2 970) * Nat.pow 10 (-e).toNat ≤ m * Nat.pow 10 e.toNat

def exponent : Reader Int := do
  exact "e" <|> exact "E"
  let negative ← sign
  let n := ofDigits 10 (← groups 10)
  return if negative then -n else n

/-- A decimal fraction, an exponent, or both. One above zero must be finite. -/
def float : Reader Value := do
  let negative ← sign
  let whole ← decimal
  let fraction ← optional (do exact "."; groups 10)
  let e ← optional exponent
  guard (fraction.isSome || e.isSome)
  let fraction := fraction.getD []
  guard (negative || !overflows (ofDigits 10 (whole ++ fraction)) (e.getD 0 - fraction.length))
  return .other

def specialFloat : Reader Value := do
  let _ ← sign
  exact "inf" <|> exact "nan"
  return .other

/-! ## Dates and times -/

/-- A number of so many digits that is in a range. -/
def field (count lo hi : Nat) : Reader Nat := do
  let n := ofDigits 10 (← digitsOf 10 count)
  guard (lo ≤ n && n ≤ hi)
  return n

def isLeap (year : Nat) : Bool := year % 4 == 0 && (year % 100 != 0 || year % 400 == 0)

def daysIn (year month : Nat) : Nat :=
  if month == 2 then if isLeap year then 29 else 28
  else if month == 4 || month == 6 || month == 9 || month == 11 then 30
  else 31

def date : Reader Unit := do
  let year ← field 4 0 9999
  exact "-"
  let month ← field 2 1 12
  exact "-"
  let _ ← field 2 1 (daysIn year month)

def time : Reader Unit := do
  let _ ← field 2 0 23
  exact ":"
  let _ ← field 2 0 59
  exact ":"
  let _ ← field 2 0 60
  let _ ← optional (do
    exact "."
    run1 Char.isDigit)

/-- The distance from universal time. -/
def offset : Reader Unit :=
  exact "Z" <|> exact "z" <|> do
    exact "+" <|> exact "-"
    let _ ← field 2 0 23
    exact ":"
    let _ ← field 2 0 59

def dateTime : Reader Value := do
  (do
    date
    let _ ← optional (do
      exact "T" <|> exact "t" <|> exact " "
      time
      let _ ← optional offset)) <|> time
  return .other

/-- Any number, date or time. -/
def number : Reader Value := dateTime <|> float <|> specialFloat <|> integer

end Gloss.Toml
