import Mathlib.Algebra.Order.Field.Rat

/-! # Numbers in C texts

`strtod` reads the longest start of a text that is a number, behind white space and a sign.
Finite values are exact; whether one is out of range is left to the caller. -/
namespace Strtod

inductive Value where
  | finite (q : ℚ)
  | infinite (negative : Bool)
  | nan
  deriving DecidableEq, Repr

namespace Value

def neg : Value → Value
  | .finite q => .finite (-q)
  | .infinite negative => .infinite (!negative)
  | .nan => .nan

def mapFinite (f : ℚ → ℚ) : Value → Value
  | .finite q => .finite (f q)
  | .infinite negative => .infinite negative
  | .nan => .nan

end Value

def isSpace (c : Char) : Bool :=
  c == ' ' || c == '\t' || c == '\n' || c == Char.ofNat 11 || c == Char.ofNat 12 || c == '\r'

def isHexDigit (c : Char) : Bool := c.isDigit || ('a' ≤ c.toLower && c.toLower ≤ 'f')

def digitVal (c : Char) : ℕ :=
  if c.isDigit then c.toNat - '0'.toNat else c.toLower.toNat - 'a'.toNat + 10

def digitsVal (base : ℕ) (ds : List Char) : ℕ := ds.foldl (fun v c => base * v + digitVal c) 0

def sign : List Char → Bool × List Char
  | [] => (false, [])
  | c :: q => if c = '-' then (true, q) else if c = '+' then (false, q) else (false, c :: q)

def mantissa (base : ℕ) (isDigit : Char → Bool) (cs : List Char) : Option (ℚ × List Char) :=
  let whole := cs.takeWhile isDigit
  let rest := cs.dropWhile isDigit
  let frac := if rest.head? = some '.' then rest.tail.takeWhile isDigit else []
  let rest := if rest.head? = some '.' then rest.tail.dropWhile isDigit else rest
  if whole ++ frac = [] then none
  else some (digitsVal base (whole ++ frac) / base ^ frac.length, rest)

/-- Without a digit behind it the marker is no exponent. -/
def exponent (marker : Char) : List Char → ℤ × List Char
  | [] => (0, [])
  | c :: q =>
    let (negative, ds) := sign q
    let digits := ds.takeWhile Char.isDigit
    if c.toLower = marker ∧ digits ≠ [] then
      (if negative then -digitsVal 10 digits else digitsVal 10 digits, ds.dropWhile Char.isDigit)
    else (0, c :: q)

def decimal (cs : List Char) : Option (Value × List Char) := do
  let (m, rest) ← mantissa 10 Char.isDigit cs
  let (e, rest) := exponent 'e' rest
  some (.finite (m * 10 ^ e), rest)

def hexadecimal : List Char → Option (Value × List Char)
  | c :: x :: q =>
    if c = '0' ∧ x.toLower = 'x' then do
      let (m, rest) ← mantissa 16 isHexDigit q
      let (e, rest) := exponent 'p' rest
      some (.finite (m * 2 ^ e), rest)
    else none
  | _ => none

def word (w : List Char) (d : Value) (cs : List Char) : Option (Value × List Char) :=
  if (cs.take w.length).map Char.toLower = w then some (d, cs.drop w.length) else none

/-- What may stand in brackets behind a NaN. -/
def payload (cs : List Char) : List Char :=
  let rest := cs.tail.dropWhile fun c => c.isAlphanum || c == '_'
  if cs.head? = some '(' ∧ rest.head? = some ')' then rest.tail else cs

/-- The first form that fits takes the most characters. -/
def magnitude (cs : List Char) : Option (Value × List Char) :=
  hexadecimal cs <|> decimal cs <|> word "infinity".toList (.infinite false) cs <|>
    word "inf".toList (.infinite false) cs <|>
    (word "nan".toList .nan cs).map fun r => (r.1, payload r.2)

def strtod (cs : List Char) : Option (Value × List Char) :=
  let (negative, q) := sign (cs.dropWhile isSpace)
  (magnitude q).map fun r => (if negative then r.1.neg else r.1, r.2)

def number (cs : List Char) : Option ℚ :=
  match strtod cs with
  | some (.finite q, rest) => if rest.all isSpace then some q else none
  | _ => none

theorem strtod_of_number {cs : List Char} {q : ℚ} (h : number cs = some q) :
    ∃ rest, strtod cs = some (.finite q, rest) := by
  unfold number at h
  split at h
  · next q' rest hs =>
    split_ifs at h
    obtain rfl := Option.some.inj h
    exact ⟨rest, hs⟩
  · cases h

example : strtod " -0x1.8p1z".toList = some (.finite (-3), ['z']) := by decide +kernel

end Strtod
