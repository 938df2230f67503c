/-!
# Reading integers

Integers in assembly text are an optional sign and one or more ASCII digits, with no other
characters, and have to fit their width.
-/

namespace SsaBackend.Text

def digits? (cs : List Char) : Option Nat :=
  if !cs.isEmpty && cs.all Char.isDigit then some (Nat.ofDigitChars 10 cs 0) else none

def integer? : List Char → Option Int
  | '-' :: cs => (digits? cs).map fun n => -(n : Int)
  | '+' :: cs => (digits? cs).map Int.ofNat
  | cs => (digits? cs).map Int.ofNat

def int64? (s : String) : Option Int64 :=
  (integer? s.toList).bind fun n =>
    if Int64.minValue.toInt ≤ n ∧ n ≤ Int64.maxValue.toInt then some (Int64.ofInt n) else none

def uint32? (s : String) : Option Nat :=
  let cs := match s.toList with
    | '+' :: cs => cs
    | cs => cs
  (digits? cs).bind fun n => if n < UInt32.size then some n else none

def renderInt64 (n : Int64) : String := toString n.toInt

end SsaBackend.Text
