import Lox.Decimal.Shortest

/-!
# Layouts of numbers

A layout says how a number is written once its digits are known: where positional notation ends,
what marks a whole number and how an exponent looks. `Layout.write` does the writing.
-/

namespace Lox.Decimal

structure Layout where
  /-- The exponents that are written without an exponent part. -/
  positional : Int → Bool := fun _ => true
  /-- What follows a whole number with this exponent. -/
  wholeMark : Int → String := fun _ => ""
  /-- Whether a whole number shows all its digits, beyond those that identify it. -/
  exactWhole : Bool := false
  /-- Whether a negative zero shows its sign. -/
  zeroSign : Bool := true
  /-- The least number of digits in an exponent part. -/
  exponentWidth : Nat := 1
  /-- Whether a value halfway between two shortest decimals takes the upper one. -/
  tieUp : Nat → Bool := fun _ => true
  nan : String := "NaN"
  infinity : String := "inf"

/-- The digits with a point, and zeros where the digits do not reach it. -/
def Layout.writePositional (l : Layout) (d : Digits) : String :=
  if d.exponent < 0 then
    String.ofList ('0' :: '.' :: (List.replicate (-d.exponent - 1).toNat '0' ++ d.digits))
  else
    let places := d.exponent.toNat + 1
    if d.digits.length ≤ places then
      String.ofList (d.digits ++ List.replicate (places - d.digits.length) '0')
        ++ l.wholeMark d.exponent
    else String.ofList (d.digits.take places ++ '.' :: d.digits.drop places)

def Layout.writeScientific (l : Layout) (d : Digits) : String :=
  let mantissa :=
    match d.digits with
    | first :: second :: rest => first :: '.' :: second :: rest
    | short => short
  let sign := if d.exponent < 0 then '-' else '+'
  let exponent := Nat.toDigits 10 d.exponent.natAbs
  let padding := List.replicate (l.exponentWidth - exponent.length) '0'
  String.ofList (mantissa ++ 'e' :: sign :: (padding ++ exponent))

/-- The digits that a layout shows of `significand * 2 ^ exponent`. -/
def Layout.digits (l : Layout) (significand : Nat) (exponent : Int) : Digits :=
  let short := Digits.shortest significand exponent l.tieUp
  if l.exactWhole && decide (short.digits.length ≤ short.exponent + 1) then
    Digits.whole significand exponent
  else short

def Layout.write (l : Layout) (x : Float) : String :=
  match Parts.ofFloat x with
  | .nan => l.nan
  | .infinite negative => if negative then "-" ++ l.infinity else l.infinity
  | .finite negative significand exponent =>
    let d := l.digits significand exponent
    let text := if l.positional d.exponent then l.writePositional d else l.writeScientific d
    if negative && (l.zeroSign || significand != 0) then "-" ++ text else text

end Lox.Decimal
