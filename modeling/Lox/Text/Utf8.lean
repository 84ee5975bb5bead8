/-!
# UTF-8 texts

Decoding bytes, with the place where they stop being UTF-8. A character takes one to four bytes; the
first fixes how many and which bytes may follow it.
-/

namespace Lox.Text

/-- Where bytes stop being UTF-8. -/
structure Utf8Fault where
  /-- How many bytes before it are characters. -/
  index : Nat
  /-- How many bytes cannot begin a character; none if the bytes end within one. -/
  length : Option Nat
  deriving DecidableEq, Repr

def Utf8Fault.message (f : Utf8Fault) : String :=
  match f.length with
  | some n =>
    "invalid utf-8 sequence of " ++ toString n ++ " bytes from index " ++ toString f.index
  | none => "incomplete utf-8 byte sequence from index " ++ toString f.index

namespace Utf8

/-- The range of the second byte of a character and how many bytes follow the first, if this byte
can begin one. -/
def leading (b : UInt8) : Option (UInt8 × UInt8 × Nat) :=
  if b < 0x80 then some (0x80, 0xbf, 0)
  else if b < 0xc2 then none
  else if b < 0xe0 then some (0x80, 0xbf, 1)
  else if b = 0xe0 then some (0xa0, 0xbf, 2)
  else if b = 0xed then some (0x80, 0x9f, 2)
  else if b < 0xf0 then some (0x80, 0xbf, 2)
  else if b = 0xf0 then some (0x90, 0xbf, 3)
  else if b < 0xf4 then some (0x80, 0xbf, 3)
  else if b = 0xf4 then some (0x80, 0x8f, 3)
  else none

/-- The first fault after `index` bytes of characters. Within a character, `seen` of its bytes are
read, `owed` are missing, and the next must lie between `low` and `high`. -/
def faultIn (index seen owed : Nat) (low high : UInt8) : List UInt8 → Option Utf8Fault
  | [] => if owed = 0 then none else some ⟨index, none⟩
  | b :: bs =>
    match owed with
    | 0 =>
      match leading b with
      | none => some ⟨index + seen, some 1⟩
      | some (low, high, owed) => faultIn (index + seen) 1 owed low high bs
    | owed + 1 =>
      if low ≤ b ∧ b ≤ high then faultIn index (seen + 1) owed 0x80 0xbf bs
      else some ⟨index, some seen⟩

def fault? (bytes : List UInt8) : Option Utf8Fault := faultIn 0 0 0 0x80 0xbf bytes

def decode (bytes : ByteArray) : Except Utf8Fault String :=
  match String.fromUTF8? bytes with
  | some s => .ok s
  | none => .error ((fault? bytes.toList).getD ⟨bytes.size, none⟩)

end Utf8

end Lox.Text
