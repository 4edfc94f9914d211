import Renaming.ClassFile.Error

/-!
# Decoders

A decoder takes bytes off the front of its input and either yields a value or fails. Running out
of input is always the failure `unexpectedEof`. Every decoder below reads a prefix that the value
determines, and leaves the rest alone.
-/

namespace Renaming

abbrev Decoder := StateT Bytes (Except ReadError)

namespace Decoder

def take (n : Nat) : Decoder Bytes := fun bs =>
  let front := bs.take n
  if front.length = n then .ok (front, bs.drop n) else .error .unexpectedEof

def word (n : Nat) : Decoder Nat := Bytes.toNatBE <$> take n

def u1 : Decoder UInt8 := UInt8.ofNat <$> word 1

def u2 : Decoder UInt16 := UInt16.ofNat <$> word 2

def u4 : Decoder UInt32 := UInt32.ofNat <$> word 4

def u8 : Decoder UInt64 := UInt64.ofNat <$> word 8

def i1 : Decoder Int8 := UInt8.toInt8 <$> u1

def i2 : Decoder Int16 := UInt16.toInt16 <$> u2

def i4 : Decoder Int32 := UInt32.toInt32 <$> u4

def i8 : Decoder Int64 := UInt64.toInt64 <$> u8

/-- Reads `n` more items after those of `done` in reverse. -/
def countFrom {α : Type} (item : Decoder α) : (n : Nat) → (done : List α) → Decoder (List α)
  | 0, done => return done.reverse
  | n + 1, done => do countFrom item n ((← item) :: done)

def count {α : Type} (n : Nat) (item : Decoder α) : Decoder (List α) := countFrom item n []

def list {α : Type} (item : Decoder α) : Decoder (List α) := do
  count (← u2).toNat item

def shortList {α : Type} (item : Decoder α) : Decoder (List α) := do
  count (← u1).toNat item

end Decoder

end Renaming
