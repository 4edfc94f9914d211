import Renaming.Binary.Word

/-!
# Modified UTF-8

The text encoding of the constant pool. It differs from UTF-8 in two places: the character U+0000
takes the two bytes `C0 80`, so that no encoded text holds a zero byte, and a character above
U+FFFF is written as its two surrogates, three bytes each. Decoding accepts nothing else and says
where the first faulty sequence starts.
-/

namespace Renaming.ModifiedUtf8

structure Fault where
  /-- How many bytes rule the sequence out, or `none` if the text ends inside it. -/
  errorLen : Option Nat
  validUpTo : Nat
deriving DecidableEq, Repr

def isTail (b : UInt8) : Bool := 0x80 ≤ b && b < 0xC0

def tailBits (b : UInt8) : Nat := b.toNat - 0x80

def encodeChar (c : Char) : Bytes :=
  let n := c.toNat
  if n = 0 then [0xC0, 0x80]
  else if n < 0x80 then [UInt8.ofNat n]
  else if n < 0x800 then [UInt8.ofNat (0xC0 + n / 64), UInt8.ofNat (0x80 + n % 64)]
  else if n < 0x10000 then
    [UInt8.ofNat (0xE0 + n / 4096), UInt8.ofNat (0x80 + n / 64 % 64), UInt8.ofNat (0x80 + n % 64)]
  else
    let high := (n - 0x10000) / 1024
    let low := (n - 0x10000) % 1024
    [0xED, UInt8.ofNat (0xA0 + high / 64), UInt8.ofNat (0x80 + high % 64),
     0xED, UInt8.ofNat (0xB0 + low / 64), UInt8.ofNat (0x80 + low % 64)]

def encode (s : String) : Bytes := s.toList.flatMap encodeChar

/-- Decodes from offset `pos` on, after the characters of `done` in reverse. Within a sequence the
bytes are checked from left to right. -/
def decodeFrom (pos : Nat) (done : List Char) : Bytes → Except Fault (List Char)
  | [] => .ok done.reverse
  | b0 :: rest =>
    let faulty (n : Option Nat) : Except Fault (List Char) := .error ⟨n, pos⟩
    if b0 < 0x80 then
      if b0 = 0 then faulty (some 1)
      else decodeFrom (pos + 1) (Char.ofNat b0.toNat :: done) rest
    else if 0xC0 ≤ b0 && b0 < 0xE0 then
      match rest with
      | [] => faulty none
      | b1 :: rest =>
        let n := (b0.toNat - 0xC0) * 64 + tailBits b1
        if !isTail b1 then faulty (some 2)
        else if n < 0x80 && n ≠ 0 then faulty (some 2)
        else decodeFrom (pos + 2) (Char.ofNat n :: done) rest
    else if 0xE0 ≤ b0 && b0 < 0xF0 then
      match rest with
      | b1 :: b2 :: rest =>
        if b0 = 0xED && 0xA0 ≤ b1 && b1 < 0xB0 then
          match rest with
          | b3 :: b4 :: b5 :: rest =>
            if !isTail b2 then faulty (some 3)
            else if b3 ≠ 0xED then faulty (some 4)
            else if !(0xB0 ≤ b4 && b4 < 0xC0) then faulty (some 5)
            else if !isTail b5 then faulty (some 6)
            else
              let high := (b1.toNat - 0xA0) * 64 + tailBits b2
              let low := (b4.toNat - 0xB0) * 64 + tailBits b5
              decodeFrom (pos + 6) (Char.ofNat (0x10000 + high * 1024 + low) :: done) rest
          | _ => faulty none
        else
          let n := (b0.toNat - 0xE0) * 4096 + tailBits b1 * 64 + tailBits b2
          if !isTail b1 then faulty (some 2)
          else if !isTail b2 then faulty (some 3)
          else if n < 0x800 || (0xD800 ≤ n && n < 0xE000) then faulty (some 3)
          else decodeFrom (pos + 3) (Char.ofNat n :: done) rest
      | _ => faulty none
    else faulty (some 1)

def decode (bs : Bytes) : Except Fault String :=
  (decodeFrom 0 [] bs).map String.ofList

end Renaming.ModifiedUtf8
