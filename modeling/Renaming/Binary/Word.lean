/-!
# Big-endian words

A class file is a string of bytes in which every number is stored with its most significant byte
first. Both directions go through natural numbers: `Bytes.toNatBE` reads a byte string of any
length as one number, and `Bytes.ofNatBE` writes a number with a fixed count of bytes.
-/

namespace Renaming

abbrev Bytes := List UInt8

namespace Bytes

def toNatBE (bs : Bytes) : Nat :=
  bs.foldl (fun value b => 256 * value + b.toNat) 0

/-- The last `count` base-256 digits of `value`, most significant first. -/
def ofNatBE : (count value : Nat) → Bytes
  | 0, _ => []
  | count + 1, value => ofNatBE count (value / 256) ++ [UInt8.ofNat value]

@[simp] theorem length_ofNatBE (count value : Nat) : (ofNatBE count value).length = count := by
  induction count generalizing value with
  | zero => rfl
  | succ count ih => simp [ofNatBE, ih]

def range : (count : Nat) → Nat
  | 0 => 1
  | count + 1 => 256 * range count

theorem toNatBE_ofNatBE (count value : Nat) :
    toNatBE (ofNatBE count value) = value % range count := by
  induction count generalizing value with
  | zero => simp [ofNatBE, toNatBE, range, Nat.mod_one]
  | succ count ih =>
    have h := ih (value / 256)
    simp only [toNatBE] at h
    simp only [ofNatBE, toNatBE, List.foldl_append, h, List.foldl_cons, List.foldl_nil,
      UInt8.toNat_ofNat']
    rw [range, Nat.mod_mul]
    omega

def u2 (v : UInt16) : Bytes := ofNatBE 2 v.toNat

def u4 (v : UInt32) : Bytes := ofNatBE 4 v.toNat

def u8 (v : UInt64) : Bytes := ofNatBE 8 v.toNat

@[simp] theorem length_u2 (v : UInt16) : (u2 v).length = 2 := length_ofNatBE 2 _

@[simp] theorem length_u4 (v : UInt32) : (u4 v).length = 4 := length_ofNatBE 4 _

@[simp] theorem length_u8 (v : UInt64) : (u8 v).length = 8 := length_ofNatBE 8 _

def i2 (v : Int16) : Bytes := u2 v.toUInt16

def i4 (v : Int32) : Bytes := u4 v.toUInt32

def i8 (v : Int64) : Bytes := u8 v.toUInt64

end Bytes

end Renaming
