import Renaming.Proofs.Binary.Takes
import Renaming.Proofs.ClassFile.Pool

/-!
# The stored size of a constant pool

A pool is stored in as many bytes as it was read from. How many bytes an entry takes is known from
the constant that its index leads to.
-/

namespace Renaming

open Decoder (Takes fixed_u1 fixed_u2 fixed_u4 fixed_u8 fixed_i4 fixed_i8)

theorem PoolEntry.takes_decode : Takes decode fun n e => n = e.encode.length := by
  apply fixed_u1.bind
  intro tag
  split
  case h_1 =>
    refine fixed_u2.bind fun count => (Decoder.takes_take _).bind ?_
    rintro _ bytes ⟨rfl, hLength⟩
    split
    · rename_i value hValue
      apply Takes.pure
      simp [encode, ModifiedUtf8.encode_eq_of_decode hValue, hLength]
      omega
    · exact .throw
  case h_18 => exact .throw
  case h_2 => exact fixed_i4.bind fun _ => .pure (by simp [encode, Bytes.i4])
  case h_3 => exact fixed_u4.bind fun _ => .pure (by simp [encode])
  case h_4 => exact fixed_i8.bind fun _ => .pure (by simp [encode, Bytes.i8])
  case h_5 => exact fixed_u8.bind fun _ => .pure (by simp [encode])
  case h_6 | h_7 | h_13 | h_16 | h_17 => exact fixed_u2.bind fun _ => .pure (by simp [encode])
  case h_12 => exact fixed_u1.bind fun _ => fixed_u2.bind fun _ => .pure (by simp [encode])
  all_goals exact fixed_u2.bind fun _ => fixed_u2.bind fun _ => .pure (by simp [encode])

namespace Pool

theorem takes_decodeEntries (slots fuel : Nat) (entries : Array PoolEntry) :
    Takes (decodeEntries slots fuel entries) fun n entries' =>
      (entries'.toList.map PoolEntry.encode).flatten.length =
        (entries.toList.map PoolEntry.encode).flatten.length + n := by
  induction fuel generalizing entries with
  | zero => exact .pure rfl
  | succ fuel ih =>
    rw [decodeEntries]
    split
    · apply PoolEntry.takes_decode.bind
      rintro _ e rfl
      apply (ih _).imp
      intro n entries' h
      rw [h]
      split <;> simp [PoolEntry.encode] <;> omega
    · exact .pure rfl

theorem takes_decode : Takes decode fun n P => n = P.encode.length := by
  refine fixed_u2.bind fun count => ?_
  dsimp only
  split
  · rw [Stateful.throw_bind]
    exact .throw
  apply (takes_decodeEntries _ _ _).bind
  intro n entries h
  split
  · rw [Stateful.throw_bind]
    exact .throw
  · apply Takes.pure
    simp only [encode, List.length_append, Bytes.length_u2, h]
    simp

end Pool

/-- The number of bytes that the entry of a constant takes. -/
def Constant.entrySize : Constant → Nat
  | .utf8 value => 3 + (ModifiedUtf8.encode value).length
  | .classRef _ | .string _ | .methodType _ | .module _ | .package _ => 3
  | .methodHandle .. => 4
  | .integer _ | .float _ | .member _ | .nameAndType _ | .dynamic .. | .invokeDynamic .. => 5
  | .long _ | .double _ => 9

theorem Pool.Names.length_encode {P : Pool} {i : UInt16} {c : Constant} {e : PoolEntry}
    (h : P.Names i c) (he : P.entry i = .ok e) : e.encode.length = c.entrySize := by
  cases h with
  | utf8 h =>
    cases he.symm.trans h
    simp [PoolEntry.encode, Constant.entrySize]
    omega
  | @member _ _ _ kind _ _ _ h =>
    cases he.symm.trans h
    cases kind <;> simp [PoolEntry.encode, Constant.entrySize]
  | integer h | float h | long h | double h =>
    cases he.symm.trans h
    simp [PoolEntry.encode, Constant.entrySize, Bytes.i4, Bytes.i8]
  | classRef h | string h | methodType h | module h | package h | methodHandle h =>
    cases he.symm.trans h
    simp [PoolEntry.encode, Constant.entrySize]
  | nameAndType h | dynamic h | invokeDynamic h =>
    cases he.symm.trans h
    simp [PoolEntry.encode, Constant.entrySize]

end Renaming
