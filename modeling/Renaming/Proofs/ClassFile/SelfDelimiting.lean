import Renaming.Proofs.Binary.Delimited
import Renaming.Proofs.ClassFile.Repaid.Class

/-!
# Class files tell where they end

Every count and every length of a class file stands before what it counts, and nothing is checked before
it was read as a whole. So a file that can be read cannot be read if something of it is cut off, and what
is added to it is left over.
-/

namespace Renaming

open Decoder

namespace PoolEntry

theorem delimited_decode : Delimited decode fun _ _ => True := by
  apply delimited_u1.bind
  intro _ tag _
  split
  case h_1 =>
    apply delimited_u2.bind
    intro _ count _
    apply (delimited_take _).bind
    intro _ bytes _
    split
    · exact .pure trivial
    · exact .throw
  case h_2 => exact delimited_i4.bind fun _ _ _ => .pure trivial
  case h_3 => exact delimited_u4.bind fun _ _ _ => .pure trivial
  case h_4 => exact delimited_i8.bind fun _ _ _ => .pure trivial
  case h_5 => exact delimited_u8.bind fun _ _ _ => .pure trivial
  case h_6 | h_7 | h_13 | h_16 | h_17 => exact delimited_u2.bind fun _ _ _ => .pure trivial
  case h_12 => exact delimited_u1.bind fun _ _ _ => delimited_u2.bind fun _ _ _ => .pure trivial
  case h_18 => exact .throw
  all_goals exact delimited_u2.bind fun _ _ _ => delimited_u2.bind fun _ _ _ => .pure trivial

end PoolEntry

namespace Pool

theorem delimited_decodeEntries (slots fuel : Nat) (entries : Array PoolEntry) :
    Delimited (decodeEntries slots fuel entries) fun _ _ => True := by
  induction fuel generalizing entries with
  | zero => exact .pure trivial
  | succ fuel ih =>
    rw [decodeEntries]
    split
    · apply PoolEntry.delimited_decode.bind
      intro _ entry _
      exact ih _
    · exact .pure trivial

theorem delimited_decode : Delimited decode fun _ _ => True := by
  apply delimited_u2.bind
  intro _ count _
  apply Delimited.guarded (p := count = 0)
  intro _
  apply (delimited_decodeEntries _ _ _).bind
  intro _ entries _
  apply Delimited.guarded (p := entries.size ≠ count.toNat - 1)
  intro _
  exact .pure trivial

end Pool

theorem RawAttribute.delimited_decodeList : Delimited decodeList fun _ _ => True := by
  apply delimited_list (R := fun _ _ => True)
  apply delimited_u2.bind
  intro _ name _
  apply delimited_u4.bind
  intro _ length _
  apply (delimited_take _).bind
  intro _ payload _
  exact .pure trivial

theorem RawMember.delimited_decode : Delimited decode fun _ _ => True := by
  apply delimited_u2.bind
  intro _ access _
  apply delimited_u2.bind
  intro _ name _
  apply delimited_u2.bind
  intro _ descriptor _
  apply RawAttribute.delimited_decodeList.bind
  intro _ attributes _
  exact .pure trivial

theorem RawClass.delimited_decodeBody (minor major : UInt16) (pool : Pool) :
    Delimited (decodeBody minor major pool) fun _ _ => True := by
  apply delimited_u2.bind
  intro _ access _
  apply delimited_u2.bind
  intro _ name _
  apply delimited_u2.bind
  intro _ superName _
  apply (delimited_list delimited_u2).bind
  intro _ interfaces _
  apply (delimited_list RawMember.delimited_decode).bind
  intro _ fields _
  apply (delimited_list RawMember.delimited_decode).bind
  intro _ methods _
  apply RawAttribute.delimited_decodeList.bind
  intro _ attributes _
  exact .pure trivial

theorem RawClass.delimited_decode : Delimited decode fun _ _ => True := by
  apply delimited_u4.bind
  intro _ magic _
  apply Delimited.guarded (p := magic ≠ classMagic)
  intro _
  apply delimited_u2.bind
  intro _ minor _
  apply delimited_u2.bind
  intro _ major _
  apply Delimited.guarded (p := (!supportedVersion major minor) = true)
  intro _
  apply Pool.delimited_decode.bind
  intro _ pool _
  exact delimited_decodeBody minor major pool

namespace ClassModel

/-- A file that was read runs out of input wherever it is cut off, and everything that is put behind it
is left over. -/
theorem parse_delimits {bytes : Bytes} {c : ClassModel} (h : parse bytes = .ok c) :
    (∀ front last, bytes = front ++ last → last ≠ [] → parse front = .error .unexpectedEof) ∧
      ∀ more, more ≠ [] → parse (bytes ++ more) = .error (.trailingBytes more.length) := by
  obtain ⟨raw, hRaw, -⟩ := parse_eq_ok h
  obtain ⟨piece, hPiece, hRead, hCut, -⟩ := RawClass.delimited_decode bytes raw [] hRaw
  rw [List.append_nil] at hPiece
  subst hPiece
  constructor
  · intro front last hSplit hLast
    rw [parse, hCut front last hSplit hLast]
  · intro more hMore
    rw [parse, hRead more]
    cases more with
    | nil => exact absurd rfl hMore
    | cons b more => rfl

theorem parse_delimits_loadingFile :
    parse loadingFile = .ok loadingClass ∧
      loadingFile = loadingFile.take 60 ++ loadingFile.drop 60 ∧ loadingFile.drop 60 ≠ [] ∧
      parse (loadingFile.take 60) = .error .unexpectedEof ∧
      parse (loadingFile ++ [0, 0]) = .error (.trailingBytes 2) := by
  have hSplit : loadingFile = loadingFile.take 60 ++ loadingFile.drop 60 := by decide
  have hRest : loadingFile.drop 60 ≠ [] := by decide
  obtain ⟨hCut, hMore⟩ := parse_delimits parse_loadingFile
  exact ⟨parse_loadingFile, hSplit, hRest, hCut _ _ hSplit hRest, hMore [0, 0] (by decide)⟩

end ClassModel

end Renaming
