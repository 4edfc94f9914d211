/-!
# Hexadecimal text

Numbers inside messages are written with lower-case digits and a least width.
-/

namespace Renaming

/-- Lower-case hexadecimal digits of `n`, padded with zeros to at least `width`. -/
def hex (width n : Nat) : String :=
  let digits := Nat.toDigits 16 n
  String.ofList (List.replicate (width - digits.length) '0' ++ digits)

end Renaming
