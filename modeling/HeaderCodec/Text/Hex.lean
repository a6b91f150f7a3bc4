/-! Lower-case digits, filled with zeros up to a least width. -/

namespace HeaderCodec.Text

def hex (width value : Nat) : String :=
  let digits := Nat.toDigits 16 value
  String.ofList (List.replicate (width - digits.length) '0' ++ digits)

end HeaderCodec.Text
