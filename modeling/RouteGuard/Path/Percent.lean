/-! # Percent escapes

A percent sign with two hexadecimal digits after it stands for one byte. Any
other percent sign stands for itself, so decoding never fails; whether the
bytes spell a text is a separate question.
-/

namespace RouteGuard.Path

def hexValue (b : UInt8) : Option UInt8 :=
  if 0x30 ≤ b && b ≤ 0x39 then some (b - 0x30)
  else if 0x41 ≤ b && b ≤ 0x46 then some (b - 0x41 + 10)
  else if 0x61 ≤ b && b ≤ 0x66 then some (b - 0x61 + 10)
  else none

/-- Replaces every complete escape by its byte, from left to right. -/
def percentDecode : List UInt8 → List UInt8
  | [] => []
  | [a] => [a]
  | [a, b] => [a, b]
  | a :: hi :: lo :: rest =>
    if a = 0x25 then
      match hexValue hi, hexValue lo with
      | some h, some l => (h * 16 + l) :: percentDecode rest
      | _, _ => a :: percentDecode (hi :: lo :: rest)
    else a :: percentDecode (hi :: lo :: rest)

end RouteGuard.Path
