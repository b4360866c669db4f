/-! # Text as bytes

Paths are decoded and matched byte by byte. A string has one byte form; a byte
list has at most one text, and it has none when it breaks off inside a
character, writes a character in more bytes than it needs, or names a code
point that is no character.
-/

namespace RouteGuard.Text

def encode (cs : List Char) : List UInt8 := cs.flatMap String.utf8EncodeChar

def bytes (s : String) : List UInt8 := encode s.toList

/-- Continuation bytes carry six bits under the marker `10`. -/
def isTail (b : UInt8) : Bool := 0x80 ≤ b && b < 0xC0

def tailBits (b : UInt8) : Nat := b.toNat - 0x80

/-- May `b` follow the lead byte `lead`? Four lead bytes narrow the range: the
bounds keep out overlong forms, surrogates and numbers past the last character. -/
def mayFollow (lead b : UInt8) : Bool :=
  isTail b &&
    (if lead = 0xE0 then 0xA0 ≤ b
     else if lead = 0xED then b < 0xA0
     else if lead = 0xF0 then 0x90 ≤ b
     else if lead = 0xF4 then b < 0x90
     else true)

/-- The characters that a byte list spells, or `none` if it is not well formed. -/
def decode? : List UInt8 → Option (List Char)
  | [] => some []
  | a :: rest =>
    if a < 0x80 then (decode? rest).map (Char.ofNat a.toNat :: ·)
    else if 0xC2 ≤ a && a < 0xE0 then
      match rest with
      | b :: rest =>
        if mayFollow a b then
          (decode? rest).map (Char.ofNat ((a.toNat - 0xC0) * 64 + tailBits b) :: ·)
        else none
      | [] => none
    else if 0xE0 ≤ a && a < 0xF0 then
      match rest with
      | b :: c :: rest =>
        if mayFollow a b && isTail c then
          (decode? rest).map
            (Char.ofNat (((a.toNat - 0xE0) * 64 + tailBits b) * 64 + tailBits c) :: ·)
        else none
      | _ => none
    else if 0xF0 ≤ a && a < 0xF5 then
      match rest with
      | b :: c :: d :: rest =>
        if mayFollow a b && isTail c && isTail d then
          (decode? rest).map
            (Char.ofNat ((((a.toNat - 0xF0) * 64 + tailBits b) * 64 + tailBits c) * 64
              + tailBits d) :: ·)
        else none
      | _ => none
    else none

@[simp] theorem encode_nil : encode [] = [] := rfl

@[simp] theorem encode_cons (c : Char) (cs : List Char) :
    encode (c :: cs) = String.utf8EncodeChar c ++ encode cs := rfl

@[simp] theorem encode_append (xs ys : List Char) : encode (xs ++ ys) = encode xs ++ encode ys :=
  List.flatMap_append

end RouteGuard.Text
