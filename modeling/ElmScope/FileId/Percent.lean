import ElmScope.Text.Utf8
/-!
# Percent coding of paths

`encode` keeps the characters that need no coding in the path of a file identity and writes
every other octet as a percent sign and two upper-case hexadecimal digits. `decode` reads any
such triple back; a percent sign that starts none stands for itself. The first of the two
characters may be a plus sign, which counts as a sign and not as a digit. Octets that are no
UTF-8 text become replacement characters.
-/
namespace ElmScope
namespace Percent

/-- The octets that are written as they are: ASCII letters and digits and `- . _ ~ / :`. -/
def isPlain (b : Nat) : Bool :=
  (0x41 ≤ b && b ≤ 0x5A) || (0x61 ≤ b && b ≤ 0x7A) || (0x30 ≤ b && b ≤ 0x39)
    || b = 0x2D || b = 0x2E || b = 0x5F || b = 0x7E || b = 0x2F || b = 0x3A

/-- An upper-case hexadecimal digit. -/
def hexDigit (n : Nat) : Char := .ofNat (if n < 10 then 0x30 + n else 0x37 + n)

/-- The value of a hexadecimal digit of either case. -/
def hexValue? (c : Char) : Option Nat :=
  let n := c.toNat
  if 0x30 ≤ n ∧ n ≤ 0x39 then some (n - 0x30)
  else if 0x41 ≤ n ∧ n ≤ 0x46 then some (n - 0x37)
  else if 0x61 ≤ n ∧ n ≤ 0x66 then some (n - 0x57)
  else none

/-- One octet in coded form. -/
def encodeOctet (b : UInt8) : Text :=
  if isPlain b.toNat then [.ofNat b.toNat]
  else ['%', hexDigit (b.toNat / 16), hexDigit (b.toNat % 16)]

/-- A text in coded form (`percent_encode`). -/
def encode (t : Text) : Text := (Text.encode t).flatMap encodeOctet

/-- The octet two characters after a percent sign stand for (`from_str_radix`). -/
def pair? (a b : Char) : Option UInt8 :=
  match hexValue? a, hexValue? b with
  | some m, some n => some (.ofNat (m * 16 + n))
  | none, some n => if a = '+' then some (.ofNat n) else none
  | _, none => none

/-- The octets a coded text stands for. -/
def octets : Text → Octets
  | '%' :: a :: b :: t =>
    match pair? a b with
    | some o => o :: octets t
    | none => 0x25 :: octets (a :: b :: t)
  | c :: t => Text.encodeChar c ++ octets t
  | [] => []

/-- The text a coded text stands for (`percent_decode`). -/
def decode (t : Text) : Text := Text.decodeLossy (octets t)

end Percent
end ElmScope
