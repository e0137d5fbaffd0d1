import ElmScope.Text.Basic
/-!
# Octets of a text

UTF-8 in both directions. `encode` writes a text as octets. Reading runs a small machine over
the octets: it waits for the continuation octets a first octet announces, and marks a place as
broken as soon as no character can be completed, once per longest beginning of a character
that went wrong. `decode?` accepts only texts without such a place, `decodeLossy` writes the
replacement character there.
-/
namespace ElmScope

/-- A sequence of octets, such as the content of a file. -/
abbrev Octets := List UInt8

namespace Text

/-- The octets of one character. -/
def encodeChar (c : Char) : Octets :=
  let n := c.toNat
  if n < 0x80 then [.ofNat n]
  else if n < 0x800 then [.ofNat (0xC0 + n / 64), .ofNat (0x80 + n % 64)]
  else if n < 0x10000 then
    [.ofNat (0xE0 + n / 4096), .ofNat (0x80 + n / 64 % 64), .ofNat (0x80 + n % 64)]
  else
    [.ofNat (0xF0 + n / 262144), .ofNat (0x80 + n / 4096 % 64), .ofNat (0x80 + n / 64 % 64),
      .ofNat (0x80 + n % 64)]

/-- The octets of a text. -/
def encode (t : Text) : Octets := t.flatMap encodeChar

/-- A character under construction: how many octets it still needs, the bits read so far, and
the least and the greatest octet that may come next. -/
structure Partial where
  needed : Nat
  bits : Nat
  low : Nat
  high : Nat
deriving DecidableEq, Repr

/-- What a first octet beyond ASCII announces. The bounds on the second octet keep out
overlong forms, surrogates and numbers past the last character. -/
def announce? (b : Nat) : Option Partial :=
  if 0xC2 ≤ b ∧ b ≤ 0xDF then some ⟨1, b - 0xC0, 0x80, 0xBF⟩
  else if b = 0xE0 then some ⟨2, 0, 0xA0, 0xBF⟩
  else if b = 0xED then some ⟨2, 0xD, 0x80, 0x9F⟩
  else if 0xE1 ≤ b ∧ b ≤ 0xEF then some ⟨2, b - 0xE0, 0x80, 0xBF⟩
  else if b = 0xF0 then some ⟨3, 0, 0x90, 0xBF⟩
  else if 0xF1 ≤ b ∧ b ≤ 0xF3 then some ⟨3, b - 0xF0, 0x80, 0xBF⟩
  else if b = 0xF4 then some ⟨3, 4, 0x80, 0x8F⟩
  else none

/-- Read the first octet of a character: what it completes, and what it leaves open. -/
def readFirst (b : Nat) : List (Option Char) × Option Partial :=
  if b < 0x80 then ([some (.ofNat b)], none)
  else
    match announce? b with
    | some p => ([], some p)
    | none => ([none], none)

/-- Read one octet. An octet that cannot continue the open character marks it as broken and
is read again as a first octet. -/
def readOctet (q : Option Partial) (b : Nat) : List (Option Char) × Option Partial :=
  match q with
  | none => readFirst b
  | some p =>
    if p.low ≤ b ∧ b ≤ p.high then
      let bits := p.bits * 64 + (b - 0x80)
      if p.needed = 1 then ([some (.ofNat bits)], none)
      else ([], some ⟨p.needed - 1, bits, 0x80, 0xBF⟩)
    else
      let (out, q') := readFirst b
      (none :: out, q')

/-- The characters of a sequence of octets, `none` standing for a broken one. -/
def readOctets : Option Partial → Octets → List (Option Char)
  | none, [] => []
  | some _, [] => [none]
  | q, b :: bs =>
    let (out, q') := readOctet q b.toNat
    out ++ readOctets q' bs

/-- The text some octets encode, if they encode one (`from_utf8`). -/
def decode? (bs : Octets) : Option Text :=
  (readOctets none bs).foldr (fun c t => c.bind fun c => t.map (c :: ·)) (some [])

/-- The text some octets encode, with a replacement character for each broken one
(`from_utf8_lossy`). -/
def decodeLossy (bs : Octets) : Text :=
  (readOctets none bs).map (·.getD '\ufffd')

end Text
end ElmScope
