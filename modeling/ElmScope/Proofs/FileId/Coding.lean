import ElmScope.FileId.Uri
import ElmScope.Proofs.Text.Octets
/-!
# Spellings of a coded path

An octet can be coded in many ways: its two hexadecimal digits may be of either case, and an ASCII
character but the percent sign may stand for itself. `Spells` says which texts spell some octets.
All of them are read as those octets, and what `encode` writes is one of them, so a coded text leads
back to the text (`decode_encode`), whichever way it is spelled (`decode_of_spells`).

* `octets_of_spells` — what a spelling is read as
* `isPath_encode` — a coded text is a path of a URI
-/
namespace ElmScope
namespace Percent

/-- Whether a text spells some octets: each is a percent sign and two hexadecimal digits of either
case, or an ASCII character other than the percent sign that stands for itself. -/
inductive Spells : Text → Octets → Prop
  | nil : Spells [] []
  | coded {a b : Char} {o : UInt8} {t : Text} {bs : Octets}
      (ha : hexValue? a = some (o.toNat / 16)) (hb : hexValue? b = some (o.toNat % 16))
      (h : Spells t bs) : Spells ('%' :: a :: b :: t) (o :: bs)
  | plain {c : Char} {t : Text} {bs : Octets} (hc : c.toNat < 0x80) (hne : c ≠ '%')
      (h : Spells t bs) : Spells (c :: t) (.ofNat c.toNat :: bs)

variable {c : Char} {o : UInt8} {t e : Text} {bs : Octets}

/-! ## Reading a spelling -/

theorem encodeChar_of_lt (h : c.toNat < 0x80) : Text.encodeChar c = [.ofNat c.toNat] := by
  rw [Text.encodeChar, if_pos h]

theorem octets_cons_of_ne (h : c ≠ '%') : octets (c :: t) = Text.encodeChar c ++ octets t := by
  rw [octets]
  rintro a b u rfl
  exact absurd rfl h

theorem pair?_of_hexValue? {a b : Char} (ha : hexValue? a = some (o.toNat / 16))
    (hb : hexValue? b = some (o.toNat % 16)) : pair? a b = some o := by
  have ho : o.toNat / 16 * 16 + o.toNat % 16 = o.toNat := by omega
  rw [pair?, ha, hb]
  simp only [ho, UInt8.ofNat_toNat]

/-- Every spelling of some octets is read as those octets. -/
theorem octets_of_spells (h : Spells e bs) : octets e = bs := by
  induction h with
  | nil => rfl
  | coded ha hb _ ih => rw [octets, pair?_of_hexValue? ha hb, ih]
  | plain hc hne _ ih => rw [octets_cons_of_ne hne, encodeChar_of_lt hc, ih, List.singleton_append]

theorem decode_of_spells (h : Spells e (Text.encode t)) : decode e = t := by
  rw [decode, octets_of_spells h, Text.decodeLossy_encode]

/-! ## The spelling that is written -/

theorem hexValue?_hexDigit {n : Nat} (h : n < 16) : hexValue? (hexDigit n) = some n := by
  have hall : ∀ n < 16, hexValue? (hexDigit n) = some n := by decide
  exact hall n h

/-- An octet that is written as it is stands for an ASCII character, and not the percent sign. -/
theorem toNat_of_isPlain {b : Nat} (h : isPlain b = true) :
    (Char.ofNat b).toNat = b ∧ b < 0x80 ∧ b ≠ 0x25 := by
  have hall : ∀ b < 0x80, isPlain b = true → (Char.ofNat b).toNat = b ∧ b ≠ 0x25 := by
    decide
  have hlt : b < 0x80 := by
    simp only [isPlain, Bool.or_eq_true, Bool.and_eq_true, decide_eq_true_eq] at h
    omega
  exact ⟨(hall b hlt h).1, hlt, (hall b hlt h).2⟩

theorem spells_encodeOctet (o : UInt8) (h : Spells t bs) : Spells (encodeOctet o ++ t) (o :: bs) := by
  rw [encodeOctet]
  split
  · next hplain =>
    obtain ⟨hchar, hlt, hne⟩ := toNat_of_isPlain hplain
    have hpercent : Char.ofNat o.toNat ≠ '%' := by
      intro heq
      rw [heq] at hchar
      exact hne hchar.symm
    have := Spells.plain (hchar.symm ▸ hlt) hpercent h
    rwa [hchar, UInt8.ofNat_toNat] at this
  · have ho := o.toNat_lt
    exact .coded (hexValue?_hexDigit (by omega)) (hexValue?_hexDigit (by omega)) h

theorem spells_encode (t : Text) : Spells (encode t) (Text.encode t) := by
  rw [encode]
  induction Text.encode t with
  | nil => exact .nil
  | cons o bs ih => exact spells_encodeOctet o ih

/-- A coded text leads back to the text. -/
theorem decode_encode (t : Text) : decode (encode t) = t := decode_of_spells (spells_encode t)

/-! ## Coded texts in URIs -/

theorem isPath_cons_of_ne (h : c ≠ '%') :
    Uri.isPath (c :: t) = ((Uri.isSegmentChar c || c = '/') && Uri.isPath t) := by
  rw [Uri.isPath, Uri.isMadeOf]
  · simp [h, Uri.isPath]
  · rintro a b u rfl
    exact absurd rfl h

theorem isPath_encodeOctet (o : UInt8) (t : Text) :
    Uri.isPath (encodeOctet o ++ t) = Uri.isPath t := by
  rw [encodeOctet]
  split
  · next hplain =>
    have hall : ∀ b < 0x80, isPlain b = true → Char.ofNat b ≠ '%' ∧
        (Uri.isSegmentChar (.ofNat b) || Char.ofNat b = '/') = true := by decide
    obtain ⟨-, hlt, -⟩ := toNat_of_isPlain hplain
    obtain ⟨hne, hallowed⟩ := hall o.toNat hlt hplain
    rw [List.singleton_append, isPath_cons_of_ne hne, hallowed, Bool.true_and]
  · have ho := o.toNat_lt
    have hhex : ∀ n < 16, Uri.isHex (hexDigit n) = true := by decide
    simp only [List.cons_append, List.nil_append, Uri.isPath, Uri.isMadeOf,
      hhex (o.toNat / 16) (by omega), hhex (o.toNat % 16) (by omega), Bool.true_and]

/-- A coded text is a path of a URI. -/
theorem isPath_encode (t : Text) : Uri.isPath (encode t) = true := by
  rw [encode]
  induction Text.encode t with
  | nil => rfl
  | cons o bs ih => rw [List.flatMap_cons, isPath_encodeOctet, ih]

/-- Nothing in a coded text starts a query or a fragment. -/
theorem ne_of_mem_encode (h : c ∈ encode t) : c ≠ '?' ∧ c ≠ '#' := by
  have hall : ∀ n < 256, (encodeOctet (.ofNat n)).all (fun c => c ≠ '?' && c ≠ '#') = true := by
    decide +kernel
  obtain ⟨o, -, hc⟩ := List.mem_flatMap.1 h
  have hoctet := hall o.toNat o.toNat_lt
  rw [UInt8.ofNat_toNat, List.all_eq_true] at hoctet
  simpa using hoctet c hc

end Percent
end ElmScope
