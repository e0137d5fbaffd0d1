import ElmScope.Text.Utf8
/-!
# Octets and back

Reading the octets of a text gives the text: the first octet of a character announces how many
follow, each of those lies within the bounds that the machine waits for, and the bits come together
to the number of the character. Surrogates are what the bounds keep out and no character is. The
other way round, octets that are read without a break are the octets of a text.

* `readOctets_encodeChar` — one character in front of any octets
* `decodeLossy_encode` — a text through its octets
* `length_encode` — a text has as many octets as it is long in bytes
* `exists_encodeChar_append` — octets that can be read begin with those of a character
* `decode?_eq_some_iff` — the octets of texts can be decoded, and no others
-/
namespace ElmScope
namespace Text

variable {n : Nat} {b : UInt8} {bs : Octets} {p : Partial}

theorem toNat_ofNat_of_lt (h : n < 256) : (UInt8.ofNat n).toNat = n := by
  rw [UInt8.toNat_ofNat', Nat.mod_eq_of_lt h]

/-! ## The machine, one octet at a time -/

theorem readOctets_plain (h : b.toNat < 0x80) :
    readOctets none (b :: bs) = some (.ofNat b.toNat) :: readOctets none bs := by
  simp [readOctets, readOctet, readFirst, h]

theorem readOctets_announced (h : ¬b.toNat < 0x80) (hp : announce? b.toNat = some p) :
    readOctets none (b :: bs) = readOctets (some p) bs := by
  simp [readOctets, readOctet, readFirst, h, hp]

theorem readOctets_continued (h : p.low ≤ b.toNat ∧ b.toNat ≤ p.high) (hp : p.needed ≠ 1) :
    readOctets (some p) (b :: bs) =
      readOctets (some ⟨p.needed - 1, p.bits * 64 + (b.toNat - 0x80), 0x80, 0xBF⟩) bs := by
  simp [readOctets, readOctet, h, hp]

theorem readOctets_completed (h : p.low ≤ b.toNat ∧ b.toNat ≤ p.high) (hp : p.needed = 1) :
    readOctets (some p) (b :: bs) =
      some (.ofNat (p.bits * 64 + (b.toNat - 0x80))) :: readOctets none bs := by
  simp [readOctets, readOctet, h, hp]

/-! ## What a first octet announces -/

theorem announce?_two (hlow : 0x80 ≤ n) (hhigh : n < 0x800) :
    announce? (0xC0 + n / 64) = some ⟨1, n / 64, 0x80, 0xBF⟩ := by
  rw [announce?, if_pos (by omega), Nat.add_sub_cancel_left]

/-- The bounds on the second of three octets hold of every character. -/
theorem announce?_three (hlow : 0x800 ≤ n) (hhigh : n < 0x10000) (hn : n.isValidChar) :
    ∃ low high, announce? (0xE0 + n / 4096) = some ⟨2, n / 4096, low, high⟩ ∧
      low ≤ 0x80 + n / 64 % 64 ∧ 0x80 + n / 64 % 64 ≤ high := by
  unfold Nat.isValidChar at hn
  unfold announce?
  rw [if_neg (by omega)]
  split
  · have hbits : n / 4096 = 0 := by omega
    exact ⟨0xA0, 0xBF, by rw [hbits], by omega, by omega⟩
  split
  · -- Below the surrogates.
    have hbits : n / 4096 = 0xD := by omega
    exact ⟨0x80, 0x9F, by rw [hbits], by omega, by omega⟩
  rw [if_pos (by omega), Nat.add_sub_cancel_left]
  exact ⟨0x80, 0xBF, rfl, by omega, by omega⟩

/-- The bounds on the second of four octets hold of every character. -/
theorem announce?_four (hlow : 0x10000 ≤ n) (hn : n.isValidChar) :
    ∃ low high, announce? (0xF0 + n / 262144) = some ⟨3, n / 262144, low, high⟩ ∧
      low ≤ 0x80 + n / 4096 % 64 ∧ 0x80 + n / 4096 % 64 ≤ high := by
  unfold Nat.isValidChar at hn
  unfold announce?
  rw [if_neg (by omega), if_neg (by omega), if_neg (by omega), if_neg (by omega)]
  split
  · have hbits : n / 262144 = 0 := by omega
    exact ⟨0x90, 0xBF, by rw [hbits], by omega, by omega⟩
  split
  · rw [Nat.add_sub_cancel_left]
    exact ⟨0x80, 0xBF, rfl, by omega, by omega⟩
  rw [if_pos (by omega)]
  have hbits : n / 262144 = 4 := by omega
  exact ⟨0x80, 0x8F, by rw [hbits], by omega, by omega⟩

/-! ## Characters and texts -/

theorem readOctets_two (hlow : 0x80 ≤ n) (hhigh : n < 0x800) :
    readOctets none (.ofNat (0xC0 + n / 64) :: .ofNat (0x80 + n % 64) :: bs) =
      some (.ofNat n) :: readOctets none bs := by
  have hb₀ : (UInt8.ofNat (0xC0 + n / 64)).toNat = 0xC0 + n / 64 := toNat_ofNat_of_lt (by omega)
  have hb₁ : (UInt8.ofNat (0x80 + n % 64)).toNat = 0x80 + n % 64 := toNat_ofNat_of_lt (by omega)
  rw [readOctets_announced (by omega) (hb₀ ▸ announce?_two hlow hhigh),
    readOctets_completed (by simp only; omega) rfl]
  have hbits : n / 64 * 64 + (0x80 + n % 64 - 0x80) = n := by omega
  rw [hb₁, hbits]

theorem readOctets_three (hlow : 0x800 ≤ n) (hhigh : n < 0x10000) (hn : n.isValidChar) :
    readOctets none
        (.ofNat (0xE0 + n / 4096) :: .ofNat (0x80 + n / 64 % 64) :: .ofNat (0x80 + n % 64) :: bs) =
      some (.ofNat n) :: readOctets none bs := by
  have hb₀ : (UInt8.ofNat (0xE0 + n / 4096)).toNat = 0xE0 + n / 4096 :=
    toNat_ofNat_of_lt (by omega)
  have hb₁ : (UInt8.ofNat (0x80 + n / 64 % 64)).toNat = 0x80 + n / 64 % 64 :=
    toNat_ofNat_of_lt (by omega)
  have hb₂ : (UInt8.ofNat (0x80 + n % 64)).toNat = 0x80 + n % 64 := toNat_ofNat_of_lt (by omega)
  obtain ⟨low, high, hp, hmin, hmax⟩ := announce?_three hlow hhigh hn
  rw [readOctets_announced (by omega) (hb₀ ▸ hp),
    readOctets_continued (by simp only; omega) (by simp),
    readOctets_completed (by simp only; omega) rfl]
  have hbits : (n / 4096 * 64 + (0x80 + n / 64 % 64 - 0x80)) * 64 + (0x80 + n % 64 - 0x80) = n := by
    omega
  rw [hb₁, hb₂, hbits]

theorem readOctets_four (hlow : 0x10000 ≤ n) (hn : n.isValidChar) :
    readOctets none
        (.ofNat (0xF0 + n / 262144) :: .ofNat (0x80 + n / 4096 % 64) ::
          .ofNat (0x80 + n / 64 % 64) :: .ofNat (0x80 + n % 64) :: bs) =
      some (.ofNat n) :: readOctets none bs := by
  have hmost : n < 0x110000 := by
    unfold Nat.isValidChar at hn
    omega
  have hb₀ : (UInt8.ofNat (0xF0 + n / 262144)).toNat = 0xF0 + n / 262144 :=
    toNat_ofNat_of_lt (by omega)
  have hb₁ : (UInt8.ofNat (0x80 + n / 4096 % 64)).toNat = 0x80 + n / 4096 % 64 :=
    toNat_ofNat_of_lt (by omega)
  have hb₂ : (UInt8.ofNat (0x80 + n / 64 % 64)).toNat = 0x80 + n / 64 % 64 :=
    toNat_ofNat_of_lt (by omega)
  have hb₃ : (UInt8.ofNat (0x80 + n % 64)).toNat = 0x80 + n % 64 := toNat_ofNat_of_lt (by omega)
  obtain ⟨low, high, hp, hmin, hmax⟩ := announce?_four hlow hn
  rw [readOctets_announced (by omega) (hb₀ ▸ hp),
    readOctets_continued (by simp only; omega) (by simp),
    readOctets_continued (by simp only; omega) (by simp),
    readOctets_completed (by simp only; omega) rfl]
  have hbits : ((n / 262144 * 64 + (0x80 + n / 4096 % 64 - 0x80)) * 64 +
      (0x80 + n / 64 % 64 - 0x80)) * 64 + (0x80 + n % 64 - 0x80) = n := by
    omega
  rw [hb₁, hb₂, hb₃, hbits]

/-- The octets of a character are read as that character. -/
theorem readOctets_encodeChar (c : Char) (bs : Octets) :
    readOctets none (encodeChar c ++ bs) = some c :: readOctets none bs := by
  have hvalid : c.toNat.isValidChar := c.valid
  have hchar : Char.ofNat c.toNat = c := Char.ofNat_toNat c
  rw [encodeChar]
  split
  · have hb : (UInt8.ofNat c.toNat).toNat = c.toNat := toNat_ofNat_of_lt (by omega)
    rw [List.singleton_append, readOctets_plain (by omega), hb, hchar]
  split
  · rw [List.cons_append, List.singleton_append, readOctets_two (by omega) (by omega), hchar]
  split
  · rw [List.cons_append, List.cons_append, List.singleton_append,
      readOctets_three (by omega) (by omega) hvalid, hchar]
  · rw [List.cons_append, List.cons_append, List.cons_append, List.singleton_append,
      readOctets_four (by omega) hvalid, hchar]

theorem readOctets_encode (t : Text) : readOctets none (encode t) = t.map some := by
  induction t with
  | nil => rfl
  | cons c t ih => rw [encode, List.flatMap_cons, readOctets_encodeChar, ← encode, ih, List.map_cons]

/-- A text is read back from its octets. -/
theorem decodeLossy_encode (t : Text) : decodeLossy (encode t) = t := by
  rw [decodeLossy, readOctets_encode, List.map_map]
  exact List.map_id t

/-! ## How many octets -/

theorem length_encodeChar (c : Char) : (encodeChar c).length = c.utf8Size := by
  have hle : ∀ n : UInt32, c.val ≤ n ↔ c.toNat ≤ n.toNat := fun n => UInt32.le_iff_toNat_le
  unfold encodeChar Char.utf8Size
  simp only [hle]
  grind

theorem encode_append (s t : Text) : encode (s ++ t) = encode s ++ encode t := List.flatMap_append

/-- Offsets in a text are places between its octets. -/
theorem length_encode (t : Text) : (encode t).length = byteLength t := by
  induction t with
  | nil => rfl
  | cons c t ih =>
    rw [encode, List.flatMap_cons, List.length_append, length_encodeChar, ← encode, ih]
    rfl

/-! ## No other octets -/

variable {b₁ b₂ b₃ : UInt8}

/-- Octets whose last character is open go on as it asks, unless it breaks. -/
theorem exists_next_octet (h : none ∉ readOctets (some p) bs) :
    ∃ b rest, bs = b :: rest ∧ p.low ≤ b.toNat ∧ b.toNat ≤ p.high := by
  cases bs with
  | nil => simp [readOctets] at h
  | cons b rest =>
    by_cases hb : p.low ≤ b.toNat ∧ b.toNat ≤ p.high
    · exact ⟨b, rest, rfl, hb⟩
    · simp [readOctets, readOctet, hb] at h

/-- What a first octet announces: one octet more, or two or three, the first of which may have
narrower bounds. -/
theorem announce?_cases (h : announce? n = some p) :
    (0xC2 ≤ n ∧ n ≤ 0xDF ∧ p = ⟨1, n - 0xC0, 0x80, 0xBF⟩) ∨
    (0xE0 ≤ n ∧ n ≤ 0xEF ∧ ∃ low high, p = ⟨2, n - 0xE0, low, high⟩ ∧ 0x80 ≤ low ∧ high ≤ 0xBF ∧
      (n = 0xE0 → 0xA0 ≤ low) ∧ (n = 0xED → high ≤ 0x9F)) ∨
    (0xF0 ≤ n ∧ n ≤ 0xF4 ∧ ∃ low high, p = ⟨3, n - 0xF0, low, high⟩ ∧ 0x80 ≤ low ∧ high ≤ 0xBF ∧
      (n = 0xF0 → 0x90 ≤ low) ∧ (n = 0xF4 → high ≤ 0x8F)) := by
  unfold announce? at h
  split at h
  · next hn =>
    cases h
    exact .inl ⟨hn.1, hn.2, rfl⟩
  split at h
  · next hn =>
    cases h
    exact .inr (.inl ⟨by omega, by omega, _, _, by rw [hn], by omega, by omega, by omega, by omega⟩)
  split at h
  · next hn =>
    cases h
    exact .inr (.inl ⟨by omega, by omega, _, _, by rw [hn], by omega, by omega, by omega, by omega⟩)
  split at h
  · cases h
    exact .inr (.inl ⟨by omega, by omega, _, _, rfl, by omega, by omega, by omega, by omega⟩)
  split at h
  · next hn =>
    cases h
    exact .inr (.inr ⟨by omega, by omega, _, _, by rw [hn], by omega, by omega, by omega, by omega⟩)
  split at h
  · cases h
    exact .inr (.inr ⟨by omega, by omega, _, _, rfl, by omega, by omega, by omega, by omega⟩)
  split at h
  · next hn =>
    cases h
    exact .inr (.inr ⟨by omega, by omega, _, _, by rw [hn], by omega, by omega, by omega, by omega⟩)
  · cases h

theorem toNat_ofNat_of_isValidChar (h : n.isValidChar) : (Char.ofNat n).toNat = n := by
  rw [Char.ofNat, dif_pos h]
  rfl

theorem ofNat_eq_of_toNat (b : UInt8) (h : n = b.toNat) : UInt8.ofNat n = b := by
  rw [h, UInt8.ofNat_toNat]

theorem exists_encodeChar_one (hmax : b.toNat < 0x80) : ∃ c, encodeChar c = [b] := by
  have hchar : (Char.ofNat b.toNat).toNat = b.toNat :=
    toNat_ofNat_of_isValidChar (.inl (by omega))
  refine ⟨.ofNat b.toNat, ?_⟩
  rw [encodeChar, hchar, if_pos hmax, UInt8.ofNat_toNat]

theorem exists_encodeChar_two (hmin : 0xC2 ≤ b.toNat) (hmax : b.toNat ≤ 0xDF)
    (h₁ : 0x80 ≤ b₁.toNat ∧ b₁.toNat ≤ 0xBF) : ∃ c, encodeChar c = [b, b₁] := by
  obtain ⟨n, hn⟩ : ∃ n, n = (b.toNat - 0xC0) * 64 + (b₁.toNat - 0x80) := ⟨_, rfl⟩
  have hchar : (Char.ofNat n).toNat = n := toNat_ofNat_of_isValidChar (.inl (by omega))
  refine ⟨.ofNat n, ?_⟩
  rw [encodeChar, hchar, if_neg (by omega), if_pos (by omega), ofNat_eq_of_toNat b (by omega),
    ofNat_eq_of_toNat b₁ (by omega)]

/-- The bounds on the second of three octets keep out what is written with two, and surrogates. -/
theorem exists_encodeChar_three (hmin : 0xE0 ≤ b.toNat) (hmax : b.toNat ≤ 0xEF)
    (h₁ : 0x80 ≤ b₁.toNat ∧ b₁.toNat ≤ 0xBF) (h₂ : 0x80 ≤ b₂.toNat ∧ b₂.toNat ≤ 0xBF)
    (hlong : b.toNat = 0xE0 → 0xA0 ≤ b₁.toNat) (hsurrogate : b.toNat = 0xED → b₁.toNat ≤ 0x9F) :
    ∃ c, encodeChar c = [b, b₁, b₂] := by
  obtain ⟨n, hn⟩ : ∃ n, n = ((b.toNat - 0xE0) * 64 + (b₁.toNat - 0x80)) * 64 + (b₂.toNat - 0x80) :=
    ⟨_, rfl⟩
  have hvalid : n.isValidChar := by
    unfold Nat.isValidChar
    omega
  refine ⟨.ofNat n, ?_⟩
  rw [encodeChar, toNat_ofNat_of_isValidChar hvalid, if_neg (by omega), if_neg (by omega),
    if_pos (by omega), ofNat_eq_of_toNat b (by omega), ofNat_eq_of_toNat b₁ (by omega),
    ofNat_eq_of_toNat b₂ (by omega)]

/-- The bounds on the second of four octets keep out what is written with three, and numbers past
the last character. -/
theorem exists_encodeChar_four (hmin : 0xF0 ≤ b.toNat) (hmax : b.toNat ≤ 0xF4)
    (h₁ : 0x80 ≤ b₁.toNat ∧ b₁.toNat ≤ 0xBF) (h₂ : 0x80 ≤ b₂.toNat ∧ b₂.toNat ≤ 0xBF)
    (h₃ : 0x80 ≤ b₃.toNat ∧ b₃.toNat ≤ 0xBF) (hlong : b.toNat = 0xF0 → 0x90 ≤ b₁.toNat)
    (hlast : b.toNat = 0xF4 → b₁.toNat ≤ 0x8F) : ∃ c, encodeChar c = [b, b₁, b₂, b₃] := by
  obtain ⟨n, hn⟩ : ∃ n, n = (((b.toNat - 0xF0) * 64 + (b₁.toNat - 0x80)) * 64 +
    (b₂.toNat - 0x80)) * 64 + (b₃.toNat - 0x80) := ⟨_, rfl⟩
  have hvalid : n.isValidChar := by
    unfold Nat.isValidChar
    omega
  refine ⟨.ofNat n, ?_⟩
  rw [encodeChar, toNat_ofNat_of_isValidChar hvalid, if_neg (by omega), if_neg (by omega),
    if_neg (by omega), ofNat_eq_of_toNat b (by omega), ofNat_eq_of_toNat b₁ (by omega),
    ofNat_eq_of_toNat b₂ (by omega), ofNat_eq_of_toNat b₃ (by omega)]

/-- Octets without a broken character begin with the octets of one. -/
theorem exists_encodeChar_append (h : none ∉ readOctets none (b :: bs)) :
    ∃ c rest, b :: bs = encodeChar c ++ rest := by
  by_cases hplain : b.toNat < 0x80
  · obtain ⟨c, hc⟩ := exists_encodeChar_one hplain
    exact ⟨c, bs, by rw [hc, List.singleton_append]⟩
  cases hp : announce? b.toNat with
  | none => simp [readOctets, readOctet, readFirst, hplain, hp] at h
  | some p =>
    rw [readOctets_announced hplain hp] at h
    obtain ⟨b₁, bs, rfl, h₁⟩ := exists_next_octet h
    rcases announce?_cases hp with ⟨hmin, hmax, rfl⟩ |
      ⟨hmin, hmax, low, high, rfl, hlow, hhigh, hlong, hsurrogate⟩ |
      ⟨hmin, hmax, low, high, rfl, hlow, hhigh, hlong, hlast⟩
    · obtain ⟨c, hc⟩ := exists_encodeChar_two hmin hmax h₁
      exact ⟨c, bs, by rw [hc]; rfl⟩
    · rw [readOctets_continued h₁ (by simp)] at h
      obtain ⟨b₂, bs, rfl, h₂⟩ := exists_next_octet h
      simp only at h₁ h₂
      have htail : 0x80 ≤ b₁.toNat ∧ b₁.toNat ≤ 0xBF := by omega
      obtain ⟨c, hc⟩ := exists_encodeChar_three hmin hmax htail h₂ (by omega) (by omega)
      exact ⟨c, bs, by rw [hc]; rfl⟩
    · rw [readOctets_continued h₁ (by simp)] at h
      obtain ⟨b₂, bs, rfl, h₂⟩ := exists_next_octet h
      rw [readOctets_continued h₂ (by simp)] at h
      obtain ⟨b₃, bs, rfl, h₃⟩ := exists_next_octet h
      simp only at h₁ h₂ h₃
      have htail : 0x80 ≤ b₁.toNat ∧ b₁.toNat ≤ 0xBF := by omega
      obtain ⟨c, hc⟩ := exists_encodeChar_four hmin hmax htail h₂ h₃ (by omega) (by omega)
      exact ⟨c, bs, by rw [hc]; rfl⟩

/-- Octets without a broken character are the octets of a text. -/
theorem exists_encode_of_readOctets (h : none ∉ readOctets none bs) : ∃ t, bs = encode t := by
  induction hlength : bs.length using Nat.strongRecOn generalizing bs with
  | ind k ih =>
    cases bs with
    | nil => exact ⟨[], rfl⟩
    | cons b bs =>
      obtain ⟨c, rest, heq⟩ := exists_encodeChar_append h
      rw [heq, readOctets_encodeChar, List.mem_cons, not_or] at h
      have hshorter : rest.length < k := by
        have hsize := congrArg List.length heq
        have hpos := c.utf8Size_pos
        rw [List.length_append, length_encodeChar] at hsize
        omega
      obtain ⟨t, rfl⟩ := ih _ hshorter h.2 rfl
      exact ⟨c :: t, heq⟩

theorem decode?_eq_some_iff_readOctets {t : Text} :
    decode? bs = some t ↔ readOctets none bs = t.map some := by
  rw [decode?]
  generalize readOctets none bs = cs
  induction cs generalizing t with
  | nil => cases t <;> simp
  | cons c cs ih =>
    cases c with
    | none => cases t <;> simp
    | some c =>
      cases t with
      | nil => simp
      | cons d t =>
        simp only [List.foldr_cons, Option.bind_some, Option.map_eq_some_iff, ih, List.map_cons,
          List.cons.injEq, Option.some.injEq]
        constructor
        · rintro ⟨t, ht, rfl, rfl⟩
          exact ⟨rfl, ht⟩
        · rintro ⟨rfl, ht⟩
          exact ⟨t, ht, rfl, rfl⟩

/-- **Decoding accepts the octets of texts and no others**, and gives the text they are the octets
of. -/
theorem decode?_eq_some_iff {t : Text} : decode? bs = some t ↔ bs = encode t := by
  rw [decode?_eq_some_iff_readOctets]
  constructor
  · intro h
    have hwhole : none ∉ readOctets none bs := by
      rw [h]
      simp
    obtain ⟨t', rfl⟩ := exists_encode_of_readOctets hwhole
    rw [readOctets_encode] at h
    rw [(List.map_inj_right fun _ _ => Option.some.inj).1 h]
  · rintro rfl
    exact readOctets_encode t

end Text
end ElmScope
