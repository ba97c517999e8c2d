import SwiftSurface.Image.Utf8

/-!
# Reading what is written in UTF-8

The bytes of a text in UTF-8 are read back as the text (`Utf8.decode_encode`). A character is read
byte by byte: its first byte says how many follow and bounds the second one (`begin?_eq`), and each
byte that follows adds six bits (`decodeFrom_more`, `decodeFrom_last`).
-/

namespace SwiftSurface.Utf8

/-- The bytes of a text in UTF-8. -/
def encode (text : List Char) : List UInt8 :=
  text.flatMap String.utf8EncodeChar

theorem encode_eq_toUTF8 (text : List Char) :
    encode text = (String.ofList text).toUTF8.data.toList := by
  simp [encode, String.toUTF8, List.utf8Encode]

/-! ## One byte -/

theorem toNat_byte {n : Nat} (h : n < 256) : (UInt8.ofNat n).toNat = n :=
  UInt8.toNat_ofNat_of_lt' h

theorem begin?_eq (start : Nat) (b : UInt8) :
    begin? start b =
      if 0xC2 ≤ b.toNat ∧ b.toNat ≤ 0xDF then some ⟨start, 1, 1, 0x80, 0xBF, b.toNat - 0xC0⟩
      else if 0xE0 ≤ b.toNat ∧ b.toNat ≤ 0xEF then
        some ⟨start, 1, 2, if b.toNat = 0xE0 then 0xA0 else 0x80,
          if b.toNat = 0xED then 0x9F else 0xBF, b.toNat - 0xE0⟩
      else if 0xF0 ≤ b.toNat ∧ b.toNat ≤ 0xF4 then
        some ⟨start, 1, 3, if b.toNat = 0xF0 then 0x90 else 0x80,
          if b.toNat = 0xF4 then 0x8F else 0xBF, b.toNat - 0xF0⟩
      else none := by
  simp only [begin?, Bool.and_eq_true, decide_eq_true_eq, beq_iff_eq, UInt8.le_iff_toNat_le,
    ← UInt8.toNat_inj, UInt8.reduceToNat]
  grind

section Steps

variable {p : Pending} (index : Nat) (rest : List UInt8)

/-- A byte below `0x80` is a character of its own. -/
theorem decodeFrom_single {n : Nat} (h : n ≤ 0x7F) :
    decodeFrom index none (UInt8.ofNat n :: rest) =
      (Char.ofNat n :: ·) <$> decodeFrom (index + 1) none rest := by
  have hn : (UInt8.ofNat n).toNat = n := toNat_byte (by omega)
  have hascii : UInt8.ofNat n < 0x80 :=
    UInt8.lt_iff_toNat_lt.2 (by rw [hn]; exact Nat.lt_succ_of_le h)
  rw [decodeFrom, if_pos hascii, hn]

/-- A byte that begins a sequence is not read as a character of its own. -/
theorem decodeFrom_begin {b : UInt8} (h : begin? index b = some p) :
    decodeFrom index none (b :: rest) = decodeFrom (index + 1) (some p) rest := by
  have hlow : ¬ b < 0x80 := by
    intro hascii
    have hnat : b.toNat < 0x80 := UInt8.lt_iff_toNat_lt.1 hascii
    rw [begin?_eq, if_neg (by omega), if_neg (by omega), if_neg (by omega)] at h
    simp at h
  rw [decodeFrom, if_neg hlow]
  simp only [h]

/-- A byte that follows, with the last six bits of a number in it. -/
def tail (n : Nat) : UInt8 :=
  UInt8.ofNat (n % 64 + 128)

theorem toNat_tail (n : Nat) : (tail n).toNat = n % 64 + 128 :=
  toNat_byte (by omega)

theorem within_tail {n : Nat} (hlow : p.low.toNat ≤ n % 64 + 128)
    (hhigh : n % 64 + 128 ≤ p.high.toNat) : (p.low ≤ tail n && tail n ≤ p.high) = true := by
  simp [UInt8.le_iff_toNat_le, toNat_tail, hlow, hhigh]

/-- A byte that more have to follow adds its bits to the code point. -/
theorem decodeFrom_more {n : Nat} (hlow : p.low.toNat ≤ n % 64 + 128)
    (hhigh : n % 64 + 128 ≤ p.high.toNat) (hmissing : 1 < p.missing) :
    decodeFrom index (some p) (tail n :: rest) =
      decodeFrom (index + 1)
        (some ⟨p.start, p.read + 1, p.missing - 1, 0x80, 0xBF, p.codePoint * 64 + n % 64⟩)
        rest := by
  rw [decodeFrom]
  simp only [within_tail hlow hhigh, if_true, Nat.not_le.2 hmissing, if_false, toNat_tail,
    Nat.add_sub_cancel]

/-- The last byte of a sequence completes the character. -/
theorem decodeFrom_last {n : Nat} (hlow : p.low.toNat ≤ n % 64 + 128)
    (hhigh : n % 64 + 128 ≤ p.high.toNat) (hmissing : p.missing = 1) :
    decodeFrom index (some p) (tail n :: rest) =
      (Char.ofNat (p.codePoint * 64 + n % 64) :: ·) <$> decodeFrom (index + 1) none rest := by
  rw [decodeFrom]
  simp only [within_tail hlow hhigh, if_true, hmissing, Nat.le_refl, toNat_tail,
    Nat.add_sub_cancel]

end Steps

/-! ## One character -/

section Sequences

variable {n : Nat} (index : Nat) (rest : List UInt8)

/-- A byte that may be any continuation. -/
theorem tail_bounds (n : Nat) :
    (0x80 : UInt8).toNat ≤ n % 64 + 128 ∧ n % 64 + 128 ≤ (0xBF : UInt8).toNat := by
  simp only [UInt8.reduceToNat]
  omega

theorem decodeFrom_two (hlow : 0x80 ≤ n) (hhigh : n ≤ 0x7FF) :
    decodeFrom index none (UInt8.ofNat (n / 64 % 32 + 192) :: tail n :: rest) =
      (Char.ofNat n :: ·) <$> decodeFrom (index + 2) none rest := by
  have hbegin : begin? index (UInt8.ofNat (n / 64 % 32 + 192)) =
      some ⟨index, 1, 1, 0x80, 0xBF, n / 64⟩ := by
    have hfirst : n / 64 % 32 + 192 = n / 64 + 192 := by omega
    rw [begin?_eq, hfirst, toNat_byte (by omega), if_pos (by omega), Nat.add_sub_cancel]
  have hbits : n / 64 * 64 + n % 64 = n := by omega
  obtain ⟨hleast, hmost⟩ := tail_bounds n
  rw [decodeFrom_begin index _ hbegin, decodeFrom_last _ _ hleast hmost rfl, hbits]

/-- The second byte is bounded so that the code point is neither below `0x800` nor a surrogate. -/
theorem decodeFrom_three (hlow : 0x800 ≤ n) (hhigh : n ≤ 0xFFFF)
    (hvalid : n < 0xD800 ∨ 0xDFFF < n) :
    decodeFrom index none (UInt8.ofNat (n / 4096 % 16 + 224) :: tail (n / 64) :: tail n :: rest) =
      (Char.ofNat n :: ·) <$> decodeFrom (index + 3) none rest := by
  have hbegin : begin? index (UInt8.ofNat (n / 4096 % 16 + 224)) =
      some ⟨index, 1, 2, if n / 4096 = 0 then 0xA0 else 0x80,
        if n / 4096 = 0xD then 0x9F else 0xBF, n / 4096⟩ := by
    have hfirst : n / 4096 % 16 + 224 = n / 4096 + 224 := by omega
    rw [begin?_eq, hfirst, toNat_byte (by omega), if_neg (by omega), if_pos (by omega)]
    simp
  have hleast : (if n / 4096 = 0 then 0xA0 else 0x80 : UInt8).toNat ≤ n / 64 % 64 + 128 := by
    split <;> simp only [UInt8.reduceToNat] <;> omega
  have hmost : n / 64 % 64 + 128 ≤ (if n / 4096 = 0xD then 0x9F else 0xBF : UInt8).toNat := by
    split <;> simp only [UInt8.reduceToNat] <;> omega
  have hbits : (n / 4096 * 64 + n / 64 % 64) * 64 + n % 64 = n := by omega
  obtain ⟨hleast', hmost'⟩ := tail_bounds n
  rw [decodeFrom_begin index _ hbegin, decodeFrom_more _ _ hleast hmost Nat.one_lt_two,
    decodeFrom_last _ _ hleast' hmost' rfl, hbits]

/-- The second byte is bounded so that the code point is neither below `0x10000` nor beyond the
last. -/
theorem decodeFrom_four (hlow : 0x10000 ≤ n) (hhigh : n < 0x110000) :
    decodeFrom index none (UInt8.ofNat (n / 262144 % 8 + 240) :: tail (n / 4096) ::
        tail (n / 64) :: tail n :: rest) =
      (Char.ofNat n :: ·) <$> decodeFrom (index + 4) none rest := by
  have hbegin : begin? index (UInt8.ofNat (n / 262144 % 8 + 240)) =
      some ⟨index, 1, 3, if n / 262144 = 0 then 0x90 else 0x80,
        if n / 262144 = 4 then 0x8F else 0xBF, n / 262144⟩ := by
    have hfirst : n / 262144 % 8 + 240 = n / 262144 + 240 := by omega
    rw [begin?_eq, hfirst, toNat_byte (by omega), if_neg (by omega), if_neg (by omega),
      if_pos (by omega)]
    simp
  have hleast : (if n / 262144 = 0 then 0x90 else 0x80 : UInt8).toNat ≤ n / 4096 % 64 + 128 := by
    split <;> simp only [UInt8.reduceToNat] <;> omega
  have hmost : n / 4096 % 64 + 128 ≤ (if n / 262144 = 4 then 0x8F else 0xBF : UInt8).toNat := by
    split <;> simp only [UInt8.reduceToNat] <;> omega
  have hbits : ((n / 262144 * 64 + n / 4096 % 64) * 64 + n / 64 % 64) * 64 + n % 64 = n := by
    omega
  obtain ⟨hleast', hmost'⟩ := tail_bounds (n / 64)
  obtain ⟨hleast'', hmost''⟩ := tail_bounds n
  rw [decodeFrom_begin index _ hbegin, decodeFrom_more _ _ hleast hmost (by simp),
    decodeFrom_more _ _ hleast' hmost' Nat.one_lt_two, decodeFrom_last _ _ hleast'' hmost'' rfl,
    hbits]

end Sequences

/-- The bytes of a character are read as it, whatever follows. -/
theorem decodeFrom_char (index : Nat) (c : Char) (rest : List UInt8) :
    decodeFrom index none (String.utf8EncodeChar c ++ rest) =
      (c :: ·) <$> decodeFrom (index + (String.utf8EncodeChar c).length) none rest := by
  have hc : Char.ofNat c.val.toNat = c := Char.ofNat_toNat c
  have hvalid : c.val.toNat < 0xD800 ∨ 0xDFFF < c.val.toNat ∧ c.val.toNat < 0x110000 := c.valid
  simp only [String.utf8EncodeChar]
  generalize c.val.toNat = n at hc hvalid
  subst hc
  -- the cases are the lengths of the encoding
  by_cases hone : n ≤ 0x7F
  · rw [if_pos hone]
    exact decodeFrom_single index rest hone
  rw [if_neg hone]
  by_cases htwo : n ≤ 0x7FF
  · rw [if_pos htwo]
    exact decodeFrom_two index rest (by omega) htwo
  rw [if_neg htwo]
  by_cases hthree : n ≤ 0xFFFF
  · rw [if_pos hthree]
    exact decodeFrom_three index rest (by omega) hthree (by omega)
  · rw [if_neg hthree]
    exact decodeFrom_four index rest (by omega) (by omega)

/-! ## Texts -/

theorem decodeFrom_encode (index : Nat) (text : List Char) :
    decodeFrom index none (encode text) = .ok text := by
  induction text generalizing index with
  | nil => rfl
  | cons c text ih =>
      rw [encode, List.flatMap_cons, decodeFrom_char, ← encode, ih]
      rfl

/-- What is written in UTF-8 is read back. -/
theorem decode_encode (text : List Char) : decode (encode text) = .ok text :=
  decodeFrom_encode 0 text

end SwiftSurface.Utf8
