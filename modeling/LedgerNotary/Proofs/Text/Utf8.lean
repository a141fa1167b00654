import LedgerNotary.Text

/-! Every text is read back from its bytes, and from no other bytes.

A character is written in one to four bytes, and the reader takes the same number of them: the lead
byte tells how many, and its range rules out the other branches. What the reader admits as two,
three or four bytes is a code point of that width, so it is written as these bytes again. -/

namespace LedgerNotary.Utf8

variable {done : List Char} {position : Nat} {a b c d : UInt8} {s : Bytes}

theorem isTail_iff : isTail b = true ↔ 0x80 ≤ b.toNat ∧ b.toNat ≤ 0xBF := by
  simp [isTail, UInt8.le_iff_toNat_le]

theorem second3_iff : second3 a b = true ↔ (0x80 ≤ b.toNat ∧ b.toNat ≤ 0xBF) ∧
    (a.toNat = 0xE0 → 0xA0 ≤ b.toNat) ∧ (a.toNat = 0xED → b.toNat ≤ 0x9F) := by
  have h0 : a = 0xE0 ↔ a.toNat = 0xE0 := by simp [← UInt8.toNat_inj]
  have hd : a = 0xED ↔ a.toNat = 0xED := by simp [← UInt8.toNat_inj]
  simp only [second3, h0, hd]
  by_cases ha : a.toNat = 0xE0
  · simp [ha, UInt8.le_iff_toNat_le]
    omega
  · by_cases ha' : a.toNat = 0xED
    · simp [ha', UInt8.le_iff_toNat_le]
      omega
    · simp [ha, ha', isTail_iff]

theorem second4_iff : second4 a b = true ↔ (0x80 ≤ b.toNat ∧ b.toNat ≤ 0xBF) ∧
    (a.toNat = 0xF0 → 0x90 ≤ b.toNat) ∧ (a.toNat = 0xF4 → b.toNat ≤ 0x8F) := by
  have h0 : a = 0xF0 ↔ a.toNat = 0xF0 := by simp [← UInt8.toNat_inj]
  have h4 : a = 0xF4 ↔ a.toNat = 0xF4 := by simp [← UInt8.toNat_inj]
  simp only [second4, h0, h4]
  by_cases ha : a.toNat = 0xF0
  · simp [ha, UInt8.le_iff_toNat_le]
    omega
  · by_cases ha' : a.toNat = 0xF4
    · simp [ha', UInt8.le_iff_toNat_le]
      omega
    · simp [ha, ha', isTail_iff]

theorem decodeChars_one (ha : a.toNat < 0x80) :
    decodeChars done position (a :: s) =
      decodeChars (Char.ofNat a.toNat :: done) (position + 1) s := by
  have h1 : a < 0x80 := UInt8.lt_iff_toNat_lt.2 ha
  rw [decodeChars.eq_def]
  simp [h1]

theorem decodeChars_two (ha : 0xC2 ≤ a.toNat ∧ a.toNat ≤ 0xDF) (hb : isTail b = true) :
    decodeChars done position (a :: b :: s) =
      decodeChars (char2 a b :: done) (position + 2) s := by
  have h1 : ¬ a < 0x80 := by rw [UInt8.lt_iff_toNat_lt]; simp; omega
  have h2 : (0xC2 ≤ a && a ≤ 0xDF) = true := by simp [UInt8.le_iff_toNat_le, ha]
  rw [decodeChars.eq_def]
  simp only [h1, h2, hb, if_true, if_false, Bool.not_true, Bool.false_eq_true]

theorem decodeChars_three (ha : 0xE0 ≤ a.toNat ∧ a.toNat ≤ 0xEF) (hb : second3 a b = true)
    (hc : isTail c = true) :
    decodeChars done position (a :: b :: c :: s) =
      decodeChars (char3 a b c :: done) (position + 3) s := by
  have h1 : ¬ a < 0x80 := by rw [UInt8.lt_iff_toNat_lt]; simp; omega
  have h2 : ¬ (0xC2 ≤ a && a ≤ 0xDF) = true := by simp [UInt8.le_iff_toNat_le]; omega
  have h3 : (0xE0 ≤ a && a ≤ 0xEF) = true := by simp [UInt8.le_iff_toNat_le, ha]
  rw [decodeChars.eq_def]
  simp only [h1, h2, h3, hb, hc, if_true, if_false, Bool.not_true, Bool.false_eq_true]

theorem decodeChars_four (ha : 0xF0 ≤ a.toNat ∧ a.toNat ≤ 0xF4) (hb : second4 a b = true)
    (hc : isTail c = true) (hd : isTail d = true) :
    decodeChars done position (a :: b :: c :: d :: s) =
      decodeChars (char4 a b c d :: done) (position + 4) s := by
  have h1 : ¬ a < 0x80 := by rw [UInt8.lt_iff_toNat_lt]; simp; omega
  have h2 : ¬ (0xC2 ≤ a && a ≤ 0xDF) = true := by simp [UInt8.le_iff_toNat_le]; omega
  have h3 : ¬ (0xE0 ≤ a && a ≤ 0xEF) = true := by simp [UInt8.le_iff_toNat_le]; omega
  have h4 : (0xF0 ≤ a && a ≤ 0xF4) = true := by simp [UInt8.le_iff_toNat_le, ha]
  rw [decodeChars.eq_def]
  simp only [h1, h2, h3, h4, hb, hc, hd, if_true, if_false, Bool.not_true, Bool.false_eq_true]

theorem codePoint_cases (x : Char) :
    x.toNat < 0xD800 ∨ 0xDFFF < x.toNat ∧ x.toNat < 0x110000 := x.valid

/-- The bytes of one character are read as that character. -/
theorem decodeChars_encodeChar (x : Char) (done : List Char) (position : Nat) (s : Bytes) :
    ∃ position', decodeChars done position (String.utf8EncodeChar x ++ s) =
      decodeChars (x :: done) position' s := by
  have hx := codePoint_cases x
  have hn : x.val.toNat = x.toNat := rfl
  have hchar := x.ofNat_toNat
  generalize hv : x.toNat = n at hx hchar hn
  simp only [String.utf8EncodeChar, hn]
  have byte : ∀ k, k < 256 → (UInt8.ofNat k).toNat = k := fun k hk => UInt8.toNat_ofNat_of_lt' hk
  by_cases h1 : n ≤ 127
  · refine ⟨position + 1, ?_⟩
    have ha := byte n (by omega)
    rw [if_pos h1, List.cons_append, List.nil_append, decodeChars_one (by omega), ha, hchar]
  by_cases h2 : n ≤ 2047
  · refine ⟨position + 2, ?_⟩
    have ha := byte (n / 64 % 32 + 192) (by omega)
    have hb := byte (n % 64 + 128) (by omega)
    have hn : (n / 64 % 32 + 192 - 0xC0) * 64 + (n % 64 + 128 - 0x80) = n := by omega
    simp only [if_neg h1, if_pos h2, List.cons_append, List.nil_append]
    rw [decodeChars_two (by omega) (isTail_iff.2 (by omega)), char2, ha, hb, hn, hchar]
  by_cases h3 : n ≤ 65535
  · refine ⟨position + 3, ?_⟩
    have ha := byte (n / 4096 % 16 + 224) (by omega)
    have hb := byte (n / 64 % 64 + 128) (by omega)
    have hc := byte (n % 64 + 128) (by omega)
    have hn : (n / 4096 % 16 + 224 - 0xE0) * 4096 + (n / 64 % 64 + 128 - 0x80) * 64 +
        (n % 64 + 128 - 0x80) = n := by omega
    have hs : second3 (UInt8.ofNat (n / 4096 % 16 + 224)) (UInt8.ofNat (n / 64 % 64 + 128)) :=
      second3_iff.2 (by omega)
    simp only [if_neg h1, if_neg h2, if_pos h3, List.cons_append, List.nil_append]
    rw [decodeChars_three (by omega) hs (isTail_iff.2 (by omega)), char3, ha, hb, hc, hn, hchar]
  · refine ⟨position + 4, ?_⟩
    have ha := byte (n / 262144 % 8 + 240) (by omega)
    have hb := byte (n / 4096 % 64 + 128) (by omega)
    have hc := byte (n / 64 % 64 + 128) (by omega)
    have hd := byte (n % 64 + 128) (by omega)
    have hn : (n / 262144 % 8 + 240 - 0xF0) * 262144 + (n / 4096 % 64 + 128 - 0x80) * 4096 +
        (n / 64 % 64 + 128 - 0x80) * 64 + (n % 64 + 128 - 0x80) = n := by omega
    have hs : second4 (UInt8.ofNat (n / 262144 % 8 + 240)) (UInt8.ofNat (n / 4096 % 64 + 128)) :=
      second4_iff.2 (by omega)
    simp only [if_neg h1, if_neg h2, if_neg h3, List.cons_append, List.nil_append]
    rw [decodeChars_four (by omega) hs (isTail_iff.2 (by omega)) (isTail_iff.2 (by omega)), char4,
      ha, hb, hc, hd, hn, hchar]

theorem decodeChars_encodeChars (text done : List Char) (position : Nat) :
    decodeChars done position (text.flatMap String.utf8EncodeChar) =
      .ok (done.reverse ++ text) := by
  induction text generalizing done position with
  | nil =>
    rw [List.flatMap_nil, decodeChars.eq_def]
    simp
  | cons x text ih =>
    obtain ⟨position', h⟩ := decodeChars_encodeChar x done position
      (text.flatMap String.utf8EncodeChar)
    rw [List.flatMap_cons, h, ih]
    simp

theorem decode_ofString (text : String) : decode (Bytes.ofString text) = .ok text := by
  have h := decodeChars_encodeChars text.toList [] 0
  rw [List.reverse_nil, List.nil_append] at h
  rw [decode, Bytes.ofString, h, Except.map, String.ofList_toList]

theorem toNat_ofNat_of_valid {n : Nat} (h : n < 0xD800 ∨ 0xDFFF < n ∧ n < 0x110000) :
    (Char.ofNat n).toNat = n := by
  rw [Char.ofNat, dif_pos h]
  rfl

theorem encodeChar_one (ha : a < 0x80) : String.utf8EncodeChar (Char.ofNat a.toNat) = [a] := by
  have ha' : a.toNat < 0x80 := UInt8.lt_iff_toNat_lt.1 ha
  have hn := toNat_ofNat_of_valid (n := a.toNat) (by omega)
  have hv : (Char.ofNat a.toNat).val.toNat = a.toNat := hn
  simp only [String.utf8EncodeChar, hv]
  rw [if_pos (by omega), UInt8.ofNat_toNat]

theorem encodeChar_two (ha : 0xC2 ≤ a.toNat ∧ a.toNat ≤ 0xDF) (hb : isTail b = true) :
    String.utf8EncodeChar (char2 a b) = [a, b] := by
  have hb' := isTail_iff.1 hb
  generalize hn : (a.toNat - 0xC0) * 64 + (b.toNat - 0x80) = n
  have hv : (char2 a b).val.toNat = n := by
    rw [char2, hn]
    exact toNat_ofNat_of_valid (by omega)
  have h1 : UInt8.ofNat (n / 64 % 32 + 192) = a := by
    rw [show n / 64 % 32 + 192 = a.toNat by omega, UInt8.ofNat_toNat]
  have h2 : UInt8.ofNat (n % 64 + 128) = b := by
    rw [show n % 64 + 128 = b.toNat by omega, UInt8.ofNat_toNat]
  simp only [String.utf8EncodeChar, hv, h1, h2]
  rw [if_neg (by omega), if_pos (by omega)]

theorem encodeChar_three (ha : 0xE0 ≤ a.toNat ∧ a.toNat ≤ 0xEF) (hb : second3 a b = true)
    (hc : isTail c = true) : String.utf8EncodeChar (char3 a b c) = [a, b, c] := by
  have hb' := second3_iff.1 hb
  have hc' := isTail_iff.1 hc
  generalize hn : (a.toNat - 0xE0) * 4096 + (b.toNat - 0x80) * 64 + (c.toNat - 0x80) = n
  have hv : (char3 a b c).val.toNat = n := by
    rw [char3, hn]
    exact toNat_ofNat_of_valid (by omega)
  have h1 : UInt8.ofNat (n / 4096 % 16 + 224) = a := by
    rw [show n / 4096 % 16 + 224 = a.toNat by omega, UInt8.ofNat_toNat]
  have h2 : UInt8.ofNat (n / 64 % 64 + 128) = b := by
    rw [show n / 64 % 64 + 128 = b.toNat by omega, UInt8.ofNat_toNat]
  have h3 : UInt8.ofNat (n % 64 + 128) = c := by
    rw [show n % 64 + 128 = c.toNat by omega, UInt8.ofNat_toNat]
  simp only [String.utf8EncodeChar, hv, h1, h2, h3]
  rw [if_neg (by omega), if_neg (by omega), if_pos (by omega)]

theorem encodeChar_four (ha : 0xF0 ≤ a.toNat ∧ a.toNat ≤ 0xF4) (hb : second4 a b = true)
    (hc : isTail c = true) (hd : isTail d = true) :
    String.utf8EncodeChar (char4 a b c d) = [a, b, c, d] := by
  have hb' := second4_iff.1 hb
  have hc' := isTail_iff.1 hc
  have hd' := isTail_iff.1 hd
  generalize hn : (a.toNat - 0xF0) * 262144 + (b.toNat - 0x80) * 4096 + (c.toNat - 0x80) * 64 +
    (d.toNat - 0x80) = n
  have hv : (char4 a b c d).val.toNat = n := by
    rw [char4, hn]
    exact toNat_ofNat_of_valid (by omega)
  have h1 : UInt8.ofNat (n / 262144 % 8 + 240) = a := by
    rw [show n / 262144 % 8 + 240 = a.toNat by omega, UInt8.ofNat_toNat]
  have h2 : UInt8.ofNat (n / 4096 % 64 + 128) = b := by
    rw [show n / 4096 % 64 + 128 = b.toNat by omega, UInt8.ofNat_toNat]
  have h3 : UInt8.ofNat (n / 64 % 64 + 128) = c := by
    rw [show n / 64 % 64 + 128 = c.toNat by omega, UInt8.ofNat_toNat]
  have h4 : UInt8.ofNat (n % 64 + 128) = d := by
    rw [show n % 64 + 128 = d.toNat by omega, UInt8.ofNat_toNat]
  simp only [String.utf8EncodeChar, hv, h1, h2, h3, h4]
  rw [if_neg (by omega), if_neg (by omega), if_neg (by omega)]

theorem exists_of_decodeChars {cs : List Char} (h : decodeChars done position s = .ok cs) :
    ∃ text, cs = done.reverse ++ text ∧ s = text.flatMap String.utf8EncodeChar := by
  have next : ∀ {x : Char} {front rest : Bytes} {done : List Char},
      String.utf8EncodeChar x = front →
      (∃ text, cs = (x :: done).reverse ++ text ∧ rest = text.flatMap String.utf8EncodeChar) →
      ∃ text, cs = done.reverse ++ text ∧
        front ++ rest = text.flatMap String.utf8EncodeChar := by
    rintro x front rest done hx ⟨text, ht, hs⟩
    exact ⟨x :: text, by simp [ht], by rw [List.flatMap_cons, hx, hs]⟩
  fun_induction decodeChars done position s with
  | case1 done position => exact ⟨[], by simpa [eq_comm] using h, rfl⟩
  | case2 done position a s ha ih => exact next (encodeChar_one ha) (ih h)
  | case5 done position a ha h2 b s hb ih =>
    have ha2 : 0xC2 ≤ a.toNat ∧ a.toNat ≤ 0xDF := by simpa [UInt8.le_iff_toNat_le] using h2
    exact next (encodeChar_two ha2 (by simpa using hb)) (ih h)
  | case10 done position a ha h2 h3 b hb c s hc ih =>
    have ha3 : 0xE0 ≤ a.toNat ∧ a.toNat ≤ 0xEF := by simpa [UInt8.le_iff_toNat_le] using h3
    exact next (encodeChar_three ha3 (by simpa using hb) (by simpa using hc)) (ih h)
  | case17 done position a ha h2 h3 h4 b hb c hc d s hd ih =>
    have ha4 : 0xF0 ≤ a.toNat ∧ a.toNat ≤ 0xF4 := by simpa [UInt8.le_iff_toNat_le] using h4
    exact next (encodeChar_four ha4 (by simpa using hb) (by simpa using hc) (by simpa using hd))
      (ih h)
  -- the other branches refuse
  | _ => cases h

theorem eq_ofString_of_decode {text : String} (h : decode s = .ok text) :
    s = Bytes.ofString text := by
  unfold decode at h
  cases hc : decodeChars [] 0 s with
  | error fault => rw [hc] at h; cases h
  | ok cs =>
    rw [hc] at h
    cases h
    obtain ⟨text, rfl, hs⟩ := exists_of_decodeChars hc
    simpa [Bytes.ofString] using hs

end LedgerNotary.Utf8
