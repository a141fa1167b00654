import LedgerNotary.Proofs.Outcome
import LedgerNotary.Text
import Mathlib.Data.List.Basic
import Mathlib.Data.List.Induction
import Mathlib.Data.Nat.Digits.Defs

/-! Numbers that are written in digits, and the texts from which the readers take them.

A digit counts as much as its place among the digits says, a letter in either case. Decimal digits
are read as their number, hexadecimal ones as the bytes of theirs. The hexadecimal reader works on
the bytes of the text, but no character beyond ASCII begins with a byte that is a digit. -/

namespace LedgerNotary

open Outcome

namespace Numeral

def digits : List Char :=
  ['0', '1', '2', '3', '4', '5', '6', '7', '8', '9', 'a', 'b', 'c', 'd', 'e', 'f']

/-- The place of a character among the digits, behind them all if it is none. -/
def place (c : Char) : Nat := digits.idxOf c.toLower

/-- The characters are digits to a base and stand for a number, most significant first. -/
def Denotes (base : Nat) (s : List Char) (n : Nat) : Prop :=
  (∀ c ∈ s, place c < base) ∧ Nat.ofDigits base (s.map place).reverse = n

instance (base : Nat) (s : List Char) (n : Nat) : Decidable (Denotes base s n) :=
  have : Decidable (∀ c ∈ s, place c < base) := List.decidableBAll (place · < base) s
  inferInstanceAs (Decidable (_ ∧ _))

variable {base n : Nat} {s : List Char} {c : Char}

theorem toNat_lt_of_place_lt (h : place c < 16) : c.toNat < 128 := by
  by_cases hc : c.val ≥ 'A'.val ∧ c.val ≤ 'Z'.val
  · exact Nat.lt_of_le_of_lt hc.2 (by decide)
  · have hmem : c.toLower ∈ digits := List.idxOf_lt_length_iff.1 h
    have hdigits : ∀ d ∈ digits, d.toNat < 128 := by simp [digits]
    have hlower : c.toLower = c := dif_neg hc
    rw [hlower] at hmem
    exact hdigits c hmem

theorem of_forall_lt {P : Char → Prop} (h : ∀ n < 128, P (Char.ofNat n)) (hc : c.toNat < 128) :
    P c := by
  have hp := h c.toNat hc
  rwa [Char.ofNat_toNat] at hp

section Decimal

theorem isDigit_iff : c.isDigit = true ↔ place c < 10 := by
  have hlt : c.isDigit = true → c.toNat < 128 := fun h => by
    have hle : c.toNat ≤ 57 := (Char.isDigit_iff_toNat.1 h).2
    omega
  have hascii : c.toNat < 128 → (c.isDigit = true ↔ place c < 10) :=
    of_forall_lt (P := fun c => c.isDigit = true ↔ place c < 10) (by decide)
  constructor
  · intro h
    exact (hascii (hlt h)).1 h
  · intro h
    exact (hascii (toNat_lt_of_place_lt (by omega))).2 h

theorem place_eq_of_lt_ten (h : place c < 10) : c.toNat - 48 = place c := by
  have hascii : c.toNat < 128 → place c < 10 → c.toNat - 48 = place c :=
    of_forall_lt (P := fun c => place c < 10 → c.toNat - 48 = place c) (by decide)
  exact hascii (toNat_lt_of_place_lt (by omega)) h

theorem foldl_eq_ofDigits (h : ∀ c ∈ s, place c < 10) :
    s.foldl (fun n c => 10 * n + (c.toNat - 48)) 0 = Nat.ofDigits 10 (s.map place).reverse := by
  induction s using List.reverseRecOn with
  | nil => rfl
  | append_singleton s c ih =>
    obtain ⟨hs, hc⟩ := List.forall_mem_append.1 h
    rw [List.foldl_append, ih hs, List.map_append, List.reverse_append]
    simp only [List.foldl_cons, List.foldl_nil, List.map_cons, List.map_nil, List.reverse_singleton,
      List.singleton_append, Nat.ofDigits_cons, place_eq_of_lt_ten (hc c List.mem_cons_self)]
    omega

theorem digits?_eq_some : Decimal.digits? s = some n ↔ s ≠ [] ∧ Denotes 10 s n := by
  have hall : s.all Char.isDigit = true ↔ ∀ c ∈ s, place c < 10 := by
    simp only [List.all_eq_true, isDigit_iff]
  unfold Decimal.digits? Denotes
  by_cases hs : s = []
  · simp [hs]
  · rw [if_neg (by simpa using hs)]
    by_cases hd : ∀ c ∈ s, place c < 10
    · rw [if_pos (hall.2 hd), Option.some.injEq, foldl_eq_ofDigits hd]
      exact ⟨fun h => ⟨hs, hd, h⟩, fun h => h.2.2⟩
    · rw [if_neg fun h => hd (hall.1 h)]
      exact iff_of_false nofun fun h => hd h.2.1

theorem denotes_toDigits (n : Nat) : Denotes 10 (Nat.toDigits 10 n) n := by
  have hread : Decimal.digits? (Nat.toDigits 10 n) = some n := by
    have hall : (Nat.toDigits 10 n).all Char.isDigit = true :=
      List.all_eq_true.2 fun c hc => Nat.isDigit_of_mem_toDigits (by decide) (by decide) hc
    rw [Decimal.digits?, if_neg (by simp), if_pos hall]
    exact congrArg some Nat.ofDigitChars_ten_toDigits
  exact (digits?_eq_some.1 hread).2

end Decimal

section Hexadecimal

theorem digitValue?_ascii (h : c.toNat < 128) :
    Hex.digitValue? (UInt8.ofNat c.toNat) = if place c < 16 then some (place c) else none :=
  of_forall_lt (P := fun c => Hex.digitValue? (UInt8.ofNat c.toNat) =
    if place c < 16 then some (place c) else none) (by decide +kernel) h

theorem digitValue?_of_le {b : UInt8} (h : 128 ≤ b.toNat) : Hex.digitValue? b = none := by
  simp only [Hex.digitValue?]
  rw [if_neg (by omega), if_neg (by omega), if_neg (by omega)]

theorem utf8_ascii (h : c.toNat < 128) :
    String.utf8EncodeChar c = [UInt8.ofNat c.toNat] := by
  have hv : c.val.toNat ≤ 0x7F := Nat.le_of_lt_succ h
  simp only [String.utf8EncodeChar]
  rw [if_pos hv]
  rfl

theorem utf8_cons_of_le (h : 128 ≤ c.toNat) :
    ∃ b s, String.utf8EncodeChar c = b :: s ∧ 128 ≤ b.toNat := by
  have hv : ¬ c.val.toNat ≤ 0x7F := Nat.not_le.2 h
  simp only [String.utf8EncodeChar]
  rw [if_neg hv]
  split_ifs
  · exact ⟨_, _, rfl, by simp; omega⟩
  · exact ⟨_, _, rfl, by simp; omega⟩
  · exact ⟨_, _, rfl, by simp; omega⟩

/-- A digit is one byte, which is read as its place. Any other character begins with a byte that is
no digit. -/
theorem utf8_cases (c : Char) :
    (place c < 16 ∧ ∃ b, String.utf8EncodeChar c = [b] ∧ Hex.digitValue? b = some (place c)) ∨
      ¬ place c < 16 ∧ ∃ b s, String.utf8EncodeChar c = b :: s ∧ Hex.digitValue? b = none := by
  by_cases hc : c.toNat < 128
  · have hd := digitValue?_ascii hc
    by_cases hp : place c < 16
    · rw [if_pos hp] at hd
      exact Or.inl ⟨hp, _, utf8_ascii hc, hd⟩
    · rw [if_neg hp] at hd
      exact Or.inr ⟨hp, _, _, utf8_ascii hc, hd⟩
  · obtain ⟨b, s, hs, hb⟩ := utf8_cons_of_le (Nat.not_lt.1 hc)
    exact Or.inr ⟨fun hp => hc (toNat_lt_of_place_lt hp), b, s, hs, digitValue?_of_le hb⟩

theorem map_digitValue?_utf8 {vs : List Nat} :
    (s.flatMap String.utf8EncodeChar).map Hex.digitValue? = vs.map some ↔
      (∀ c ∈ s, place c < 16) ∧ s.map place = vs := by
  induction s generalizing vs with
  | nil => cases vs <;> simp
  | cons c s ih =>
    rw [List.flatMap_cons, List.forall_mem_cons, List.map_cons, List.map_append]
    rcases utf8_cases c with ⟨hp, b, hb, hv⟩ | ⟨hp, b, t, hb, hv⟩
    · rw [hb, List.map_singleton, hv, List.singleton_append]
      cases vs with
      | nil => exact iff_of_false nofun fun h => nomatch h.2
      | cons v vs =>
        rw [List.map_cons, List.cons.injEq, List.cons.injEq, ih, Option.some.injEq]
        exact ⟨fun ⟨h, hs, hvs⟩ => ⟨⟨hp, hs⟩, h, hvs⟩, fun ⟨⟨_, hs⟩, h, hvs⟩ => ⟨h, hs, hvs⟩⟩
    · rw [hb, List.map_cons, hv, List.cons_append]
      refine iff_of_false (fun h => ?_) fun h => hp h.1.1
      cases vs with
      | nil => cases h
      | cons v vs => cases (List.cons.inj h).1

end Hexadecimal

end Numeral

namespace Hex

variable {done out s : Bytes} {position : Nat} {a : UInt8} {v : Nat}

def halves (s : Bytes) : List Nat := s.flatMap fun b => [b.toNat / 16, b.toNat % 16]

theorem halves_cons (b : UInt8) (s : Bytes) :
    halves (b :: s) = b.toNat / 16 :: b.toNat % 16 :: halves s := rfl

theorem length_halves (s : Bytes) : (halves s).length = 2 * s.length := by
  induction s with
  | nil => rfl
  | cons b s ih => simp only [halves_cons, List.length_cons, ih]; omega

theorem halves_lt (s : Bytes) : ∀ v ∈ halves s, v < 16 := by
  intro v hv
  obtain ⟨b, -, hb⟩ := List.mem_flatMap.1 hv
  have hlt := b.toNat_lt
  simp only [List.mem_cons, List.not_mem_nil, or_false] at hb
  omega

theorem ofDigits_halves (s : Bytes) :
    Nat.ofDigits 16 (halves s).reverse = Bytes.toNatBE s := by
  unfold Bytes.toNatBE
  induction s using List.reverseRecOn with
  | nil => rfl
  | append_singleton s b ih =>
    have hs : halves (s ++ [b]) = halves s ++ [b.toNat / 16, b.toNat % 16] := List.flatMap_append
    rw [hs, List.reverse_append, List.reverse_append]
    simp only [List.reverse_cons, List.reverse_nil, List.nil_append, List.cons_append,
      Nat.ofDigits_cons, Bytes.toNatLE, ih]
    omega

theorem digitValue?_lt (h : digitValue? a = some v) : v < 16 := by
  simp only [digitValue?] at h
  split_ifs at h <;> simp only [Option.some.injEq] at h <;> omega

theorem digitAt_eq_ok : digitAt position a = .ok v ↔ digitValue? a = some v := by
  unfold digitAt
  cases digitValue? a <;> simp

/-- What is read in pairs are the halves of the bytes that come out. -/
theorem decodePairs_eq_ok : decodePairs done position s = .ok out ↔
    ∃ tail, out = done.reverse ++ tail ∧ s.map digitValue? = (halves tail).map some := by
  fun_induction decodePairs done position s with
  | case1 done position =>
    constructor
    · rintro ⟨⟩
      exact ⟨[], (List.append_nil _).symm, rfl⟩
    · rintro ⟨tail, rfl, ht⟩
      cases tail with
      | nil => rw [List.append_nil]
      | cons b tail => cases ht
  | case2 done position a =>
    refine iff_of_false nofun fun ⟨tail, _, ht⟩ => ?_
    have hl := congrArg List.length ht
    rw [List.length_map, List.length_map, length_halves] at hl
    simp only [List.length_cons, List.length_nil] at hl
    omega
  | case3 done position a b s ih =>
    simp only [bind_eq_ok, digitAt_eq_ok]
    constructor
    · rintro ⟨high, hh, low, hl, h⟩
      obtain ⟨tail, rfl, ht⟩ := (ih high low).1 h
      have hhigh := digitValue?_lt hh
      have hlow := digitValue?_lt hl
      refine ⟨UInt8.ofNat (16 * high + low) :: tail, by simp, ?_⟩
      have hn : (UInt8.ofNat (16 * high + low)).toNat = 16 * high + low :=
        UInt8.toNat_ofNat_of_lt' (show 16 * high + low < 256 by omega)
      rw [halves_cons, hn, show (16 * high + low) / 16 = high by omega,
        show (16 * high + low) % 16 = low by omega]
      simp only [List.map_cons, hh, hl, ht]
    · rintro ⟨tail, rfl, ht⟩
      cases tail with
      | nil => cases ht
      | cons x tail =>
        simp only [halves_cons, List.map_cons, List.cons.injEq] at ht
        obtain ⟨hh, hl, ht⟩ := ht
        refine ⟨_, hh, _, hl, (ih _ _).2 ⟨tail, ?_, ht⟩⟩
        rw [Nat.div_add_mod, UInt8.ofNat_toNat]
        simp

theorem decodeBytes_eq_ok :
    decodeBytes s = .ok out ↔ s.map digitValue? = (halves out).map some := by
  unfold decodeBytes
  split_ifs with hodd
  · refine iff_of_false nofun fun h => ?_
    have hl := congrArg List.length h
    rw [List.length_map, List.length_map, length_halves] at hl
    omega
  · rw [decodePairs_eq_ok]
    exact ⟨fun ⟨_, ho, ht⟩ => ho ▸ ht, fun h => ⟨out, rfl, h⟩⟩

end Hex

end LedgerNotary
