import LedgerNotary.Json.Text
import Mathlib.Data.List.Basic

/-! Texts and numbers are read from what is written for them.

A character of a text stands for itself or behind a backslash, and is read alone in each way. A
number ends before a character that cannot continue it. -/

namespace LedgerNotary.Json

section Texts

variable {c : Char} {q s : List Char} {fuel : Nat} {done : List Char}

/-- The ways in which a character of a text is written. -/
inductive Escape (c : Char) : List Char → Prop
  | itself (quote : c ≠ '"') (backslash : c ≠ '\\') (visible : 32 ≤ c.toNat) : Escape c [c]
  | plain (e : Char) (letter : e ≠ 'u') (read : plainEscape? e = some c) : Escape c ['\\', e]
  | unicode {q : List Char} (read : ∀ s, unicodeEscape? (q ++ s) = some (c, s)) :
    Escape c ('\\' :: 'u' :: q)

theorem Escape.length_pos (h : Escape c q) : 0 < q.length := by
  cases h <;> exact Nat.succ_pos _

theorem hexDigit?_digitChar {d : Nat} (h : d < 16) : hexDigit? d.digitChar = some d := by
  revert d
  decide

theorem escape_control (h : c.toNat < 256) :
    Escape c ['\\', 'u', '0', '0', (c.toNat / 16).digitChar, (c.toNat % 16).digitChar] := by
  refine .unicode (q := ['0', '0', _, _]) fun s => ?_
  have hzero : hexDigit? '0' = some 0 := rfl
  have hhigh := hexDigit?_digitChar (d := c.toNat / 16) (by omega)
  have hlow := hexDigit?_digitChar (d := c.toNat % 16) (by omega)
  have hread : hex4? ('0' :: '0' :: (c.toNat / 16).digitChar :: (c.toNat % 16).digitChar :: s) =
      some (c.toNat, s) := by
    simp [hex4?, hzero, hhigh, hlow, Nat.div_add_mod']
  simp only [List.cons_append, List.nil_append, unicodeEscape?, hread, Option.bind_eq_bind,
    Option.bind_some]
  rw [if_neg (by omega), if_neg (by omega), Char.ofNat_toNat]
  rfl

theorem escape_escaped (c : Char) : Escape c (escaped c).toList := by
  have hcode : ∀ {n : Nat}, c.toNat = n → c = Char.ofNat n := fun h => by rw [← h, Char.ofNat_toNat]
  simp only [escaped]
  split_ifs with hquote hback h8 h9 h10 h12 h13 h16 h32
  · exact hquote ▸ .plain '"' (by decide) rfl
  · exact hback ▸ .plain '\\' (by decide) rfl
  · exact hcode h8 ▸ .plain 'b' (by decide) rfl
  · exact hcode h9 ▸ .plain 't' (by decide) rfl
  · exact hcode h10 ▸ .plain 'n' (by decide) rfl
  · exact hcode h12 ▸ .plain 'f' (by decide) rfl
  · exact hcode h13 ▸ .plain 'r' (by decide) rfl
  · have hzero : Nat.digitChar 0 = '0' := rfl
    have h := escape_control (c := c) (by omega)
    rw [Nat.div_eq_of_lt h16, Nat.mod_eq_of_lt h16, hzero] at h
    simpa [Nat.toDigits_of_lt_base h16] using h
  · have hdigits : Nat.toDigits 16 c.toNat =
        [(c.toNat / 16).digitChar, (c.toNat % 16).digitChar] := by
      rw [Nat.toDigits_of_base_le (by decide) (by omega), Nat.toDigits_of_lt_base (by omega)]
      rfl
    simpa [hdigits] using escape_control (c := c) (by omega)
  · rw [String.toList_singleton]
    exact .itself hquote hback (by omega)

theorem textFrom?_escape (h : Escape c q) :
    textFrom? (fuel + 1) done (q ++ s) = textFrom? fuel (c :: done) s := by
  cases h with
  | itself quote backslash visible =>
    rw [List.singleton_append, textFrom?]
    · rw [if_neg (Nat.not_lt.2 visible)]
    · simp [quote]
    · simp [backslash]
    · simp [backslash]
  | plain e letter read =>
    simp only [List.cons_append, List.nil_append]
    rw [textFrom?]
    · simp only [read]
    · simp [letter]
  | unicode read =>
    simp only [List.cons_append]
    rw [textFrom?, read]

theorem textFrom?_quoted {cs : List Char} (h : cs.length < fuel) :
    textFrom? fuel done (cs.flatMap (fun c => (escaped c).toList) ++ '"' :: s) =
      some (String.ofList (done.reverse ++ cs), s) := by
  induction cs generalizing fuel done with
  | nil =>
    obtain ⟨fuel, rfl⟩ := Nat.exists_eq_add_one.2 (Nat.zero_lt_of_lt h)
    rw [List.append_nil]
    rfl
  | cons c cs ih =>
    rw [List.length_cons] at h
    obtain ⟨fuel, rfl⟩ := Nat.exists_eq_add_one.2 (Nat.zero_lt_of_lt h)
    rw [List.flatMap_cons, List.append_assoc, textFrom?_escape (escape_escaped c), ih (by omega)]
    simp

end Texts

section Numbers

variable {c : Char} {rest : List Char} {n : Nat} {negative : Bool}

/-- A number cannot go on here. -/
def Ends (rest : List Char) : Prop :=
  ∀ c ∈ rest.head?, c.isDigit = false ∧ c ≠ '.' ∧ c ≠ 'e' ∧ c ≠ 'E'

@[simp] theorem ends_cons : Ends (c :: rest) ↔ c.isDigit = false ∧ c ≠ '.' ∧ c ≠ 'e' ∧ c ≠ 'E' := by
  simp [Ends]

theorem tail?_of_ends (h : Ends rest) : tail? rest = some ([], rest) := by
  cases rest with
  | nil => rfl
  | cons c rest =>
    obtain ⟨-, hpoint, he, hE⟩ := h c rfl
    simp [tail?, hpoint, he, hE]

theorem isDigit_toDigits : ∀ c ∈ Nat.toDigits 10 n, c.isDigit = true := fun _ hc =>
  Nat.isDigit_of_mem_toDigits (by decide) (by decide) hc

theorem takeWhile_isDigit (h : Ends rest) :
    (Nat.toDigits 10 n ++ rest).takeWhile Char.isDigit = Nat.toDigits 10 n := by
  rw [List.takeWhile_append_of_pos isDigit_toDigits]
  cases rest with
  | nil => simp
  | cons c rest => simp [(h c rfl).1]

theorem dropWhile_isDigit (h : Ends rest) :
    (Nat.toDigits 10 n ++ rest).dropWhile Char.isDigit = rest := by
  rw [List.dropWhile_append_of_pos isDigit_toDigits]
  cases rest with
  | nil => rfl
  | cons c rest => simp [(h c rfl).1]

theorem eq_zero_of_head?_toDigits (h : (Nat.toDigits 10 n).head? = some '0') : n = 0 := by
  induction n using Nat.strongRecOn with
  | ind n ih =>
    by_cases hn : n < 10
    · rw [Nat.toDigits_of_lt_base hn] at h
      have hdigit : ∀ d < 10, Nat.digitChar d = '0' → d = 0 := by decide
      exact hdigit n hn (Option.some.inj h)
    · rw [Nat.toDigits_of_base_le (by decide) (Nat.not_lt.1 hn),
        List.head?_append_of_ne_nil _ Nat.toDigits_ne_nil] at h
      have hzero := ih (n / 10) (by omega) h
      omega

/-- An integer is read from its digits as such unless it is too great. -/
theorem number?_toDigits (h : Ends rest) : number? negative (Nat.toDigits 10 n ++ rest) =
    if negative ∧ 0 < (n : Int) ∧ (n : Int) ≤ 9223372036854775808 then some (.int (-n), rest)
    else if ¬ negative ∧ (n : Int) < 18446744073709551616 then some (.int n, rest)
    else
      let sign := if negative then ['-'] else []
      some (.real (String.ofList (sign ++ Nat.toDigits 10 n)), rest) := by
  have hfirst : ¬ ((Nat.toDigits 10 n).head? = some '0' ∧ 1 < (Nat.toDigits 10 n).length) := by
    rintro ⟨hhead, hlong⟩
    rw [eq_zero_of_head?_toDigits hhead] at hlong
    exact absurd hlong (by decide)
  have hvalue : digitsValue (Nat.toDigits 10 n) = n := Nat.ofDigitChars_ten_toDigits
  simp only [number?, takeWhile_isDigit h, dropWhile_isDigit h, tail?_of_ends h, hvalue]
  rw [if_neg (by simp [hfirst])]
  simp

end Numbers

end LedgerNotary.Json
