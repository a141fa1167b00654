import LedgerNotary.Identity
import Mathlib.Data.List.Prime
import Mathlib.FieldTheory.Finite.Basic
import Mathlib.NumberTheory.LucasPrimality
import Mathlib.Tactic.NormNum.Prime

/-! The coordinate field is one: its size is a prime.

That is shown by Lucas' test, which asks for the prime factors of the number before. Some of those
found on the way down are too large to be divided by all numbers below their root; they are tested
likewise, smallest first. -/

namespace LedgerNotary.Curve

theorem powMod_eq {m : Nat} (hm : 1 < m) {bits b e : Nat} (he : e < 2 ^ bits) :
    powMod m bits b e = b ^ e % m := by
  induction bits generalizing b e with
  | zero =>
    obtain rfl : e = 0 := by simpa using he
    rw [powMod, pow_zero, Nat.mod_eq_of_lt hm]
  | succ bits ih =>
    have hhalf : e / 2 < 2 ^ bits := by
      rw [pow_succ] at he
      omega
    have hsquare : powMod m bits (b * b % m) (e / 2) = b ^ (2 * (e / 2)) % m := by
      rw [ih hhalf, ← Nat.pow_mod, pow_mul, sq]
    rw [powMod, hsquare]
    split
    · next hodd =>
      have hsplit : e = 2 * (e / 2) + 1 := by omega
      conv_rhs => rw [hsplit, pow_succ]
      rw [Nat.mod_mul_mod]
    · next heven =>
      have hsplit : e = 2 * (e / 2) := by omega
      conv_rhs => rw [hsplit]

theorem cast_pow_eq_one {m : Nat} (hm : 1 < m ∧ m < 2 ^ 256) {b e : Nat} (he : e < m) :
    (b : ZMod m) ^ e = 1 ↔ powMod m 256 b e = 1 := by
  rw [powMod_eq hm.1 (he.trans hm.2), ← Nat.cast_pow, ← Nat.cast_one,
    ZMod.natCast_eq_natCast_iff', Nat.mod_eq_of_lt hm.1]

/-- What Lucas' test needs of a number: a base, and the factors of the number before. -/
structure Certificate where
  (number base : Nat)
  factors : List Nat

namespace Certificate

def Passes (primes : List Nat) (c : Certificate) : Prop :=
  (1 < c.number ∧ c.number < 2 ^ 256) ∧ c.factors ⊆ primes ∧ c.factors.prod = c.number - 1 ∧
    powMod c.number 256 c.base (c.number - 1) = 1 ∧
    ∀ f ∈ c.factors, powMod c.number 256 c.base ((c.number - 1) / f) ≠ 1

/-- Lucas' test for all of a list, where each number may be a factor for those behind it. -/
def AllPass : List Nat → List Certificate → Prop
  | _, [] => True
  | primes, c :: cs => c.Passes primes ∧ AllPass (c.number :: primes) cs

instance (primes : List Nat) (c : Certificate) : Decidable (c.Passes primes) :=
  inferInstanceAs (Decidable (_ ∧ _))

instance decidableAllPass : (primes : List Nat) → (cs : List Certificate) →
    Decidable (AllPass primes cs)
  | _, [] => inferInstanceAs (Decidable True)
  | primes, c :: cs =>
    have := decidableAllPass (c.number :: primes) cs
    inferInstanceAs (Decidable (_ ∧ _))

variable {primes : List Nat} {c : Certificate} {cs : List Certificate}

theorem Passes.prime (h : c.Passes primes) (hp : ∀ q ∈ primes, q.Prime) : c.number.Prime := by
  obtain ⟨hn, hsub, hprod, hfull, hpart⟩ := h
  have hlt : ∀ f, (c.number - 1) / f < c.number := fun f =>
    (Nat.div_le_self _ _).trans_lt (by omega)
  refine lucas_primality c.number c.base ((cast_pow_eq_one hn (by omega)).2 hfull) ?_
  intro q hq hd he
  rw [← hprod] at hd
  obtain ⟨f, hf, hqf⟩ := (Prime.dvd_prod_iff hq.prime).1 hd
  obtain rfl := (Nat.prime_dvd_prime_iff_eq hq (hp f (hsub hf))).1 hqf
  exact hpart q hf ((cast_pow_eq_one hn (hlt q)).1 he)

theorem AllPass.prime (h : AllPass primes cs) (hp : ∀ q ∈ primes, q.Prime) :
    ∀ c ∈ cs, c.number.Prime := by
  induction cs generalizing primes with
  | nil => exact nofun
  | cons c cs ih =>
    have hc := h.1.prime hp
    exact List.forall_mem_cons.2 ⟨hc, ih h.2 (List.forall_mem_cons.2 ⟨hc, hp⟩)⟩

end Certificate

/-- The primes that are not tested by Lucas' test. -/
def smallPrimes : List Nat :=
  [2, 3, 5, 7, 11, 29, 31, 1627, 2621, 2657, 4423, 5323, 7723, 13441, 24809, 41201, 96557, 7240687,
    13331831, 107590001]

theorem prime_of_mem_smallPrimes : ∀ q ∈ smallPrimes, q.Prime := by
  norm_num [smallPrimes]

def certificates : List Certificate :=
  [⟨173378833005251801, 6, [2, 2, 2, 5, 5, 2621, 24809, 13331831]⟩,
    ⟨22149492674086928081353, 5, [2, 2, 2, 3, 5323, 173378833005251801]⟩,
    ⟨132896956044521568488119, 6, [2, 3, 22149492674086928081353]⟩,
    ⟨255515944373312847190720520512484175977, 3,
      [2, 2, 2, 7, 7, 11, 1627, 2657, 4423, 41201, 96557, 7240687, 107590001]⟩,
    ⟨205115282021455665897114700593932402728804164701536103180137503955397371, 10,
      [2, 3, 5, 29, 29, 31, 7723, 132896956044521568488119,
        255515944373312847190720520512484175977]⟩,
    ⟨prime, 3,
      [2, 3, 7, 13441, 205115282021455665897114700593932402728804164701536103180137503955397371]⟩]

theorem prime_prime : Nat.Prime prime := by
  have hpass : Certificate.AllPass smallPrimes certificates := by decide +kernel
  exact hpass.prime prime_of_mem_smallPrimes _ (List.mem_of_getLast? rfl)

end LedgerNotary.Curve

/-! Which 33 bytes name the same point.

No point of the curve has `y = 0`, since minus seven is no cube, so the two points over an `x`
differ in the parity of `y`. A point is then named by its `x` and by the tag for its parity, and by
nothing else but the tag of the compact form when that parity is even. -/

namespace LedgerNotary

namespace Curve

instance : Fact (Nat.Prime prime) := ⟨prime_prime⟩

theorem neg_seven_not_cube (x : ZMod prime) : x ^ 3 ≠ -7 := by
  intro hx
  have hseven : (-7 : ZMod prime) = (prime - 7 : Nat) := by
    rw [Nat.cast_sub (by decide), ZMod.natCast_self, zero_sub]
    rfl
  have hne : x ≠ 0 := by
    rintro rfl
    rw [hseven, zero_pow (by decide), eq_comm, ZMod.natCast_eq_zero_iff] at hx
    exact absurd hx (by decide)
  have hpow : ((prime - 7 : Nat) : ZMod prime) ^ ((prime - 1) / 3) = 1 := by
    rw [← hseven, ← hx, ← pow_mul, Nat.mul_div_cancel' (by decide)]
    exact ZMod.pow_card_sub_one_eq_one hne
  rw [cast_pow_eq_one (by decide) (by decide)] at hpow
  exact absurd hpow (by decide +kernel)

theorem cube_add_seven_mod (x : Nat) : (x * x * x + 7) % prime ≠ 0 := by
  intro h
  have hz : ((x * x * x + 7 : Nat) : ZMod prime) = 0 :=
    (ZMod.natCast_eq_zero_iff _ _).2 (Nat.dvd_of_mod_eq_zero h)
  push_cast at hz
  refine neg_seven_not_cube x ?_
  linear_combination hz

theorem of_lift? {x : Nat} {odd : Bool} {q : Point} (h : lift? x odd = some q) :
    q.x = x ∧ (q.y % 2 = 1 ↔ odd = true) := by
  have hlt : powMod prime 256 ((x * x * x + 7) % prime) ((prime + 1) / 4) < prime := by
    rw [powMod_eq (by decide) (by decide)]
    exact Nat.mod_lt _ (by decide)
  simp only [lift?] at h
  generalize powMod prime 256 ((x * x * x + 7) % prime) ((prime + 1) / 4) = y at h hlt
  have hodd : prime % 2 = 1 := by decide
  split at h
  · next hc =>
    obtain rfl := Option.some.inj h
    have hpos : 0 < y := by
      rw [Nat.pos_iff_ne_zero]
      rintro rfl
      exact cube_add_seven_mod x hc.2.symm
    refine ⟨rfl, ?_⟩
    change (if ((y % 2 == 1) == odd) = true then y else (prime - y) % prime) % 2 = 1 ↔ _
    rw [Nat.mod_eq_of_lt (show prime - y < prime by omega)]
    -- of `y` and `prime - y` one is odd, since the prime is
    cases odd with
    | false => split <;> next hy => simp at hy ⊢; omega
    | true => split <;> next hy => simp at hy ⊢; omega
  · cases h

end Curve

namespace PointCode

open Curve

def point? (a : PointCode) : Option Point := Point.parse? a.octets.bytes

/-- Whether a code has the tag of the compact form. -/
def IsCompact (a : PointCode) : Prop := a.octets.bytes.head? = some 5

instance (a : PointCode) : Decidable a.IsCompact :=
  inferInstanceAs (Decidable (a.octets.bytes.head? = some 5))

/-- The same `x` with the tag for an even `y`. -/
def evenForm (a : PointCode) : PointCode :=
  ⟨2 :: a.octets.bytes.tail, by simp [a.octets.length_eq]⟩

variable {a b : PointCode} {q : Point}

theorem exists_cons (a : PointCode) : ∃ tag s, a.octets.bytes = tag :: s ∧ s.length = 32 := by
  have hl := a.octets.length_eq
  cases hb : a.octets.bytes with
  | nil => simp [hb] at hl
  | cons tag s =>
    rw [hb, List.length_cons] at hl
    exact ⟨tag, s, rfl, Nat.succ.inj hl⟩

theorem point?_eq {tag : UInt8} {s : Bytes} (h : a.octets.bytes = tag :: s) (hs : s.length = 32) :
    a.point? = if tag = 2 ∨ tag = 5 then lift? (Bytes.toNatBE s) false
      else if tag = 3 then lift? (Bytes.toNatBE s) true else none := by
  rw [point?, h, Point.parse?, if_pos hs]

theorem of_point? {tag : UInt8} {s : Bytes} (h : a.octets.bytes = tag :: s) (hs : s.length = 32)
    (hq : a.point? = some q) : s = Bytes.ofNatBE 32 q.x ∧
      (q.y % 2 = 1 ∧ tag = 3 ∨ q.y % 2 ≠ 1 ∧ (tag = 2 ∨ tag = 5)) := by
  have hx : Bytes.toNatBE s = q.x → s = Bytes.ofNatBE 32 q.x := by
    rintro hx
    rw [← hx, ← hs, Bytes.ofNatBE_toNatBE]
  rw [point?_eq h hs] at hq
  split at hq
  · next ht =>
    obtain ⟨hqx, hqy⟩ := of_lift? hq
    exact ⟨hx hqx.symm, Or.inr ⟨by simp [hqy], ht⟩⟩
  · split at hq
    · next ht =>
      obtain ⟨hqx, hqy⟩ := of_lift? hq
      exact ⟨hx hqx.symm, Or.inl ⟨hqy.2 rfl, ht⟩⟩
    · cases hq

theorem point?_evenForm (h : a.IsCompact) : a.evenForm.point? = a.point? := by
  obtain ⟨tag, s, ha, hs⟩ := a.exists_cons
  obtain rfl : tag = 5 := by simpa [IsCompact, ha] using h
  have he : a.evenForm.octets.bytes = 2 :: s := by simp [evenForm, ha]
  rw [point?_eq ha hs, point?_eq he hs]
  rfl

theorem not_isCompact_evenForm (a : PointCode) : ¬ a.evenForm.IsCompact := by
  simp [IsCompact, evenForm]

theorem evenForm_inj (ha : a.IsCompact) (hb : b.IsCompact) (h : a.evenForm = b.evenForm) :
    a = b := by
  obtain ⟨tag, s, has, -⟩ := a.exists_cons
  obtain ⟨tag', s', hbs, -⟩ := b.exists_cons
  obtain rfl : tag = 5 := by simpa [IsCompact, has] using ha
  obtain rfl : tag' = 5 := by simpa [IsCompact, hbs] using hb
  have hs : s = s' := by simpa [evenForm, has, hbs] using h
  cases a
  cases b
  rw [mk.injEq, Octets.ext_iff, has, hbs, hs]

/-- Apart from the compact form, a point has the one code that is written for it. -/
theorem eq_compressed (ha : ¬ a.IsCompact) (hq : a.point? = some q) : a = ⟨q.compressed⟩ := by
  obtain ⟨tag, s, has, hs⟩ := a.exists_cons
  obtain ⟨hx, htag⟩ := of_point? has hs hq
  have hfive : tag ≠ 5 := by simpa [IsCompact, has] using ha
  have hcons : a.octets.bytes = q.compressed.bytes := by
    rw [has, hx, Point.compressed]
    rcases htag with ⟨hy, ht⟩ | ⟨hy, ht⟩
    · rw [if_pos hy, ht]
    · rw [if_neg hy, ht.resolve_right hfive]
  cases a
  rw [mk.injEq]
  exact Octets.ext hcons

/-- Two codes of one point differ at most in that one of them is compact. -/
theorem eq_or_evenForm_eq (ha : a.point? = some q) (hb : b.point? = some q) :
    a = b ∨ a.IsCompact ∧ a.evenForm = b ∨ b.IsCompact ∧ b.evenForm = a := by
  have even : ∀ {c : PointCode}, c.IsCompact → c.point? = some q → c.evenForm = ⟨q.compressed⟩ :=
    fun {c} hc hq => eq_compressed c.not_isCompact_evenForm ((point?_evenForm hc).trans hq)
  by_cases hca : a.IsCompact <;> by_cases hcb : b.IsCompact
  · exact Or.inl (evenForm_inj hca hcb ((even hca ha).trans (even hcb hb).symm))
  · exact Or.inr (Or.inl ⟨hca, (even hca ha).trans (eq_compressed hcb hb).symm⟩)
  · exact Or.inr (Or.inr ⟨hcb, (even hcb hb).trans (eq_compressed hca ha).symm⟩)
  · exact Or.inl ((eq_compressed hca ha).trans (eq_compressed hcb hb).symm)

end PointCode

end LedgerNotary
