import LedgerNotary.Proofs.Text.Numeral
import LedgerNotary.Value

/-! Which texts are addresses of outputs, and of which.

A text is cut at its last colon. Neither a digest nor a place has a colon in its own text, so no
other cut could do better; and no digest begins like the mark that may stand in front of it. -/

namespace LedgerNotary

open Numeral Outcome

/-- The text of a digest: 64 hexadecimal digits in any case, perhaps with the mark in front. -/
def Digest.Spells (text : List Char) (d : Digest) : Prop :=
  ∃ mark s, text = mark ++ s ∧ (mark = [] ∨ mark = ['0', 'x']) ∧ s.length = 64 ∧
    Denotes 16 s d.toNatBE

/-- The text of a place: decimal digits, at least one, perhaps with a plus sign in front. -/
def StateRef.SpellsIndex (text : List Char) (n : UInt32) : Prop :=
  ∃ sign s, text = sign ++ s ∧ (sign = [] ∨ sign = ['+']) ∧ s ≠ [] ∧ Denotes 10 s n.toNat

namespace Digest

variable {s text : List Char} {d : Digest}

theorem unmarked_of_digits (h : ∀ c ∈ s, place c < 16) : unmarked s = s := by
  unfold unmarked
  split
  · next t =>
    -- The mark has a letter that is no digit.
    have hx : place 'x' < 16 := h 'x' (by simp)
    exact absurd hx (by decide)
  · rfl

theorem parseChars_eq_ok_iff_unmarked : parseChars text = .ok d ↔
    (unmarked text).length = 64 ∧ Denotes 16 (unmarked text) d.toNatBE := by
  have hread : parseChars text = .ok d ↔
      Hex.decodeBytes ((unmarked text).flatMap String.utf8EncodeChar) = .ok d.bytes := by
    unfold parseChars
    cases Hex.decodeBytes ((unmarked text).flatMap String.utf8EncodeChar) with
    | error fault => simp
    | ok body =>
      rw [Except.ok.injEq, ← Octets.ofBytes?_eq_some]
      dsimp only
      cases Octets.ofBytes? 32 body <;> simp
  rw [hread, Hex.decodeBytes_eq_ok, map_digitValue?_utf8]
  have hl : (Hex.halves d.bytes).length = 64 := by rw [Hex.length_halves, d.length_eq]
  have hv : Nat.ofDigits 16 (Hex.halves d.bytes).reverse = d.toNatBE := Hex.ofDigits_halves d.bytes
  constructor
  · rintro ⟨hd, hp⟩
    refine ⟨?_, hd, hp ▸ hv⟩
    rw [← hl, ← hp, List.length_map]
  · rintro ⟨hs, hd, hn⟩
    refine ⟨hd, List.reverse_injective ?_⟩
    refine Nat.ofDigits_inj_of_len_eq (by decide : 1 < 16) ?_ ?_ ?_ (hn.trans hv.symm)
    · rw [List.length_reverse, List.length_reverse, List.length_map, hs, hl]
    · intro p hp
      obtain ⟨c, hc, rfl⟩ := List.mem_map.1 (List.mem_reverse.1 hp)
      exact hd c hc
    · intro p hp
      exact Hex.halves_lt d.bytes p (List.mem_reverse.1 hp)

theorem parseChars_eq_ok : parseChars text = .ok d ↔ Spells text d := by
  rw [parseChars_eq_ok_iff_unmarked]
  constructor
  · rintro ⟨hl, hd⟩
    unfold unmarked at hl hd
    split at hl
    · next t => exact ⟨['0', 'x'], t, rfl, .inr rfl, hl, hd⟩
    · exact ⟨[], text, rfl, .inl rfl, hl, by simpa using hd⟩
  · rintro ⟨mark, s, rfl, rfl | rfl, hl, hd⟩
    · rw [List.nil_append, unmarked_of_digits hd.1]
      exact ⟨hl, hd⟩
    · exact ⟨hl, hd⟩

theorem map_place_encodeChars (s : Bytes) : (Hex.encodeChars s).map place = Hex.halves s := by
  have hdigit : ∀ n < 16, place (Hex.digit n) = n := by decide
  induction s with
  | nil => rfl
  | cons b s ih =>
    have hb := b.toNat_lt
    have hs : Hex.encodeChars (b :: s) =
        Hex.digit (b.toNat / 16) :: Hex.digit (b.toNat % 16) :: Hex.encodeChars s := rfl
    rw [hs, List.map_cons, List.map_cons, hdigit _ (by omega), hdigit _ (by omega), ih]
    rfl

theorem spells_encodeChars (d : Digest) : Spells (Hex.encodeChars d.bytes) d := by
  have hp := map_place_encodeChars d.bytes
  refine ⟨[], Hex.encodeChars d.bytes, rfl, .inl rfl, ?_, fun c hc => ?_, ?_⟩
  · rw [← List.length_map place, hp, Hex.length_halves, d.length_eq]
  · exact Hex.halves_lt d.bytes _ (hp ▸ List.mem_map_of_mem hc)
  · rw [hp]
    exact Hex.ofDigits_halves d.bytes

theorem of_parseChars_eq_error {e : ValueFault} (h : parseChars text = .error e) :
    (∃ fault, e = .hex fault) ∨ ∃ got, e = .hexLength got := by
  unfold parseChars at h
  split at h
  · cases h
    exact .inl ⟨_, rfl⟩
  · split at h <;> cases h
    exact .inr ⟨_, rfl⟩

end Digest

namespace StateRef

variable {s h i : List Char} {n : UInt32} {a : StateRef}

theorem uint32?_eq_some : Decimal.uint32? s = some n ↔ SpellsIndex s n := by
  have hread : Decimal.uint32? s = some n ↔
      Decimal.digits? (Decimal.unsigned s) = some n.toNat := by
    unfold Decimal.uint32?
    cases Decimal.digits? (Decimal.unsigned s) with
    | none => simp
    | some m =>
      dsimp only
      have hn := n.toNat_lt
      rw [Option.some.injEq]
      constructor
      · intro h
        split_ifs at h with hm
        rw [← Option.some.inj h, UInt32.toNat_ofNat_of_lt' hm]
      · rintro rfl
        rw [if_pos hn, UInt32.ofNat_toNat]
  rw [hread, digits?_eq_some]
  constructor
  · rintro ⟨hs, hd⟩
    unfold Decimal.unsigned at hs hd
    split at hs
    · next t => exact ⟨['+'], t, rfl, .inr rfl, hs, by simpa using hd⟩
    · exact ⟨[], s, rfl, .inl rfl, hs, by simpa using hd⟩
  · rintro ⟨sign, s, rfl, rfl | rfl, hs, hd⟩
    · have hu : Decimal.unsigned s = s := by
        unfold Decimal.unsigned
        split
        · next t =>
          have hplus : place '+' < 10 := hd.1 '+' (by simp)
          exact absurd hplus (by decide)
        · rfl
      rw [List.nil_append, hu]
      exact ⟨hs, hd⟩
    · exact ⟨hs, hd⟩

theorem exists_last_colon (h : ':' ∈ s) : ∃ front back, s = front ++ ':' :: back ∧ ':' ∉ back := by
  obtain ⟨back, front, hs, hback⟩ := List.eq_append_cons_of_mem (List.mem_reverse.2 h)
  refine ⟨front.reverse, back.reverse, ?_, fun hm => hback (List.mem_reverse.1 hm)⟩
  rw [← List.reverse_reverse s, hs]
  simp

theorem ne_colon_of_mem_reverse (hi : ':' ∉ i) : ∀ c ∈ i.reverse, (c != ':') = true := by
  intro c hc
  simpa using fun he : c = ':' => hi (he ▸ List.mem_reverse.1 hc)

theorem splitAtLastColon_append (hi : ':' ∉ i) :
    splitAtLastColon (h ++ ':' :: i) = some (h, i) := by
  have hbehind : (h ++ ':' :: i).reverse.takeWhile (· != ':') = i.reverse := by
    rw [List.reverse_append, List.reverse_cons, List.append_assoc,
      List.takeWhile_append_of_pos (ne_colon_of_mem_reverse hi)]
    simp
  have hlength : (h ++ ':' :: i).length = h.length + (i.length + 1) := by simp
  simp only [splitAtLastColon, hbehind, List.length_reverse, List.reverse_reverse, hlength]
  rw [if_pos (by omega), show h.length + (i.length + 1) - i.length - 1 = h.length by omega,
    List.take_left]

theorem splitAtLastColon_of_not_mem (hs : ':' ∉ s) : splitAtLastColon s = none := by
  have hbehind : s.reverse.takeWhile (· != ':') = s.reverse := by
    rw [← List.append_nil s.reverse, List.takeWhile_append_of_pos (ne_colon_of_mem_reverse hs),
      List.takeWhile_nil]
  simp [splitAtLastColon, hbehind]

theorem SpellsIndex.not_mem_colon (hi : SpellsIndex i n) : ':' ∉ i := by
  obtain ⟨sign, s, rfl, hsign, -, hd⟩ := hi
  have hs : ':' ∉ s := fun hm => absurd (hd.1 ':' hm) (by decide)
  rcases hsign with rfl | rfl <;> simpa using hs

section Parse

variable {text : String}

theorem parse_of_not_mem (hm : ':' ∉ text.toList) : parse text = .error .stateRefForm := by
  rw [parse, splitAtLastColon_of_not_mem hm]

theorem parse_of_not_spells (ht : text.toList = h ++ ':' :: i) (hc : ':' ∉ i)
    (hi : ∀ n, ¬ SpellsIndex i n) : parse text = .error .stateRefIndex := by
  have hn : Decimal.uint32? i = none :=
    Option.eq_none_iff_forall_ne_some.2 fun n hn => hi n (uint32?_eq_some.1 hn)
  rw [parse, ht, splitAtLastColon_append hc]
  simp only [hn]

/-- With a place behind the last colon, what stands in front of it decides. -/
theorem parse_of_spells (ht : text.toList = h ++ ':' :: i) (hi : SpellsIndex i n) :
    parse text = (Digest.parseChars h).map (⟨·, n⟩) := by
  rw [parse, ht, splitAtLastColon_append hi.not_mem_colon]
  simp only [uint32?_eq_some.2 hi]

theorem parse_of_spells_ne (ht : text.toList = h ++ ':' :: i) (hi : SpellsIndex i n) :
    parse text ≠ .error .stateRefForm ∧ parse text ≠ .error .stateRefIndex := by
  rw [parse_of_spells ht hi]
  cases hd : Digest.parseChars h with
  | ok d => exact ⟨nofun, nofun⟩
  | error e =>
    rcases Digest.of_parseChars_eq_error hd with ⟨fault, rfl⟩ | ⟨got, rfl⟩
    · exact ⟨nofun, nofun⟩
    · exact ⟨nofun, nofun⟩

/-- The three ways of a text: no colon, no place behind the last one, or a place there. -/
theorem text_cases (text : String) : ':' ∉ text.toList ∨
    ∃ h i, text.toList = h ++ ':' :: i ∧ ':' ∉ i ∧
      ((∀ n, ¬ SpellsIndex i n) ∨ ∃ n, SpellsIndex i n) := by
  by_cases hm : ':' ∈ text.toList
  · obtain ⟨h, i, ht, hc⟩ := exists_last_colon hm
    refine Or.inr ⟨h, i, ht, hc, ?_⟩
    by_cases hi : ∃ n, SpellsIndex i n
    · exact Or.inr hi
    · exact Or.inl fun n hn => hi ⟨n, hn⟩
  · exact Or.inl hm

theorem parse_eq_ok {a : StateRef} : parse text = .ok a ↔
    ∃ h i, text.toList = h ++ ':' :: i ∧ Digest.Spells h a.tx ∧ SpellsIndex i a.index := by
  constructor
  · intro hp
    rcases text_cases text with hm | ⟨h, i, ht, hc, hi | ⟨n, hi⟩⟩
    · rw [parse_of_not_mem hm] at hp
      cases hp
    · rw [parse_of_not_spells ht hc hi] at hp
      cases hp
    · rw [parse_of_spells ht hi] at hp
      obtain ⟨d, hd, rfl⟩ := map_eq_ok.1 hp
      exact ⟨h, i, ht, Digest.parseChars_eq_ok.1 hd, hi⟩
  · rintro ⟨h, i, ht, hd, hi⟩
    rw [parse_of_spells ht hi]
    exact map_eq_ok.2 ⟨a.tx, Digest.parseChars_eq_ok.2 hd, rfl⟩

theorem parse_eq_stateRefForm : parse text = .error .stateRefForm ↔ ':' ∉ text.toList := by
  refine ⟨fun hp => ?_, parse_of_not_mem⟩
  rcases text_cases text with hm | ⟨h, i, ht, hc, hi | ⟨n, hi⟩⟩
  · exact hm
  · rw [parse_of_not_spells ht hc hi] at hp
    cases hp
  · exact absurd hp (parse_of_spells_ne ht hi).1

theorem parse_eq_stateRefIndex : parse text = .error .stateRefIndex ↔
    ∃ h i, text.toList = h ++ ':' :: i ∧ ':' ∉ i ∧ ∀ n, ¬ SpellsIndex i n := by
  refine ⟨fun hp => ?_, fun ⟨_, _, ht, hc, hi⟩ => parse_of_not_spells ht hc hi⟩
  rcases text_cases text with hm | ⟨h, i, ht, hc, hi | ⟨n, hi⟩⟩
  · rw [parse_of_not_mem hm] at hp
    cases hp
  · exact ⟨h, i, ht, hc, hi⟩
  · exact absurd hp (parse_of_spells_ne ht hi).2

theorem toList_toText (a : StateRef) :
    a.toText.toList = Hex.encodeChars a.tx.bytes ++ ':' :: Nat.toDigits 10 a.index.toNat := by
  have hcolon : (toString ":").toList = [':'] := rfl
  have hindex : (toString a.index).toList = Nat.toDigits 10 a.index.toNat := Nat.toList_repr
  simp [toText, Digest.toHex, Hex.encode, hcolon, hindex]

theorem parse_toText (a : StateRef) : parse a.toText = .ok a :=
  parse_eq_ok.2 ⟨_, _, a.toList_toText, Digest.spells_encodeChars a.tx,
    [], _, rfl, .inl rfl, Nat.toDigits_ne_nil, denotes_toDigits a.index.toNat⟩

/-- The texts that are read are those of a digest and a place with a colon between them, and each is
read as the address of that place. Of all other texts one without a colon is refused for that, one
without a place behind its last colon for that whatever stands in front, and only then one for its
digest, as the digest alone would be. What is written for an address is read as it. -/
theorem parse_exact :
    (∀ (text : String) (a : StateRef), parse text = .ok a ↔
      ∃ h i, text.toList = h ++ ':' :: i ∧ Digest.Spells h a.tx ∧ SpellsIndex i a.index) ∧
    (∀ text : String, parse text = .error .stateRefForm ↔ ':' ∉ text.toList) ∧
    (∀ text : String, parse text = .error .stateRefIndex ↔
      ∃ h i, text.toList = h ++ ':' :: i ∧ ':' ∉ i ∧ ∀ n, ¬ SpellsIndex i n) ∧
    (∀ (text : String) (h i : List Char) (n : UInt32), text.toList = h ++ ':' :: i →
      SpellsIndex i n → (∀ d, ¬ Digest.Spells h d) →
        ∃ e, parse text = .error e ∧ Digest.parse (String.ofList h) = .error e ∧
          ((∃ fault, e = .hex fault) ∨ ∃ got, e = .hexLength got)) ∧
    ∀ a : StateRef, parse a.toText = .ok a := by
  refine ⟨fun _ _ => parse_eq_ok, fun _ => parse_eq_stateRefForm,
    fun _ => parse_eq_stateRefIndex, fun text h i n ht hi hd => ?_, parse_toText⟩
  rw [parse_of_spells ht hi, Digest.parse, String.toList_ofList]
  cases hp : Digest.parseChars h with
  | ok d => exact absurd (Digest.parseChars_eq_ok.1 hp) (hd d)
  | error e => exact ⟨e, rfl, rfl, Digest.of_parseChars_eq_error hp⟩

/-- A mark, letters of both cases, a plus sign and the greatest place behind zeros; and a text whose
only fault is that its digest has no digits. -/
theorem parse_exact_marked :
    let a : StateRef := ⟨⟨List.replicate 32 0xAB, rfl⟩, 4294967295⟩
    let digits := (List.replicate 32 ['a', 'B']).flatten
    let front := ['0', 'x'] ++ digits
    let back := ['+'] ++ '0' :: Nat.toDigits 10 4294967295
    Digest.Spells front a.tx ∧ SpellsIndex back a.index ∧
      parse (String.ofList (front ++ ':' :: back)) = .ok a ∧
      (∀ d, ¬ Digest.Spells ['0', 'x'] d) ∧ parse "0x:7" = .error (.hexLength 0) := by
  intro a digits front back
  obtain ⟨hok, -, -, hdigest, -⟩ := parse_exact
  have hfront : Digest.Spells front a.tx :=
    ⟨['0', 'x'], digits, rfl, .inr rfl, by decide, by decide +kernel⟩
  have hback : SpellsIndex back a.index :=
    ⟨['+'], _, rfl, .inr rfl, nofun, by decide⟩
  have hseven : SpellsIndex ['7'] 7 := ⟨[], ['7'], rfl, .inl rfl, nofun, by decide⟩
  have herror : Digest.parse (String.ofList ['0', 'x']) = .error (.hexLength 0) := rfl
  have hnone : ∀ d, ¬ Digest.Spells ['0', 'x'] d := fun d hd => by
    cases herror.symm.trans (Digest.parseChars_eq_ok.2 hd)
  obtain ⟨e, he, hd, -⟩ := hdigest "0x:7" ['0', 'x'] ['7'] 7 rfl hseven hnone
  rw [herror] at hd
  refine ⟨hfront, hback, (hok _ a).2 ⟨front, back, ?_, hfront, hback⟩, hnone, ?_⟩
  · exact String.toList_ofList
  · rw [he, ← Except.error.inj hd]

end Parse

end StateRef

end LedgerNotary
