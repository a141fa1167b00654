import LedgerNotary.Index
import LedgerNotary.Proofs.Outcome
import LedgerNotary.Proofs.Text.Utf8

/-! What stands at the front of an encoding, and how much of it can be told from the bytes. -/

namespace LedgerNotary

open Outcome

theorem Bytes.ofNatLE_inj {m n : UInt32}
    (h : Bytes.ofNatLE 4 m.toNat = Bytes.ofNatLE 4 n.toNat) : m = n := by
  have hn := congrArg Bytes.toNatLE h
  have hm := m.toNat_lt
  have hn' := n.toNat_lt
  rw [Bytes.toNatLE_ofNatLE, Bytes.toNatLE_ofNatLE, show Bytes.capacity 4 = 4294967296 from rfl,
    Nat.mod_eq_of_lt hm, Nat.mod_eq_of_lt hn'] at hn
  exact UInt32.toNat_inj.1 hn

theorem Octets.decode_append {n : Nat} (a : Octets n) (s : Bytes) :
    Wire.decode (α := Octets n) (a.bytes ++ s) = .ok (a, s) := by
  have hs : Bytes.split? n (a.bytes ++ s) = some (a.bytes, s) :=
    Bytes.split?_eq_some.2 ⟨rfl, a.length_eq⟩
  simp only [Wire.decode]
  split
  · next front rest h =>
    rw [hs, Option.some.injEq, Prod.mk.injEq] at h
    obtain ⟨rfl, rfl⟩ := h
    rfl
  · next h => simp [hs] at h

theorem StateRef.length_pack (x : StateRef) : (Wire.pack x).length = 36 := by
  have h : Wire.pack x = x.tx.bytes ++ Bytes.ofNatLE 4 x.index.toNat := rfl
  rw [h, List.length_append, x.tx.length_eq, Bytes.length_ofNatLE]

theorem StateRef.pack_inj {a b : StateRef} (h : Wire.pack a = Wire.pack b) : a = b := by
  have h' : a.tx.bytes ++ Bytes.ofNatLE 4 a.index.toNat =
      b.tx.bytes ++ Bytes.ofNatLE 4 b.index.toNat := h
  obtain ⟨ht, hi⟩ := List.append_inj h' (by rw [a.tx.length_eq, b.tx.length_eq])
  cases a
  cases b
  simp only [StateRef.mk.injEq]
  exact ⟨Octets.ext ht, Bytes.ofNatLE_inj hi⟩

theorem Consumption.txId_of_read {c r : Consumption} (h : Wire.read (Wire.pack c) = .ok r) :
    r.txId = c.txId := by
  obtain ⟨⟨⟨id, rest⟩, s⟩, hp, he⟩ := bind_eq_ok.1 (Wire.read_eq_ok.1 h)
  obtain ⟨⟨front, t⟩, hf, hb⟩ := bind_eq_ok.1 hp
  obtain ⟨⟨_, _⟩, -, hb⟩ := bind_eq_ok.1 hb
  have hc : Wire.decode (α := Digest) (Wire.pack c) = .ok (c.txId, _) :=
    c.txId.decode_append _
  rw [hc, Except.ok.injEq, Prod.mk.injEq] at hf
  cases hf.1
  cases hb
  cases he
  rfl

/-! Reading what was written.

A value reads back if it is found again in front of any further bytes. Numbers and blocks of bytes
always do. Texts and lists are written behind a length of four bytes, so they do if they are
short enough for that. -/

namespace Wire

variable {α β : Type}

/-- The value is read from its encoding, and the bytes behind it are left. -/
def ReadsBack [Wire α] (a : α) : Prop := ∀ s, decode (pack a ++ s) = .ok (a, s)

theorem ReadsBack.read_pack [Wire α] {a : α} (h : ReadsBack a) : read (pack a) = .ok a := by
  have hd := h []
  rw [List.append_nil] at hd
  exact read_eq_ok.2 hd

theorem ReadsBack.bind [Wire β] {b : β} (h : ReadsBack b) (s : Bytes)
    (f : β × Bytes → Except Fault (α × Bytes)) : (decode (pack b ++ s) >>= f) = f (b, s) := by
  rw [h s, ok_bind]

theorem take_append (a s : Bytes) : take a.length (a ++ s) = .ok (a, s) := by
  rw [take, Bytes.split?_append]

theorem takeNat_ofNatLE (width n : Nat) (s : Bytes) :
    takeNat width (Bytes.ofNatLE width n ++ s) = .ok (n % Bytes.capacity width, s) := by
  have h := take_append (Bytes.ofNatLE width n) s
  rw [Bytes.length_ofNatLE] at h
  rw [takeNat, h, ok_bind]
  simp only [Bytes.toNatLE_ofNatLE, pure_eq_ok]

theorem takeNat_length {n : Nat} (h : n < UInt32.size) (s : Bytes) :
    takeNat 4 (Bytes.ofNatLE 4 n ++ s) = .ok (n, s) := by
  rw [takeNat_ofNatLE, show Bytes.capacity 4 = UInt32.size from rfl, Nat.mod_eq_of_lt h]

theorem readsBack_uint8 (b : UInt8) : ReadsBack b := fun _ => rfl

theorem readsBack_uint32 (n : UInt32) : ReadsBack n := by
  intro s
  have h := takeNat_length n.toNat_lt s
  change (takeNat 4 (Bytes.ofNatLE 4 n.toNat ++ s) >>= _) = _
  rw [h, ok_bind]
  simp only [UInt32.ofNat_toNat, pure_eq_ok]

theorem readsBack_octets {n : Nat} (a : Octets n) : ReadsBack a := a.decode_append

theorem ReadsBack.pair [Wire α] [Wire β] {a : α} {b : β} (ha : ReadsBack a) (hb : ReadsBack b) :
    ReadsBack (a, b) := by
  intro s
  change (decode ((pack a ++ pack b) ++ s) >>= _) = _
  rw [List.append_assoc, ha.bind]
  exact hb.bind s _

theorem decodeItems_pack [Wire α] {as : List α} (h : ∀ a ∈ as, ReadsBack a) (done : List α)
    (s : Bytes) :
    decodeItems as.length done (as.flatMap pack ++ s) = .ok (done.reverse ++ as, s) := by
  induction as generalizing done with
  | nil => simp [decodeItems]
  | cons a as ih =>
    obtain ⟨ha, has⟩ := List.forall_mem_cons.1 h
    rw [List.flatMap_cons, List.append_assoc, List.length_cons, decodeItems, ha]
    simp [ih has]

theorem ReadsBack.list [Wire α] {as : List α} (hl : as.length < UInt32.size)
    (h : ∀ a ∈ as, ReadsBack a) : ReadsBack as := by
  intro s
  have hd := decodeItems_pack h [] s
  change (takeNat 4 ((Bytes.ofNatLE 4 as.length ++ as.flatMap pack) ++ s) >>= _) = _
  rw [List.append_assoc, takeNat_length hl, ok_bind]
  exact hd

theorem readsBack_bytes {body : Bytes} (h : body.length < UInt32.size) : ReadsBack body :=
  .list h fun b _ => readsBack_uint8 b

theorem readsBack_string {text : String} (h : (Bytes.ofString text).length < UInt32.size) :
    ReadsBack text := by
  intro s
  change (decode (pack (Bytes.ofString text) ++ s) >>= _) = _
  rw [(readsBack_bytes h).bind]
  simp only [Utf8.decode_ofString]
  rfl

/-! Which values have an encoding, and that what is read is always the encoding of a value.

A value fits the format if every length in it can be written in four bytes. Values that fit are read
back from what is written for them; and where the reader takes a value from some bytes, it fits, and
the bytes taken are the ones written for it. Both laws pass from the parts of a value to the
whole. -/

variable {s rest : Bytes}

/-- A type of which it is known what values can be written and read back. -/
class Bounded (α : Type) [Wire α] where
  Fits : α → Prop
  sized_of_fits : ∀ {a : α}, Fits a → sized a = true
  readsBack : ∀ {a : α}, Fits a → ReadsBack a

export Bounded (Fits sized_of_fits)

/-- A type that is read from nothing but what is written for its values. -/
class Exact (α : Type) [Wire α] [Bounded α] : Prop where
  of_decode : ∀ {s : Bytes} {a : α} {rest : Bytes},
    decode s = .ok (a, rest) → Fits a ∧ s = pack a ++ rest

theorem encode_eq [Wire α] [Bounded α] {a : α} (h : Fits a) : encode a = .ok (pack a) :=
  encode_eq_ok.2 ⟨sized_of_fits h, rfl⟩

theorem read_pack [Wire α] [Bounded α] {a : α} (h : Fits a) : read (pack a) = .ok a :=
  (Bounded.readsBack h).read_pack

/-- The value has an encoding, from which it is read back. -/
def RoundTrips [Wire α] (a : α) : Prop := ∃ s, encode a = .ok s ∧ read s = .ok a

theorem roundTrips [Wire α] [Bounded α] {a : α} (h : Fits a) : RoundTrips a :=
  ⟨pack a, encode_eq h, read_pack h⟩

theorem pack_inj [Wire α] [Bounded α] {a b : α} (ha : Fits a) (hb : Fits b)
    (h : pack a = pack b) : a = b := by
  have hr := read_pack ha
  rw [h, read_pack hb] at hr
  exact (Except.ok.inj hr).symm

/-- What is read from a whole byte string is what it is the encoding of. -/
theorem read_eq_ok_iff [Wire α] [Bounded α] [Exact α] {a : α} :
    read s = .ok a ↔ Fits a ∧ s = pack a := by
  constructor
  · intro h
    have hd := Exact.of_decode (read_eq_ok.1 h)
    rwa [List.append_nil] at hd
  · rintro ⟨hf, rfl⟩
    exact read_pack hf

section Numbers

theorem of_take {n : Nat} {front : Bytes} (h : take n s = .ok (front, rest)) :
    s = front ++ rest ∧ front.length = n := by
  unfold take at h
  cases hs : Bytes.split? n s with
  | none => simp [hs] at h
  | some p =>
    rw [hs] at h
    cases h
    exact Bytes.split?_eq_some.1 hs

theorem of_takeNat {width n : Nat} (h : takeNat width s = .ok (n, rest)) :
    n < Bytes.capacity width ∧ s = Bytes.ofNatLE width n ++ rest := by
  obtain ⟨⟨front, t⟩, ht, h⟩ := bind_eq_ok.1 h
  cases h
  obtain ⟨rfl, rfl⟩ := of_take ht
  exact ⟨Bytes.toNatLE_lt front, by rw [Bytes.ofNatLE_toNatLE]⟩

theorem readsBack_uint64 (n : UInt64) : ReadsBack n := by
  intro s
  have hn : n.toNat % Bytes.capacity 8 = n.toNat := Nat.mod_eq_of_lt n.toNat_lt
  change (takeNat 8 (Bytes.ofNatLE 8 n.toNat ++ s) >>= _) = _
  rw [takeNat_ofNatLE, hn, ok_bind]
  simp only [UInt64.ofNat_toNat, pure_eq_ok]

theorem readsBack_int64 (n : Int64) : ReadsBack n := by
  intro s
  change (decode (pack n.toUInt64 ++ s) >>= _) = _
  rw [(readsBack_uint64 n.toUInt64).bind]
  simp only [Int64.toInt64_toUInt64, pure_eq_ok]

instance : Bounded UInt8 := ⟨fun _ => True, fun _ => rfl, fun _ => readsBack_uint8 _⟩

instance : Exact UInt8 where
  of_decode {s a rest} h := by
    cases s with
    | nil => cases h
    | cons b s =>
      cases h
      exact ⟨trivial, rfl⟩

instance : Bounded UInt32 := ⟨fun _ => True, fun _ => rfl, fun _ => readsBack_uint32 _⟩

instance : Exact UInt32 where
  of_decode {s a rest} h := by
    obtain ⟨⟨n, t⟩, hn, h⟩ := bind_eq_ok.1 h
    cases h
    obtain ⟨hlt, rfl⟩ := of_takeNat hn
    have he : (UInt32.ofNat n).toNat = n := UInt32.toNat_ofNat_of_lt' hlt
    refine ⟨trivial, ?_⟩
    change _ = Bytes.ofNatLE 4 (UInt32.ofNat n).toNat ++ rest
    rw [he]

instance : Bounded UInt64 := ⟨fun _ => True, fun _ => rfl, fun _ => readsBack_uint64 _⟩

instance : Exact UInt64 where
  of_decode {s a rest} h := by
    obtain ⟨⟨n, t⟩, hn, h⟩ := bind_eq_ok.1 h
    cases h
    obtain ⟨hlt, rfl⟩ := of_takeNat hn
    have he : (UInt64.ofNat n).toNat = n := UInt64.toNat_ofNat_of_lt' hlt
    refine ⟨trivial, ?_⟩
    change _ = Bytes.ofNatLE 8 (UInt64.ofNat n).toNat ++ rest
    rw [he]

instance : Bounded Int64 := ⟨fun _ => True, fun _ => rfl, fun _ => readsBack_int64 _⟩

instance : Exact Int64 where
  of_decode {s a rest} h := by
    obtain ⟨⟨n, t⟩, hn, h⟩ := bind_eq_ok.1 h
    cases h
    obtain ⟨-, rfl⟩ := Exact.of_decode hn
    refine ⟨trivial, ?_⟩
    change _ = pack n.toInt64.toUInt64 ++ rest
    rw [UInt64.toUInt64_toInt64]

instance {n : Nat} : Bounded (Octets n) :=
  ⟨fun _ => True, fun _ => rfl, fun _ => readsBack_octets _⟩

instance {n : Nat} : Exact (Octets n) where
  of_decode {s a rest} h := by
    simp only [decode] at h
    split at h
    · next front t hs =>
      cases h
      exact ⟨trivial, (Bytes.split?_eq_some.1 hs).1⟩
    · cases h

end Numbers

section Lists

instance [Wire α] [Bounded α] : Bounded (List α) where
  Fits as := as.length < UInt32.size ∧ ∀ a ∈ as, Fits a
  sized_of_fits h := Bool.and_eq_true_iff.2
    ⟨decide_eq_true h.1, List.all_eq_true.2 fun a ha => sized_of_fits (h.2 a ha)⟩
  readsBack h := .list h.1 fun a ha => Bounded.readsBack (h.2 a ha)

theorem of_decodeItems [Wire α] [Bounded α] [Exact α] {n : Nat} {done as : List α}
    (h : decodeItems n done s = .ok (as, rest)) :
    ∃ bs, as = done.reverse ++ bs ∧ bs.length = n ∧ (∀ b ∈ bs, Fits b) ∧
      s = bs.flatMap pack ++ rest := by
  induction n generalizing done s with
  | zero =>
    cases h
    exact ⟨[], by simp⟩
  | succ n ih =>
    rw [decodeItems] at h
    cases hd : decode (α := α) s with
    | error fault => simp [hd] at h
    | ok p =>
      obtain ⟨a, t⟩ := p
      rw [hd] at h
      obtain ⟨hf, rfl⟩ := Exact.of_decode hd
      obtain ⟨bs, rfl, rfl, hbs, rfl⟩ := ih h
      refine ⟨a :: bs, by simp, rfl, List.forall_mem_cons.2 ⟨hf, hbs⟩, by simp⟩

instance [Wire α] [Bounded α] [Exact α] : Exact (List α) where
  of_decode {s as rest} h := by
    obtain ⟨⟨n, t⟩, hn, hr⟩ := bind_eq_ok.1 h
    obtain ⟨hlt, rfl⟩ := of_takeNat hn
    have hitems : decodeItems n [] t = .ok (as, rest) := hr
    obtain ⟨bs, hbs, rfl, hf, rfl⟩ := of_decodeItems hitems
    obtain rfl : as = bs := hbs
    refine ⟨⟨hlt, hf⟩, ?_⟩
    change _ = (Bytes.ofNatLE 4 as.length ++ as.flatMap pack) ++ rest
    rw [List.append_assoc]

theorem fits_bytes {body : Bytes} : Fits body ↔ body.length < UInt32.size :=
  ⟨fun h => h.1, fun h => ⟨h, fun _ _ => trivial⟩⟩

theorem fits_of_sized {body : Bytes} (h : sized body = true) : Fits body :=
  fits_bytes.2 (of_decide_eq_true (Bool.and_eq_true_iff.1 h).1)

instance : Bounded String where
  Fits text := Fits (Bytes.ofString text)
  sized_of_fits h := sized_of_fits (α := Bytes) h
  readsBack h := readsBack_string h.1

instance : Exact String where
  of_decode {s text rest} h := by
    obtain ⟨⟨body, t⟩, hb, hr⟩ := bind_eq_ok.1 h
    obtain ⟨hf, rfl⟩ := Exact.of_decode hb
    cases hu : Utf8.decode body with
    | error fault =>
      simp only [hu] at hr
      cases hr
    | ok text' =>
      simp only [hu] at hr
      cases hr
      obtain rfl := Utf8.eq_ofString_of_decode hu
      exact ⟨hf, rfl⟩

end Lists

section Parts

theorem readsBack_none [Wire α] : ReadsBack (none : Option α) := fun _ => rfl

theorem ReadsBack.some [Wire α] {a : α} (h : ReadsBack a) : ReadsBack (some a) := fun s =>
  h.bind s _

instance [Wire α] [Bounded α] : Bounded (Option α) where
  Fits a? := ∀ a ∈ a?, Fits a
  sized_of_fits {a?} h := by
    cases a? with
    | none => rfl
    | some a =>
      change sized a = true
      exact sized_of_fits (h a rfl)
  readsBack {a?} h := by
    cases a? with
    | none => exact readsBack_none
    | some a => exact (Bounded.readsBack (h a rfl)).some

instance [Wire α] [Bounded α] [Exact α] : Exact (Option α) where
  of_decode {s a? rest} h := by
    cases s with
    | nil => cases h
    | cons tag s =>
      by_cases h0 : tag = 0
      · simp only [decode, h0, if_true] at h
        cases h
        exact ⟨nofun, by rw [h0]; rfl⟩
      · by_cases h1 : tag = 1
        · simp only [decode, h1, if_true] at h
          obtain ⟨⟨a, t⟩, ha, h⟩ := bind_eq_ok.1 h
          cases h
          obtain ⟨hf, rfl⟩ := Exact.of_decode ha
          refine ⟨fun b hb => ?_, by rw [h1]; rfl⟩
          cases hb
          exact hf
        · simp only [decode, h0, h1, if_false] at h
          cases h

instance [Wire α] [Wire β] [Bounded α] [Bounded β] : Bounded (α × β) where
  Fits p := Fits p.1 ∧ Fits p.2
  sized_of_fits h := Bool.and_eq_true_iff.2 ⟨sized_of_fits h.1, sized_of_fits h.2⟩
  readsBack h := (Bounded.readsBack h.1).pair (Bounded.readsBack h.2)

instance [Wire α] [Wire β] [Bounded α] [Bounded β] [Exact α] [Exact β] : Exact (α × β) where
  of_decode {s p rest} h := by
    obtain ⟨⟨a, t⟩, ha, h⟩ := bind_eq_ok.1 h
    obtain ⟨⟨b, u⟩, hb, h⟩ := bind_eq_ok.1 h
    cases h
    obtain ⟨hfa, rfl⟩ := Exact.of_decode ha
    obtain ⟨hfb, rfl⟩ := Exact.of_decode hb
    refine ⟨⟨hfa, hfb⟩, ?_⟩
    change _ = (pack a ++ pack b) ++ rest
    rw [List.append_assoc]

theorem decodeAs_pack [Wire β] {b : β} (h : ReadsBack b) (make : β → α) (s : Bytes) :
    decodeAs make (pack b ++ s) = .ok (make b, s) := h.bind s _

theorem ReadsBack.alternative [Wire α] [Wire β] {b : β} {tag : UInt8} (h : ReadsBack b)
    (make : β → α) (he : pack (make b) = tag :: pack b)
    (hd : ∀ s, decode (tag :: s) = decodeAs make s) : ReadsBack (make b) := by
  intro s
  rw [he, List.cons_append, hd, decodeAs_pack h]

theorem of_decodeAs [Wire β] [Bounded β] [Exact β] {make : β → α} {a : α}
    (h : decodeAs make s = .ok (a, rest)) :
    ∃ b, a = make b ∧ Fits b ∧ s = pack b ++ rest := by
  obtain ⟨⟨b, t⟩, hb, h⟩ := bind_eq_ok.1 h
  cases h
  obtain ⟨hf, rfl⟩ := Exact.of_decode hb
  exact ⟨b, rfl, hf, rfl⟩

/-- A type whose values are written as their fields in turn, and read by them. -/
class Fields (α : Type) (β : outParam Type) [Wire α] [Wire β] where
  toFields : α → β
  ofFields : β → α
  pack_eq : ∀ a : α, pack a = pack (toFields a) := by intro; rfl
  sized_eq : ∀ a : α, sized a = sized (toFields a) := by intro; rfl
  decode_eq : ∀ s : Bytes, decode s = decodeAs ofFields s := by intro; rfl
  ofFields_toFields : ∀ a, ofFields (toFields a) = a := by intro; rfl
  toFields_ofFields : ∀ b, toFields (ofFields b) = b := by intro; rfl

open Fields

instance [Wire α] [Wire β] [Fields α β] [Bounded β] : Bounded α where
  Fits a := Fits (toFields a)
  sized_of_fits {a} h := (sized_eq a).trans (sized_of_fits h)
  readsBack {a} h s := by
    rw [pack_eq, decode_eq, decodeAs_pack (Bounded.readsBack h), ofFields_toFields]

instance [Wire α] [Wire β] [Fields α β] [Bounded β] [Exact β] : Exact α where
  of_decode {s a rest} h := by
    rw [decode_eq] at h
    obtain ⟨b, rfl, hb, rfl⟩ := of_decodeAs h
    have hf : toFields (ofFields b : α) = b := toFields_ofFields b
    refine ⟨?_, by rw [pack_eq (ofFields b : α), hf]⟩
    change Fits (toFields (ofFields b : α))
    rwa [hf]

theorem of_decodeVariant {alternative : UInt8 → Bytes → Except Fault (α × Bytes)} {a : α}
    (h : decodeVariant alternative s = .ok (a, rest)) :
    ∃ tag t, s = tag :: t ∧ alternative tag t = .ok (a, rest) := by
  cases s with
  | nil => cases h
  | cons tag t => exact ⟨tag, t, rfl, h⟩

end Parts

end Wire

open Wire

instance : Fields PointCode (Octets 33) where
  toFields := PointCode.octets
  ofFields := PointCode.mk

instance : Fields StateRef (Digest × UInt32) where
  toFields x := (x.tx, x.index)
  ofFields := fun (tx, index) => ⟨tx, index⟩

theorem Octets.fits {n : Nat} (a : Octets n) : Fits a := trivial

theorem PointCode.fits (a : PointCode) : Fits a := a.octets.fits

theorem StateRef.fits (x : StateRef) : Fits x := ⟨x.tx.fits, trivial⟩

end LedgerNotary
