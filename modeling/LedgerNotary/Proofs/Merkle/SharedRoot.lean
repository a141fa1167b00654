import LedgerNotary.Proofs.Merkle.Tree
import Mathlib.Algebra.Divisibility.Basic
import Mathlib.Data.List.Infix
import Mathlib.Order.Bounds.Defs

/-! How a list grows to the next power of two.

The tree joins blocks; the list below it grows block by block. A level with an odd number of blocks
appends the last one once more, and from level to level the blocks become twice as long. The first
half of the extension always stands in the list itself, so what is appended comes from behind it. -/

namespace LedgerNotary.Merkle

variable {α : Type}

/-- An odd number of blocks of that size becomes even by the last one once more. -/
def evened (size : Nat) (l : List α) : List α :=
  if l.length / size % 2 = 1 then l ++ l.drop (l.length - size) else l

/-- The list evened on so many levels, the lowest with blocks of `2 ^ k`. -/
def evenedUp : Nat → Nat → List α → List α
  | 0, _, l => l
  | h + 1, k, l => evenedUp h (k + 1) (evened (2 ^ k) l)

/-- The list evened on every level below the root. -/
def extended (l : List α) : List α := evenedUp (height l) 0 l

theorem mem_evened {size : Nat} {l : List α} {a : α} : a ∈ evened size l ↔ a ∈ l := by
  unfold evened
  split
  · have hd : a ∈ l.drop (l.length - size) → a ∈ l := List.mem_of_mem_drop
    simpa using hd
  · rfl

theorem prefix_evened (size : Nat) (l : List α) : l <+: evened size l := by
  unfold evened
  split
  · exact List.prefix_append _ _
  · exact List.prefix_rfl

theorem mem_evenedUp {h k : Nat} {l : List α} {a : α} : a ∈ evenedUp h k l ↔ a ∈ l := by
  induction h generalizing k l with
  | zero => rfl
  | succ h ih => rw [evenedUp, ih, mem_evened]

theorem prefix_evenedUp (h k : Nat) (l : List α) : l <+: evenedUp h k l := by
  induction h generalizing k l with
  | zero => exact List.prefix_rfl
  | succ h ih => exact (prefix_evened _ l).trans (ih _ _)

theorem evenedUp_succ (h k : Nat) (l : List α) :
    evenedUp (h + 1) k l = evened (2 ^ (k + h)) (evenedUp h k l) := by
  induction h generalizing k l with
  | zero => rfl
  | succ h ih => rw [evenedUp, ih, evenedUp, Nat.add_right_comm, Nat.add_assoc]

theorem evened_append {size : Nat} (hs : 0 < size) {p : List α} (hp : 2 * size ∣ p.length)
    (l : List α) : evened size (p ++ l) = p ++ evened size l := by
  obtain ⟨n, hn⟩ := hp
  have hcount : (p ++ l).length / size = 2 * n + l.length / size := by
    rw [List.length_append, hn, Nat.mul_assoc, Nat.mul_left_comm, Nat.add_comm,
      Nat.add_mul_div_left _ _ hs, Nat.add_comm]
  have hparity : (p ++ l).length / size % 2 = l.length / size % 2 := by omega
  unfold evened
  rw [hparity]
  split
  · rename_i hodd
    have hle : size ≤ l.length := by
      by_contra hlt
      rw [Nat.div_eq_of_lt (Nat.lt_of_not_le hlt)] at hodd
      cases hodd
    have hlast : (p ++ l).length - size = p.length + (l.length - size) := by
      rw [List.length_append]
      omega
    rw [hlast, List.drop_length_add_append, List.append_assoc]
  · rfl

theorem evenedUp_append {h k : Nat} {p : List α} (hp : 2 ^ (k + h) ∣ p.length) (l : List α) :
    evenedUp h k (p ++ l) = p ++ evenedUp h k l := by
  induction h generalizing k l with
  | zero => rfl
  | succ h ih =>
    have hk : 2 * 2 ^ k ∣ p.length := by
      rw [← Nat.pow_succ']
      exact Nat.dvd_trans (Nat.pow_dvd_pow 2 (by omega)) hp
    rw [evenedUp, evened_append (Nat.two_pow_pos k) hk, ih (by rwa [Nat.add_right_comm]), evenedUp]

theorem flatten_pairUp {size : Nat} (hs : 0 < size) {bs : List (List α)}
    (hb : ∀ b ∈ bs, b.length = size) :
    (pairUp (· ++ ·) bs).flatten = evened size bs.flatten := by
  fun_induction pairUp (· ++ ·) bs with
  | case1 b c rest ih =>
    have hbc : (b ++ c).length = 2 * size := by
      rw [List.length_append, hb b (by simp), hb c (by simp), Nat.two_mul]
    rw [List.flatten_cons, List.flatten_cons, List.flatten_cons, ← List.append_assoc,
      evened_append hs (dvd_of_eq hbc.symm), ih fun d hd => hb d (by simp [hd])]
  | case2 b =>
    have hl : b.length = size := hb b (by simp)
    simp [evened, hl, Nat.div_self hs]
  | case3 => simp [evened]

theorem flatten_rise {h k : Nat} {bs : List (List α)} (hb : ∀ b ∈ bs, b.length = 2 ^ k) :
    (rise (· ++ ·) h bs).flatten = evenedUp h k bs.flatten := by
  induction h generalizing k bs with
  | zero => rfl
  | succ h ih =>
    have hp : ∀ b ∈ rise (· ++ ·) 1 bs, b.length = 2 ^ (k + 1) :=
      forall_mem_rise (· ++ ·) (fun k (b : List α) => b.length = 2 ^ k)
        (fun k a b ha hb => by simp [ha, hb, Nat.pow_succ, Nat.mul_two]) 1 k hb
    rw [evenedUp, ← flatten_pairUp (Nat.two_pow_pos k) hb]
    exact ih hp

/-- What the tree has at its foot is the extended list. -/
theorem pad_eq_extended (l : List α) : pad l = extended l := by
  by_cases h : l = []
  · simp [h, extended, height, evenedUp]
  · have hs : ∀ b ∈ singles l, b.length = 2 ^ 0 := by simp [singles]
    have hf : (rise (· ++ ·) (height l) (singles l)).flatten = extended (singles l).flatten := by
      rw [flatten_rise hs, flatten_singles, extended]
    rw [rise_singles h] at hf
    simpa using hf

theorem length_extended {l : List α} (h : l ≠ []) : (extended l).length = 2 ^ height l := by
  rw [← pad_eq_extended, length_pad h]

theorem prefix_extended (l : List α) : l <+: extended l := prefix_evenedUp _ _ l

theorem two_pow_lt_length {l : List α} {h : Nat} (hl : height l = h + 1) : 2 ^ h < l.length := by
  by_contra hn
  have hle : height l ≤ h := Nat.clog_le_of_le_pow (Nat.le_of_not_lt hn)
  omega

theorem extended_eq_take_append {l : List α} {h : Nat} (hl : height l = h + 1) :
    extended l = l.take (2 ^ h) ++ evenedUp h 0 (l.drop (2 ^ h)) := by
  have hlt := two_pow_lt_length hl
  have hhalf : (l.take (2 ^ h)).length = 2 ^ (0 + h) := by
    rw [List.length_take_of_le (Nat.le_of_lt hlt), Nat.zero_add]
  have hbelow : evenedUp h 0 l = l.take (2 ^ h) ++ evenedUp h 0 (l.drop (2 ^ h)) := by
    rw [← evenedUp_append (dvd_of_eq hhalf.symm), List.take_append_drop]
  have hlen := length_extended (List.length_pos_iff.1 (Nat.zero_lt_of_lt hlt))
  have hlong := (prefix_evenedUp h 0 l).length_le
  rw [extended, hl, evenedUp_succ, Nat.zero_add] at hlen ⊢
  unfold evened at hlen ⊢
  split
  · -- Blocks of that size are halves, and a third one is more than the extension holds.
    rename_i hodd
    rw [if_pos hodd, List.length_append, List.length_drop, Nat.pow_succ] at hlen
    omega
  · exact hbelow

/-- Six leaves are three pairs, so the last pair comes twice. -/
example : extended [1, 2, 3, 4, 5, 6] = [1, 2, 3, 4, 5, 6, 5, 6] := by decide

/-- The second list begins with the first and goes on as the extension of the first does; whatever
it adds comes from behind the first half. -/
structure Repetition (l m : List α) : Prop where
  begins : l <+: m
  goesOn : m <+: extended l
  trailing : ∀ a ∈ m.drop l.length, a ∈ l.drop (2 ^ (height l - 1))

theorem mem_drop_of_mem_extended {l : List α} {a : α} (ha : a ∈ (extended l).drop l.length) :
    a ∈ l.drop (2 ^ (height l - 1)) := by
  rcases hl : height l with _ | h
  · simp [extended, hl, evenedUp] at ha
  · have hlt := two_pow_lt_length hl
    have ht : (l.take (2 ^ h)).length ≤ l.length := List.length_take_le' _ _
    rw [extended_eq_take_append hl, List.drop_append, List.drop_eq_nil_of_le ht,
      List.nil_append] at ha
    exact mem_evenedUp.1 (List.mem_of_mem_drop ha)

theorem Repetition.of_begins {l m : List α} (hl : l <+: m) (hm : m <+: extended l) :
    Repetition l m where
  begins := hl
  goesOn := hm
  trailing _ ha := mem_drop_of_mem_extended ((hm.drop l.length).subset ha)

/-- Of two lists with one extension the longer repeats what is at the end of the shorter. -/
theorem repetition_of_extended_eq {l m : List α} (h : extended l = extended m) :
    Repetition l m ∨ Repetition m l := by
  have hl : l <+: extended m := h ▸ prefix_extended l
  rcases List.prefix_or_prefix_of_prefix hl (prefix_extended m) with hlm | hml
  · exact Or.inl (.of_begins hlm (h ▸ prefix_extended m))
  · exact Or.inr (.of_begins hml hl)

/-! When two lists of leaves have one root.

The root of a list is that of the perfect tree over its extension, and there is only one such tree.
So lists with one extension have one root, and without a collision no others do, as long as no leaf
is the digest of a node: a list of nodes has the root of the leaves below them. -/

namespace HashTree

theorem length_leaves_of_perfect {T : HashTree} {h : Nat} (hT : T.Perfect h) :
    T.leaves.length = 2 ^ h := by
  induction h generalizing T with
  | zero =>
    obtain ⟨d, rfl⟩ := perfect_zero.1 hT
    rfl
  | succ h ih =>
    obtain ⟨l, r, rfl, hl, hr⟩ := perfect_succ.1 hT
    rw [leaves, List.length_append, ih hl, ih hr, Nat.pow_succ, Nat.mul_two]

theorem eq_of_leaves_eq {T U : HashTree} {h : Nat} (hT : T.Perfect h) (hU : U.Perfect h)
    (he : T.leaves = U.leaves) : T = U := by
  induction h generalizing T U with
  | zero =>
    obtain ⟨d, rfl⟩ := perfect_zero.1 hT
    obtain ⟨e, rfl⟩ := perfect_zero.1 hU
    exact congrArg leaf (List.singleton_inj.1 he)
  | succ h ih =>
    obtain ⟨l, r, rfl, hl, hr⟩ := perfect_succ.1 hT
    obtain ⟨l', r', rfl, hl', hr'⟩ := perfect_succ.1 hU
    have hlen : l.leaves.length = l'.leaves.length := by
      rw [length_leaves_of_perfect hl, length_leaves_of_perfect hl']
    obtain ⟨hleft, hright⟩ := List.append_inj he hlen
    rw [ih hl hl' hleft, ih hr hr' hright]

end HashTree

structure PerfectOver (T : HashTree) (l : List Digest) : Prop where
  perfect : ∃ h, T.Perfect h
  leaves : T.leaves = l

theorem PerfectOver.unique {T U : HashTree} {l : List Digest} (hT : PerfectOver T l)
    (hU : PerfectOver U l) : T = U := by
  obtain ⟨h, hTh⟩ := hT.perfect
  obtain ⟨k, hUk⟩ := hU.perfect
  have hpow : 2 ^ h = 2 ^ k := by
    rw [← HashTree.length_leaves_of_perfect hTh, ← HashTree.length_leaves_of_perfect hUk,
      hT.leaves, hU.leaves]
  obtain rfl := Nat.pow_right_injective (Nat.le_refl 2) hpow
  exact HashTree.eq_of_leaves_eq hTh hUk (hT.leaves.trans hU.leaves.symm)

theorem exists_perfectOver {l : List Digest} (h : l ≠ []) :
    ∃ T, PerfectOver T (extended l) ∧ T.strings ⊆ rootStrings l ∧ root? l = some T.root := by
  obtain ⟨T, hT⟩ := HashTree.exists_over? h
  have hover : PerfectOver T (extended l) :=
    ⟨⟨_, HashTree.perfect_of_over? hT⟩, (HashTree.leaves_of_over? hT).trans (pad_eq_extended l)⟩
  exact ⟨T, hover, HashTree.strings_of_over? hT, HashTree.root?_of_over? hT⟩

/-- No leaf of either list is the digest of a node above either. -/
def Apart (l m : List Digest) : Prop :=
  ∀ d ∈ l ++ m, ∀ s ∈ rootStrings l ++ rootStrings m, Blake3.hash s ≠ d

instance (l m : List Digest) : Decidable (Apart l m) :=
  inferInstanceAs <| Decidable <|
    ∀ d ∈ l ++ m, ∀ s ∈ rootStrings l ++ rootStrings m, Blake3.hash s ≠ d

theorem root?_eq_of_extended_eq {l m : List Digest} (hl : l ≠ []) (hm : m ≠ [])
    (h : extended l = extended m) : root? l = root? m := by
  obtain ⟨T, hT, -, hTr⟩ := exists_perfectOver hl
  obtain ⟨U, hU, -, hUr⟩ := exists_perfectOver hm
  rw [hTr, hUr, hT.unique (h ▸ hU)]

theorem extended_eq_of_root?_eq {l m : List Digest}
    (free : ¬ Collision (rootStrings l ++ rootStrings m)) (apart : Apart l m) (hl : l ≠ [])
    (hm : m ≠ []) (h : root? l = root? m) : extended l = extended m := by
  obtain ⟨T, hT, hTs, hTr⟩ := exists_perfectOver hl
  obtain ⟨U, hU, hUs, hUr⟩ := exists_perfectOver hm
  rw [hTr, hUr, Option.some.injEq] at h
  have hTl : T.strings ⊆ rootStrings l ++ rootStrings m :=
    List.Subset.trans hTs (List.subset_append_left _ _)
  have hUm : U.strings ⊆ rootStrings l ++ rootStrings m :=
    List.Subset.trans hUs (List.subset_append_right _ _)
  have he : T = U := by
    refine HashTree.eq_of_root_eq free hTl hUm (fun d hd s hs => ?_) (fun d hd s hs => ?_) h
    · rw [hT.leaves, extended, mem_evenedUp] at hd
      exact apart d (List.mem_append_left _ hd) s (hUm hs)
    · rw [hU.leaves, extended, mem_evenedUp] at hd
      exact apart d (List.mem_append_right _ hd) s (hTl hs)
  rw [← hT.leaves, ← hU.leaves, he]

/-- The root of a list is that of the perfect tree over its extension to the next power of two. Two
lists apart from the nodes above them have one root exactly if they have one extension, and then the
longer one repeats what is at the end of the shorter. -/
theorem shared_root_iff {l : List Digest} (hl : l ≠ []) :
    (IsLeast {k | l.length ≤ 2 ^ k} (height l) ∧
      (extended l).length = 2 ^ height l ∧ l <+: extended l) ∧
    (∃! T, PerfectOver T (extended l)) ∧
    (∀ T, PerfectOver T (extended l) → root? l = some T.root) ∧
    ∀ m, m ≠ [] → Apart l m →
      (extended l = extended m → Repetition l m ∨ Repetition m l) ∧
      ((root? l = root? m ↔ extended l = extended m) ∨
        Collision (rootStrings l ++ rootStrings m)) := by
  obtain ⟨T, hT, -, hr⟩ := exists_perfectOver hl
  refine ⟨⟨⟨length_le_two_pow_height l, fun k hk => Nat.clog_le_of_le_pow hk⟩,
    length_extended hl, prefix_extended l⟩, ⟨T, hT, fun U hU => hU.unique hT⟩,
    fun U hU => ?_, fun m hm apart => ⟨repetition_of_extended_eq, ?_⟩⟩
  · rw [hr, hT.unique hU]
  · by_cases free : Collision (rootStrings l ++ rootStrings m)
    · exact Or.inr free
    · exact Or.inl ⟨extended_eq_of_root?_eq free apart hl hm, root?_eq_of_extended_eq hl hm⟩

def uniform (b : UInt8) : Digest := ⟨List.replicate 32 b, List.length_replicate⟩

def five : List Digest := [1, 2, 3, 4, 5].map uniform

def seven : List Digest := [1, 2, 3, 4, 5, 5, 5].map uniform

theorem apart_five_seven : Apart five seven := by decide +kernel

/-- Both lists grow to eight leaves, the first four and the fifth four times. -/
theorem shared_root_iff_fiveAndSeven :
    five ≠ [] ∧ seven ≠ [] ∧ Apart five seven ∧ Repetition five seven ∧
      (root? five = root? seven ∨ Collision (rootStrings five ++ rootStrings seven)) := by
  have hf : five ≠ [] := by decide
  have hs : seven ≠ [] := by decide
  have he : extended five = extended seven := by decide
  obtain ⟨-, -, -, hm⟩ := shared_root_iff hf
  obtain ⟨hrep, hiff⟩ := hm seven hs apart_five_seven
  have hr : Repetition five seven :=
    (hrep he).resolve_right fun h => absurd h.begins.length_le (by decide)
  exact ⟨hf, hs, apart_five_seven, hr, hiff.imp_left fun h => h.2 he⟩

end LedgerNotary.Merkle
