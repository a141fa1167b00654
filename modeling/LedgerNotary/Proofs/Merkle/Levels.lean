import LedgerNotary.Commitment
import Mathlib.Algebra.Group.Nat.Defs
import Mathlib.Data.Nat.Log

/-! Building up a list level by level, whatever neighbours are joined to.

The levels over a list of digests, of subtrees and of blocks of elements arise in the same way, and
a map between two ways to join carries one into the other. Blocks joined end to end give the list
`pad l`: `l` extended to a power of two by the repetitions that an odd level brings. -/

namespace LedgerNotary.Merkle

variable {α β : Type}

/-- Neighbours joined; an odd last one joined with itself. -/
def pairUp (join : α → α → α) : List α → List α
  | a :: b :: rest => join a b :: pairUp join rest
  | [a] => [join a a]
  | [] => []

theorem pairUp_parent (level : List Digest) : pairUp parent level = nextLevel level := by
  fun_induction nextLevel level with
  | case1 a b rest ih => simp [pairUp, ih]
  | case2 a => rfl
  | case3 => rfl

@[simp] theorem length_pairUp (join : α → α → α) (l : List α) :
    (pairUp join l).length = (l.length + 1) / 2 := by
  fun_induction pairUp join l <;> grind

theorem map_pairUp (f : α → β) (join : α → α → α) (join' : β → β → β)
    (hf : ∀ a b, f (join a b) = join' (f a) (f b)) (l : List α) :
    (pairUp join l).map f = pairUp join' (l.map f) := by
  fun_induction pairUp join l with
  | case1 a b rest ih => simp [pairUp, hf, ih]
  | case2 a => simp [pairUp, hf]
  | case3 => rfl

def rise (join : α → α → α) : Nat → List α → List α
  | 0, l => l
  | h + 1, l => rise join h (pairUp join l)

theorem map_rise (f : α → β) (join : α → α → α) (join' : β → β → β)
    (hf : ∀ a b, f (join a b) = join' (f a) (f b)) (h : Nat) (l : List α) :
    (rise join h l).map f = rise join' h (l.map f) := by
  induction h generalizing l with
  | zero => rfl
  | succ h ih => simp only [rise, ih, map_pairUp f join join' hf]

theorem rise_add (join : α → α → α) (g h : Nat) (l : List α) :
    rise join (g + h) l = rise join h (rise join g l) := by
  induction g generalizing l with
  | zero => simp [rise]
  | succ g ih => rw [Nat.succ_add, rise, ih]; rfl

/-- What holds of a list's elements and is kept by joining holds of every level, at its height. -/
theorem forall_mem_rise (join : α → α → α) (P : Nat → α → Prop)
    (hj : ∀ k a b, P k a → P k b → P (k + 1) (join a b)) (h k : Nat) {l : List α}
    (hl : ∀ a ∈ l, P k a) : ∀ a ∈ rise join h l, P (k + h) a := by
  induction h generalizing k l with
  | zero => exact hl
  | succ h ih =>
    have hp : ∀ a ∈ pairUp join l, P (k + 1) a := by
      fun_induction pairUp join l with
      | case1 a b rest ihp => grind
      | case2 a => grind
      | case3 => simp
    have hr := ih (k + 1) hp
    rwa [Nat.add_assoc, Nat.add_comm 1 h] at hr

theorem two_le_length {l : List α} (h₀ : l ≠ []) (h₁ : ∀ a, l ≠ [a]) : 2 ≤ l.length := by
  have hpos := List.length_pos_iff.2 h₀
  have hone : l.length ≠ 1 := by
    intro h
    obtain ⟨a, ha⟩ := List.length_eq_one_iff.1 h
    exact h₁ a ha
  omega

/-- How many rounds it takes to come from a list to a single element. -/
def height (l : List α) : Nat := Nat.clog 2 l.length

@[simp] theorem height_map (f : α → β) (l : List α) : height (l.map f) = height l := by
  simp [height]

theorem height_pairUp (join : α → α → α) {l : List α} (h : 2 ≤ l.length) :
    height l = height (pairUp join l) + 1 := by
  rw [height, height, length_pairUp, Nat.clog_of_two_le (by decide) h]
  rfl

theorem length_le_two_pow_height (l : List α) : l.length ≤ 2 ^ height l :=
  Nat.le_pow_clog (by decide) _

theorem two_le_length_of_height {l : List α} {h : Nat} (hl : height l = h + 1) :
    2 ≤ l.length := by
  by_contra hn
  rw [height, Nat.clog_of_right_le_one (by omega)] at hl
  omega

theorem height_rise (join : α → α → α) {h : Nat} {l : List α} (hh : h ≤ height l) :
    height (rise join h l) = height l - h := by
  induction h generalizing l with
  | zero => simp [rise]
  | succ h ih =>
    obtain ⟨n, hn⟩ : ∃ n, height l = n + 1 := ⟨height l - 1, by omega⟩
    have hp := height_pairUp join (two_le_length_of_height hn)
    rw [rise, ih (by omega)]
    omega

theorem exists_rise_height (join : α → α → α) {l : List α} (h : l ≠ []) :
    ∃ a, rise join (height l) l = [a] := by
  induction hn : height l generalizing l with
  | zero =>
    have hpos := List.length_pos_iff.2 h
    have hle := length_le_two_pow_height l
    rw [hn] at hle
    have hone : l.length = 1 := by omega
    obtain ⟨a, rfl⟩ := List.length_eq_one_iff.1 hone
    exact ⟨a, rfl⟩
  | succ n ih =>
    have h2 := two_le_length_of_height hn
    have hp := height_pairUp join h2
    have hl := length_pairUp join l
    have hne : pairUp join l ≠ [] := by
      intro e
      rw [e, List.length_nil] at hl
      omega
    exact ih hne (by omega)

/-- What the levels over a list come down to. -/
def top? (join : α → α → α) (l : List α) : Option α := (rise join (height l) l).head?

theorem top?_eq_some {join : α → α → α} {l : List α} (h : l ≠ []) {a : α} :
    top? join l = some a ↔ rise join (height l) l = [a] := by
  obtain ⟨b, hb⟩ := exists_rise_height join h
  simp [top?, hb]

theorem exists_top? (join : α → α → α) {l : List α} (h : l ≠ []) : ∃ a, top? join l = some a := by
  obtain ⟨a, ha⟩ := exists_rise_height join h
  exact ⟨a, (top?_eq_some h).2 ha⟩

theorem ne_nil_of_top? {join : α → α → α} {l : List α} {a : α} (h : top? join l = some a) :
    l ≠ [] := by
  rintro rfl
  simp [top?, height, rise] at h

theorem top?_pairUp (join : α → α → α) {l : List α} (h : 2 ≤ l.length) :
    top? join l = top? join (pairUp join l) := by
  rw [top?, top?, height_pairUp join h, rise]

theorem map_top? (f : α → β) (join : α → α → α) (join' : β → β → β)
    (hf : ∀ a b, f (join a b) = join' (f a) (f b)) (l : List α) :
    (top? join l).map f = top? join' (l.map f) := by
  rw [top?, top?, ← List.head?_map, map_rise f join join' hf, height_map]

theorem root?_eq_top? (leaves : List Digest) : root? leaves = top? parent leaves := by
  have key : ∀ levels level, List.length level ≤ levels →
      reduce levels level = top? parent level := by
    intro levels level hl
    fun_induction reduce levels level with
    | case1 => rfl
    | case2 => rfl
    | case3 level h₀ h₁ => exact absurd (List.length_eq_zero_iff.1 (by omega)) h₀
    | case4 levels level h₀ h₁ ih =>
      have h2 := two_le_length h₀ h₁
      rw [ih (by have := length_nextLevel level; omega), top?_pairUp parent h2, pairUp_parent]
  exact key _ _ (Nat.le_refl _)

/-! The list that a tree over `l` really has at its foot: `l` extended to a power of two, each odd
level repeating its last block. Nothing but repetitions is added behind `l`, so a list without
repetitions is the shortest among those with its extension. -/

def singles (l : List α) : List (List α) := l.map ([·])

@[simp] theorem height_singles (l : List α) : height (singles l) = height l := by simp [singles]

@[simp] theorem flatten_singles (l : List α) : (singles l).flatten = l := by
  induction l <;> simp_all [singles]

theorem mem_flatten_pairUp {bs : List (List α)} {a : α} :
    a ∈ (pairUp (· ++ ·) bs).flatten ↔ a ∈ bs.flatten := by
  fun_induction pairUp (· ++ ·) bs with
  | case1 b c rest ih => simp only [List.flatten_cons, List.mem_append, ih, or_assoc]
  | case2 b => simp
  | case3 => rfl

theorem mem_flatten_rise {h : Nat} {bs : List (List α)} {a : α} :
    a ∈ (rise (· ++ ·) h bs).flatten ↔ a ∈ bs.flatten := by
  induction h generalizing bs with
  | zero => rfl
  | succ h ih => rw [rise, ih, mem_flatten_pairUp]

theorem flatten_prefix_pairUp (bs : List (List α)) :
    bs.flatten <+: (pairUp (· ++ ·) bs).flatten := by
  fun_induction pairUp (· ++ ·) bs with
  | case1 b c rest ih => simpa using ih
  | case2 b => simp
  | case3 => simp

theorem flatten_prefix_rise (h : Nat) (bs : List (List α)) :
    bs.flatten <+: (rise (· ++ ·) h bs).flatten := by
  induction h generalizing bs with
  | zero => exact List.prefix_rfl
  | succ h ih => exact (flatten_prefix_pairUp bs).trans (ih _)

/-- The list extended to a power of two, level by level. -/
def pad (l : List α) : List α := (top? (· ++ ·) (singles l)).getD []

@[simp] theorem pad_nil : pad ([] : List α) = [] := by
  simp [pad, singles, top?, height, rise]

theorem rise_singles {l : List α} (h : l ≠ []) :
    rise (· ++ ·) (height l) (singles l) = [pad l] := by
  have hs : singles l ≠ [] := by simpa [singles] using h
  obtain ⟨p, hp⟩ := exists_top? (· ++ ·) hs
  rw [pad, hp, Option.getD_some]
  simpa using (top?_eq_some hs).1 hp

theorem prefix_pad (l : List α) : l <+: pad l := by
  by_cases h : l = []
  · simp [h]
  · have hp := flatten_prefix_rise (height l) (singles l)
    simpa [rise_singles h] using hp

@[simp] theorem mem_pad {l : List α} {a : α} : a ∈ pad l ↔ a ∈ l := by
  by_cases h : l = []
  · rw [h, pad_nil]
  · have hm : a ∈ (rise (· ++ ·) (height l) (singles l)).flatten ↔ a ∈ (singles l).flatten :=
      mem_flatten_rise
    simpa [rise_singles h] using hm

theorem length_pad {l : List α} (h : l ≠ []) : (pad l).length = 2 ^ height l := by
  have hb : ∀ b ∈ rise (· ++ ·) (height l) (singles l), b.length = 2 ^ (0 + height l) :=
    forall_mem_rise (· ++ ·) (fun k (b : List α) => b.length = 2 ^ k)
      (fun k a b ha hb => by simp [ha, hb, Nat.pow_succ, Nat.mul_two]) _ _ (by simp [singles])
  rw [rise_singles h] at hb
  simpa using hb (pad l) (by simp)

theorem map_pad (f : α → β) (l : List α) : (pad l).map f = pad (l.map f) := by
  have hm : (top? (· ++ ·) (singles l)).map (List.map f) = top? (· ++ ·) (singles (l.map f)) := by
    rw [map_top? (List.map f) _ _ (fun a b => List.map_append), singles, singles, List.map_map,
      List.map_map]
    rfl
  rw [pad, pad, ← hm]
  cases top? (· ++ ·) (singles l) <;> simp

theorem getElem?_eq_of_pad_eq {l m : List α} (h : pad l = pad m) {i : Nat} (hl : i < l.length)
    (hm : i < m.length) : l[i]? = m[i]? := by
  obtain ⟨r, hr⟩ := prefix_pad l
  obtain ⟨s, hs⟩ := prefix_pad m
  have he : l ++ r = m ++ s := by rw [hr, hs, h]
  calc
    l[i]? = (l ++ r)[i]? := (List.getElem?_append_left hl).symm
    _ = (m ++ s)[i]? := by rw [he]
    _ = m[i]? := List.getElem?_append_left hm

/-- Of the lists with one extension, one without repetitions is the shortest. -/
theorem prefix_of_pad_eq {l m : List α} (h : pad l = pad m) (hl : l.Nodup) : l <+: m := by
  have hm : m <+: pad l := h ▸ prefix_pad m
  rcases List.prefix_or_prefix_of_prefix (prefix_pad l) hm with hlm | ⟨r, rfl⟩
  · exact hlm
  · have hr : r = [] := by
      apply List.eq_nil_iff_forall_not_mem.2 fun a ha => ?_
      have ham : a ∈ m := by
        rw [← mem_pad, ← h, mem_pad]
        exact List.mem_append_right m ha
      exact (List.nodup_append.1 hl).2.2 a ham a ha rfl
    simp [hr]

end LedgerNotary.Merkle
