import LedgerNotary.Proofs.Json.Token

/-! What is printed for a value is read as this value with the members of its objects in order.

The reader looks at one character behind a value, so it is enough that a number cannot go on there.
It may go as many levels down as the text has characters, and every level that a value takes has a
bracket or a comma of its own. -/

namespace LedgerNotary.Json

variable {lines : Bool} {depth fuel : Nat} {v : Json}

section Order

mutual
def sorted : Json → Json
  | .arr items => .arr (sortedItems items)
  | .obj members => ofMembers (sortedMembers members)
  | v => v

def sortedItems : List Json → List Json
  | [] => []
  | v :: vs => sorted v :: sortedItems vs

def sortedMembers : List (String × Json) → List (String × Json)
  | [] => []
  | (name, v) :: ms => (name, sorted v) :: sortedMembers ms
end

theorem sorted_arr (items : List Json) : sorted (.arr items) = .arr (items.map sorted) := by
  have h : sortedItems items = items.map sorted := by
    induction items with
    | nil => rfl
    | cons v vs ih => rw [sortedItems, ih, List.map_cons]
  rw [sorted, h]

theorem sorted_obj (members : List (String × Json)) :
    sorted (.obj members) = ofMembers (members.map fun m => (m.1, sorted m.2)) := by
  have h : sortedMembers members = members.map fun m => (m.1, sorted m.2) := by
    induction members with
    | nil => rfl
    | cons m ms ih => rw [sortedMembers, ih, List.map_cons]
  rw [sorted, h]

end Order

section Blanks

variable {blanks s : List Char}

theorem skipBlanks_append (h : ∀ c ∈ blanks, isBlank c = true) :
    skipBlanks (blanks ++ s) = skipBlanks s := List.dropWhile_append_of_pos h

theorem skipBlanks_cons {c : Char} (h : isBlank c = false) : skipBlanks (c :: s) = c :: s :=
  List.dropWhile_cons_of_neg (by simp [h])

theorem value?_append (h : ∀ c ∈ blanks, isBlank c = true) :
    value? fuel (blanks ++ s) = value? fuel s := by
  cases fuel with
  | zero => rfl
  | succ fuel => simp only [value?, skipBlanks_append h]

theorem items?_append {done : List Json} (h : ∀ c ∈ blanks, isBlank c = true) :
    items? fuel done (blanks ++ s) = items? fuel done s := by
  cases fuel with
  | zero => rfl
  | succ fuel => simp only [items?, value?_append h]

theorem members?_append {done : List (String × Json)} (h : ∀ c ∈ blanks, isBlank c = true) :
    members? fuel done (blanks ++ s) = members? fuel done s := by
  cases fuel with
  | zero => rfl
  | succ fuel => simp only [members?, skipBlanks_append h]

theorem ends_of_isBlank {c : Char} (h : isBlank c = true) : Ends (c :: s) := by
  simp only [isBlank, Bool.or_eq_true, decide_eq_true_eq] at h
  rcases h with ((rfl | rfl) | rfl) | rfl <;> simp

end Blanks

section Characters

mutual
theorem write_eq (lines : Bool) (depth : Nat) (out : String) :
    ∀ v, write lines depth out v = out ++ write lines depth "" v
  | .null | .bool _ | .int _ | .real _ | .str _ => by simp [write]
  | .arr [] | .obj [] => by simp [write]
  | .arr (v :: vs) => by
    rw [write, write, writeItems_eq, write_eq _ _ _ v, writeItems_eq _ _ (write _ _ _ v),
      write_eq _ _ ("" ++ _ ++ _) v]
    simp [String.append_assoc]
  | .obj ((name, v) :: ms) => by
    rw [write, write, writeMembers_eq, write_eq _ _ _ v, writeMembers_eq _ _ (write _ _ _ v),
      write_eq _ _ ("" ++ _ ++ _ ++ _ ++ _) v]
    simp [String.append_assoc]

theorem writeItems_eq (lines : Bool) (depth : Nat) (out : String) :
    ∀ vs, writeItems lines depth out vs = out ++ writeItems lines depth "" vs
  | [] => by simp [writeItems]
  | v :: vs => by
    rw [writeItems, writeItems, writeItems_eq, write_eq _ _ _ v, writeItems_eq _ _ (write _ _ _ v),
      write_eq _ _ ("" ++ _ ++ _) v]
    simp [String.append_assoc]

theorem writeMembers_eq (lines : Bool) (depth : Nat) (out : String) :
    ∀ ms, writeMembers lines depth out ms = out ++ writeMembers lines depth "" ms
  | [] => by simp [writeMembers]
  | (name, v) :: ms => by
    rw [writeMembers, writeMembers, writeMembers_eq, write_eq _ _ _ v,
      writeMembers_eq _ _ (write _ _ _ v), write_eq _ _ ("" ++ _ ++ _ ++ _ ++ _) v]
    simp [String.append_assoc]
end

def chars (lines : Bool) (depth : Nat) (v : Json) : List Char := (write lines depth "" v).toList

def gap (lines : Bool) (depth : Nat) : List Char := (lineBreak lines depth).toList

def quotedChars (text : String) : List Char :=
  '"' :: (text.toList.flatMap (fun c => (escaped c).toList) ++ ['"'])

def memberChars (lines : Bool) (depth : Nat) (m : String × Json) : List Char :=
  quotedChars m.1 ++ ((colon lines).toList ++ chars lines depth m.2)

/-- What stands behind the first element of an array or object, up to its end. -/
def following (lines : Bool) (depth : Nat) : List (List Char) → List Char
  | [] => gap lines depth
  | e :: es => ',' :: (gap lines (depth + 1) ++ (e ++ following lines depth es))

theorem isBlank_gap : ∀ c ∈ gap lines depth, isBlank c = true := by
  cases lines with
  | false => nofun
  | true =>
    intro c hc
    have hc : c = '\n' ∨ c ∈ List.replicate (2 * depth) ' ' := by simpa [gap, lineBreak] using hc
    rcases hc with rfl | hc
    · rfl
    · rw [List.eq_of_mem_replicate hc]
      rfl

theorem toList_quoted (text : String) : (quoted text).toList = quotedChars text := by
  have h : ∀ (cs : List Char) (out : String),
      (cs.foldl (fun out c => out ++ escaped c) out).toList =
        out.toList ++ cs.flatMap fun c => (escaped c).toList := by
    intro cs
    induction cs with
    | nil => simp
    | cons c cs ih => simp [ih]
  simp [quoted, quotedChars, h]

theorem chars_null : chars lines depth .null = ['n', 'u', 'l', 'l'] := by simp [chars, write]

theorem chars_true : chars lines depth (.bool true) = ['t', 'r', 'u', 'e'] := by
  simp [chars, write]

theorem chars_false : chars lines depth (.bool false) = ['f', 'a', 'l', 's', 'e'] := by
  simp [chars, write]

theorem chars_str (text : String) : chars lines depth (.str text) = quotedChars text := by
  simp [chars, write, toList_quoted]

theorem chars_natCast (n : Nat) : chars lines depth (.int n) = Nat.toDigits 10 n := by
  have hrepr : toString (n : Int) = n.repr := rfl
  simp [chars, write, hrepr]

theorem chars_negSucc (n : Nat) :
    chars lines depth (.int (.negSucc n)) = '-' :: Nat.toDigits 10 (n + 1) := by
  have hrepr : toString (Int.negSucc n) = "-" ++ (n + 1).repr := rfl
  simp [chars, write, hrepr]

theorem toList_writeItems (out : String) (vs : List Json) :
    (writeItems lines (depth + 1) out vs ++ lineBreak lines depth).toList =
      out.toList ++ following lines depth (vs.map (chars lines (depth + 1))) := by
  induction vs generalizing out with
  | nil => simp [writeItems, following, gap]
  | cons v vs ih =>
    rw [writeItems, ih, write_eq]
    simp [following, gap, chars]

theorem toList_writeMembers (out : String) (ms : List (String × Json)) :
    (writeMembers lines (depth + 1) out ms ++ lineBreak lines depth).toList =
      out.toList ++ following lines depth (ms.map (memberChars lines (depth + 1))) := by
  induction ms generalizing out with
  | nil => simp [writeMembers, following, gap]
  | cons m ms ih =>
    rw [writeMembers, ih, write_eq]
    simp [following, gap, memberChars, chars, toList_quoted]

theorem chars_arr_nil : chars lines depth (.arr []) = ['[', ']'] := by simp [chars, write]

theorem chars_arr_cons (v : Json) (vs : List Json) : chars lines depth (.arr (v :: vs)) =
    '[' :: (gap lines (depth + 1) ++ (chars lines (depth + 1) v ++
      (following lines depth (vs.map (chars lines (depth + 1))) ++ [']']))) := by
  rw [chars, write, String.toList_append, toList_writeItems, write_eq]
  simp [gap, chars]

theorem chars_obj_nil : chars lines depth (.obj []) = ['\x7b', '\x7d'] := by simp [chars, write]

theorem chars_obj_cons (m : String × Json) (ms : List (String × Json)) :
    chars lines depth (.obj (m :: ms)) =
      '\x7b' :: (gap lines (depth + 1) ++ (memberChars lines (depth + 1) m ++
        (following lines depth (ms.map (memberChars lines (depth + 1))) ++ ['\x7d']))) := by
  rw [chars, write, String.toList_append, toList_writeMembers, write_eq]
  simp [gap, memberChars, chars, toList_quoted]

end Characters

section Reading

variable {rest : List Char}

/-- All numbers in a value are integers of 64 bits. -/
inductive Plain : Json → Prop
  | null : Plain .null
  | bool (value : Bool) : Plain (.bool value)
  | int {n : Int} (low : -9223372036854775808 ≤ n) (high : n < 18446744073709551616) :
    Plain (.int n)
  | str (text : String) : Plain (.str text)
  | arr {items : List Json} (each : ∀ v ∈ items, Plain v) : Plain (.arr items)
  | obj {members : List (String × Json)} (each : ∀ m ∈ members, Plain m.2) : Plain (.obj members)

theorem isBlank_of_isDigit {c : Char} (h : c.isDigit = true) : isBlank c = false :=
  Bool.eq_false_iff.2 fun hb =>
    Bool.false_ne_true ((ends_cons.1 (ends_of_isBlank (s := []) hb)).1.symm.trans h)

theorem exists_toDigits_eq_cons (n : Nat) :
    ∃ c s, Nat.toDigits 10 n = c :: s ∧ c.isDigit = true := by
  obtain ⟨c, s, hs⟩ := List.exists_cons_of_ne_nil (Nat.toDigits_ne_nil : Nat.toDigits 10 n ≠ [])
  exact ⟨c, s, hs, isDigit_toDigits c (hs ▸ List.mem_cons_self)⟩

theorem value?_of_isDigit {c : Char} {s : List Char} (h : c.isDigit = true) :
    value? (fuel + 1) (c :: s) = number? false (c :: s) := by
  simp only [value?, skipBlanks_cons (isBlank_of_isDigit h)]
  split <;> simp_all

theorem value?_natCast {n : Nat} (hn : n < 18446744073709551616) (hr : Ends rest) :
    value? (fuel + 1) (Nat.toDigits 10 n ++ rest) = some (.int n, rest) := by
  obtain ⟨c, s, hs, hc⟩ := exists_toDigits_eq_cons n
  rw [hs, List.cons_append, value?_of_isDigit hc, ← List.cons_append, ← hs, number?_toDigits hr,
    if_neg (by simp), if_pos ⟨by simp, by omega⟩]

theorem value?_negSucc {n : Nat} (hn : n < 9223372036854775808) (hr : Ends rest) :
    value? (fuel + 1) ('-' :: (Nat.toDigits 10 (n + 1) ++ rest)) =
      some (.int (.negSucc n), rest) := by
  have hminus : value? (fuel + 1) ('-' :: (Nat.toDigits 10 (n + 1) ++ rest)) =
      number? true (Nat.toDigits 10 (n + 1) ++ rest) := rfl
  rw [hminus, number?_toDigits hr, if_pos ⟨rfl, by omega, by omega⟩, Int.negSucc_eq]
  rfl

theorem length_quotedChars (text : String) :
    text.toList.length + 2 ≤ (quotedChars text).length := by
  have h : ∀ cs : List Char, cs.length ≤ (cs.flatMap fun c => (escaped c).toList).length := by
    intro cs
    induction cs with
    | nil => simp
    | cons c cs ih =>
      have hc : 0 < (escaped c).toList.length := (escape_escaped c).length_pos
      rw [List.flatMap_cons, List.length_append, List.length_cons]
      omega
  have htext := h text.toList
  simp only [quotedChars, List.length_cons, List.length_append, List.length_nil]
  omega

theorem textFrom?_quotedChars (text : String) (fuel : Nat) (rest : List Char)
    (h : (quotedChars text).length ≤ fuel) :
    ∃ s, quotedChars text ++ rest = '"' :: s ∧ textFrom? fuel [] s = some (text, rest) := by
  have hlength := length_quotedChars text
  refine ⟨_, List.cons_append, ?_⟩
  rw [List.append_assoc, List.singleton_append]
  rw [textFrom?_quoted (by omega), List.reverse_nil, List.nil_append, String.ofList_toList]

/-- A value begins with a character that neither is passed over nor ends an array. -/
theorem exists_chars_eq_cons (h : Plain v) :
    ∃ c s, chars lines depth v = c :: s ∧ isBlank c = false ∧ c ≠ ']' := by
  cases h with
  | null => exact ⟨'n', _, chars_null, rfl, by decide⟩
  | bool value =>
    cases value with
    | false => exact ⟨'f', _, chars_false, rfl, by decide⟩
    | true => exact ⟨'t', _, chars_true, rfl, by decide⟩
  | @int n _ _ =>
    cases n with
    | ofNat n =>
      obtain ⟨c, s, hs, hc⟩ := exists_toDigits_eq_cons n
      exact ⟨c, s, (chars_natCast n).trans hs, isBlank_of_isDigit hc, fun h => by simp [h] at hc⟩
    | negSucc n => exact ⟨'-', _, chars_negSucc n, rfl, by decide⟩
  | str text => exact ⟨'"', _, chars_str text, rfl, by decide⟩
  | @arr items _ =>
    cases items with
    | nil => exact ⟨'[', _, chars_arr_nil, rfl, by decide⟩
    | cons v vs => exact ⟨'[', _, chars_arr_cons v vs, rfl, by decide⟩
  | @obj members _ =>
    cases members with
    | nil => exact ⟨'\x7b', _, chars_obj_nil, rfl, by decide⟩
    | cons m ms => exact ⟨'\x7b', _, chars_obj_cons m ms, rfl, by decide⟩

/-- The value is read from its characters, and no more than them. -/
def ReadsBack (lines : Bool) (v : Json) : Prop :=
  ∀ {depth fuel : Nat} {rest : List Char}, Ends rest → (chars lines depth v).length ≤ fuel →
    value? fuel (chars lines depth v ++ rest) = some (v.sorted, rest)

theorem ends_following {close : Char} (hc : Ends (close :: rest)) (es : List (List Char)) :
    Ends (following lines depth es ++ close :: rest) := by
  cases es with
  | nil =>
    rw [following]
    cases hg : gap lines depth with
    | nil => exact hc
    | cons c s => exact ends_of_isBlank (isBlank_gap c (hg ▸ List.mem_cons_self))
  | cons e es => simp [following]

theorem skipBlanks_following_nil {close : Char} (hc : isBlank close = false) :
    skipBlanks (following lines depth [] ++ close :: rest) = close :: rest := by
  rw [following, skipBlanks_append isBlank_gap, skipBlanks_cons hc]

theorem skipBlanks_following_cons {e : List Char} {es : List (List Char)} :
    skipBlanks (following lines depth (e :: es) ++ rest) =
      ',' :: (gap lines (depth + 1) ++ (e ++ (following lines depth es ++ rest))) := by
  simp only [following, List.cons_append, List.append_assoc]
  exact skipBlanks_cons rfl

theorem length_following_cons (lines : Bool) (depth : Nat) (e : List Char)
    (es : List (List Char)) :
    e.length + (following lines depth es).length < (following lines depth (e :: es)).length := by
  simp only [following, List.length_cons, List.length_append]
  omega

theorem items?_chars {vs : List Json} {done : List Json} (hr : ∀ w ∈ v :: vs, ReadsBack lines w)
    (hfuel : (chars lines (depth + 1) v).length +
      (following lines depth (vs.map (chars lines (depth + 1)))).length < fuel) :
    items? fuel done (chars lines (depth + 1) v ++
        (following lines depth (vs.map (chars lines (depth + 1))) ++ ']' :: rest)) =
      some (.arr (done.reverse ++ (v :: vs).map sorted), rest) := by
  induction vs generalizing v fuel done with
  | nil =>
    obtain ⟨fuel, rfl⟩ := Nat.exists_eq_add_one.2 (Nat.zero_lt_of_lt hfuel)
    have hends : Ends (following lines depth [] ++ ']' :: rest) := ends_following (by simp) _
    rw [List.map_nil, items?, hr v List.mem_cons_self hends (by omega)]
    simp only [skipBlanks_following_nil (show isBlank ']' = false from rfl), List.reverse_cons,
      List.map_cons, List.map_nil]
  | cons w vs ih =>
    obtain ⟨fuel, rfl⟩ := Nat.exists_eq_add_one.2 (Nat.zero_lt_of_lt hfuel)
    have hends : Ends (following lines depth ((w :: vs).map (chars lines (depth + 1))) ++
      ']' :: rest) := ends_following (by simp) _
    rw [items?, hr v List.mem_cons_self hends (by omega)]
    rw [List.map_cons] at hfuel
    -- The comma in front of the next item makes up for the level that this one took.
    have hlength := length_following_cons lines depth (chars lines (depth + 1) w)
      (vs.map (chars lines (depth + 1)))
    simp only [List.map_cons, skipBlanks_following_cons, items?_append isBlank_gap]
    rw [ih (fun u hu => hr u (List.mem_cons_of_mem _ hu)) (by omega)]
    simp

theorem members?_memberChars {m : String × Json} {done : List (String × Json)}
    (hm : ReadsBack lines m.2) (hr : Ends rest)
    (hfuel : (memberChars lines depth m).length ≤ fuel) :
    (∀ s, skipBlanks rest = ',' :: s →
      members? (fuel + 1) done (memberChars lines depth m ++ rest) =
        members? fuel ((m.1, m.2.sorted) :: done) s) ∧
    ∀ s, skipBlanks rest = '\x7d' :: s →
      members? (fuel + 1) done (memberChars lines depth m ++ rest) =
        some (ofMembers ((m.1, m.2.sorted) :: done).reverse, s) := by
  obtain ⟨blanks, hcolon, hblanks⟩ : ∃ blanks, (colon lines).toList = ':' :: blanks ∧
      ∀ c ∈ blanks, isBlank c = true := by
    cases lines with
    | false => exact ⟨[], rfl, nofun⟩
    | true => exact ⟨[' '], rfl, by simp [isBlank]⟩
  rw [memberChars, List.length_append, List.length_append] at hfuel
  obtain ⟨s, hs, hname⟩ := textFrom?_quotedChars m.1 (fuel + 1)
    (':' :: (blanks ++ (chars lines depth m.2 ++ rest))) (by omega)
  have hchars : memberChars lines depth m ++ rest = '"' :: s := by
    rw [← hs, memberChars, hcolon]
    simp
  rw [hchars, members?, skipBlanks_cons rfl]
  simp only [hname]
  rw [skipBlanks_cons rfl]
  have hvalue : value? fuel (chars lines depth m.2 ++ rest) = some (m.2.sorted, rest) :=
    hm hr (by omega)
  simp only [value?_append hblanks, hvalue]
  exact ⟨fun s h => by simp only [h], fun s h => by simp only [h]⟩

theorem members?_chars {m : String × Json} {ms done : List (String × Json)}
    (hr : ∀ l ∈ m :: ms, ReadsBack lines l.2)
    (hfuel : (memberChars lines (depth + 1) m).length +
      (following lines depth (ms.map (memberChars lines (depth + 1)))).length < fuel) :
    members? fuel done (memberChars lines (depth + 1) m ++
        (following lines depth (ms.map (memberChars lines (depth + 1))) ++ '\x7d' :: rest)) =
      some (ofMembers (done.reverse ++ (m :: ms).map fun l => (l.1, sorted l.2)), rest) := by
  induction ms generalizing m fuel done with
  | nil =>
    obtain ⟨fuel, rfl⟩ := Nat.exists_eq_add_one.2 (Nat.zero_lt_of_lt hfuel)
    have hends : Ends (following lines depth [] ++ '\x7d' :: rest) := ends_following (by simp) _
    have hm : (memberChars lines (depth + 1) m).length ≤ fuel := by omega
    obtain ⟨-, hlast⟩ := members?_memberChars (hr m List.mem_cons_self) hends hm
    rw [List.map_nil, hlast rest (skipBlanks_following_nil rfl)]
    simp
  | cons l ms ih =>
    obtain ⟨fuel, rfl⟩ := Nat.exists_eq_add_one.2 (Nat.zero_lt_of_lt hfuel)
    have hends : Ends (following lines depth ((l :: ms).map (memberChars lines (depth + 1))) ++
      '\x7d' :: rest) := ends_following (by simp) _
    have hm : (memberChars lines (depth + 1) m).length ≤ fuel := by omega
    obtain ⟨hnext, -⟩ := members?_memberChars (hr m List.mem_cons_self) hends hm
    rw [List.map_cons] at hfuel
    have hlength := length_following_cons lines depth (memberChars lines (depth + 1) l)
      (ms.map (memberChars lines (depth + 1)))
    rw [hnext _ skipBlanks_following_cons]
    simp only [List.map_cons, members?_append isBlank_gap]
    rw [ih (fun k hk => hr k (List.mem_cons_of_mem _ hk)) (by omega)]
    simp

/-- Every value takes a character, so there is a level to read it on. -/
theorem readsBack_of_succ (hp : Plain v)
    (h : ∀ {depth fuel : Nat} {rest : List Char}, Ends rest →
      (chars lines depth v).length ≤ fuel + 1 →
        value? (fuel + 1) (chars lines depth v ++ rest) = some (v.sorted, rest)) :
    ReadsBack lines v := by
  intro depth fuel rest hr hfuel
  obtain ⟨c, s, hs, -⟩ : ∃ c s, chars lines depth v = c :: s ∧ _ := exists_chars_eq_cons hp
  cases fuel with
  | zero =>
    rw [hs] at hfuel
    exact absurd hfuel (Nat.not_succ_le_zero _)
  | succ fuel => exact h hr hfuel

theorem value?_int {n : Int} (low : -9223372036854775808 ≤ n) (high : n < 18446744073709551616)
    (hr : Ends rest) :
    value? (fuel + 1) (chars lines depth (.int n) ++ rest) = some (.int n, rest) := by
  cases n with
  | ofNat n =>
    rw [Int.ofNat_eq_natCast] at high ⊢
    rw [chars_natCast]
    exact value?_natCast (by omega) hr
  | negSucc n =>
    rw [chars_negSucc]
    exact value?_negSucc (by omega) hr

theorem value?_arr {items : List Json} (hp : ∀ v ∈ items, Plain v)
    (hr : ∀ v ∈ items, ReadsBack lines v)
    (hfuel : (chars lines depth (.arr items)).length ≤ fuel + 1) :
    value? (fuel + 1) (chars lines depth (.arr items) ++ rest) =
      some ((Json.arr items).sorted, rest) := by
  cases items with
  | nil => rw [chars_arr_nil]; rfl
  | cons v vs =>
    rw [chars_arr_cons] at hfuel ⊢
    simp only [List.length_cons, List.length_append, List.length_nil] at hfuel
    obtain ⟨c, s, hs, hblank, hclose⟩ : ∃ c s, chars lines (depth + 1) v = c :: s ∧ _ :=
      exists_chars_eq_cons (hp v List.mem_cons_self)
    have hbody : items? fuel [] (chars lines (depth + 1) v ++
        (following lines depth (vs.map (chars lines (depth + 1))) ++ ']' :: rest)) =
          some ((Json.arr (v :: vs)).sorted, rest) := by
      rw [items?_chars hr (by omega), sorted_arr]
      rfl
    rw [← hbody]
    simp only [List.cons_append, List.append_assoc, List.nil_append]
    rw [value?, skipBlanks_cons rfl]
    simp only [skipBlanks_append isBlank_gap]
    rw [hs, List.cons_append, skipBlanks_cons hblank]
    simp [hclose]

theorem value?_obj {members : List (String × Json)} (hr : ∀ m ∈ members, ReadsBack lines m.2)
    (hfuel : (chars lines depth (.obj members)).length ≤ fuel + 1) :
    value? (fuel + 1) (chars lines depth (.obj members) ++ rest) =
      some ((Json.obj members).sorted, rest) := by
  cases members with
  | nil => rw [chars_obj_nil]; rfl
  | cons m ms =>
    rw [chars_obj_cons] at hfuel ⊢
    simp only [List.length_cons, List.length_append, List.length_nil] at hfuel
    have hbody : members? fuel [] (memberChars lines (depth + 1) m ++
        (following lines depth (ms.map (memberChars lines (depth + 1))) ++ '\x7d' :: rest)) =
          some ((Json.obj (m :: ms)).sorted, rest) := by
      rw [members?_chars hr (by omega), sorted_obj]
      rfl
    rw [← hbody]
    simp only [List.cons_append, List.append_assoc, List.nil_append]
    rw [value?, skipBlanks_cons rfl]
    simp only [skipBlanks_append isBlank_gap, memberChars, quotedChars, List.cons_append]
    rw [skipBlanks_cons rfl]
    rfl

theorem Plain.readsBack (h : Plain v) : ReadsBack lines v := by
  induction h with
  | null => exact readsBack_of_succ .null fun _ _ => by rw [chars_null]; rfl
  | bool value =>
    refine readsBack_of_succ (.bool value) fun _ _ => ?_
    cases value with
    | false => rw [chars_false]; rfl
    | true => rw [chars_true]; rfl
  | int low high => exact readsBack_of_succ (.int low high) fun hr _ => value?_int low high hr
  | str text =>
    refine readsBack_of_succ (.str text) fun {depth fuel rest} _ hfuel => ?_
    rw [chars_str] at hfuel ⊢
    obtain ⟨s, hs, htext⟩ := textFrom?_quotedChars text (fuel + 1) rest hfuel
    rw [hs, value?, skipBlanks_cons rfl]
    simp only [htext]
    rfl
  | arr each ih => exact readsBack_of_succ (.arr each) fun _ => value?_arr each ih
  | obj each ih => exact readsBack_of_succ (.obj each) fun _ => value?_obj ih

/-- The text of a value is read as the value, blanks behind it or not. -/
theorem parse?_write {blanks : String} (h : Plain v)
    (hb : ∀ c ∈ blanks.toList, isBlank c = true) :
    parse? (write lines 0 "" v ++ blanks) = some v.sorted := by
  have hends : Ends blanks.toList := by
    cases hs : blanks.toList with
    | nil => exact nofun
    | cons c s => exact ends_of_isBlank (hb c (hs ▸ List.mem_cons_self))
  have hvalue : value? ((chars lines 0 v ++ blanks.toList).length + 1)
      (chars lines 0 v ++ blanks.toList) = some (v.sorted, blanks.toList) :=
    h.readsBack hends (by rw [List.length_append]; omega)
  have hblanks : skipBlanks blanks.toList = [] := by
    rw [← List.append_nil blanks.toList, skipBlanks_append hb]
    rfl
  have htext : (write lines 0 "" v ++ blanks).toList = chars lines 0 v ++ blanks.toList :=
    String.toList_append
  simp only [parse?, htext, hvalue, hblanks, List.isEmpty_nil, if_true]

end Reading

end LedgerNotary.Json
