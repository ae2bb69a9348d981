/-
What the formatter reads: the bytes of a format and of a string, and the scan of one directive.

`Reads r p l`: the bytes l stand at p. A directive is '%', modifiers (flags, digits, '.', '#', 'l', '*') and the character
that ends it. The result of each scan is said for any reader that has these bytes, so that no other byte is read:
- `strnlen_reads`: the length of a string;
- `digits_reads`: a literal number is read to its last digit;
- `reswitch_reads`: the modifiers are read to the character that ends them, and each '*' takes one argument;
- `backscan_reads`: from the end of a directive back to its '%', because no modifier is a '%'.
-/
import Jos.Printf.Format

namespace Jos

open Jos.Lib

/-! ## Bytes at a pointer -/

namespace Ptr

/-- p + n -/
def skip : Ptr → ℕ → Ptr
  | .mem a, n => .mem (a + BitVec.ofNat 32 n)
  | .lit s i, n => .lit s (i + n)

@[simp] theorem skip_zero (p : Ptr) : p.skip 0 = p := by
  cases p with
  | mem a => exact congrArg Ptr.mem (BitVec.add_zero a)
  | lit s i => rfl

theorem skip_skip (p : Ptr) (n m : ℕ) : (p.skip n).skip m = p.skip (n + m) := by
  cases p with
  | mem a =>
    refine congrArg Ptr.mem ?_
    rw [BitVec.ofNat_add, BitVec.add_assoc]
  | lit s i => exact congrArg (Ptr.lit s) (Nat.add_assoc i n m)

theorem next_eq (p : Ptr) : p.next = p.skip 1 := by
  cases p <;> rfl

theorem skip_next (p : Ptr) (n : ℕ) : p.next.skip n = p.skip (n + 1) := by
  rw [next_eq, skip_skip, Nat.add_comm]

theorem prev_skip (p : Ptr) (n : ℕ) : (p.skip (n + 1)).prev = p.skip n := by
  cases p with
  | mem a =>
    refine congrArg Ptr.mem ?_
    rw [BitVec.ofNat_add, ← BitVec.add_assoc, BitVec.add_sub_cancel]
  | lit s i => rfl

end Ptr

/-- the bytes l stand at p -/
def Reads (r : Reader) (p : Ptr) (l : List Byte) : Prop := ∀ i c, l[i]? = some c → r (p.skip i) = some c

namespace Reads

variable {r : Reader} {p : Ptr} {c : Byte} {l l' : List Byte}

theorem head (h : Reads r p (c :: l)) : r.get p = .ok c := by
  have h0 := h 0 c rfl
  rw [Ptr.skip_zero] at h0
  rw [Reader.get, h0]

theorem tail (h : Reads r p (c :: l)) : Reads r p.next l := by
  intro i b hb
  rw [Ptr.skip_next]
  exact h (i + 1) b hb

theorem left (h : Reads r p (l ++ l')) : Reads r p l := by
  intro i b hb
  apply h i b
  obtain ⟨hi, -⟩ := List.getElem?_eq_some_iff.1 hb
  rw [List.getElem?_append_left hi]
  exact hb

theorem right (h : Reads r p (l ++ l')) : Reads r (p.skip l.length) l' := by
  intro i b hb
  rw [Ptr.skip_skip]
  apply h (l.length + i) b
  rw [List.getElem?_append_right (Nat.le_add_right _ _), Nat.add_sub_cancel_left]
  exact hb

/-- one more byte -/
theorem concat (h : Reads r p l) (hc : r (p.skip l.length) = some c) : Reads r p (l ++ [c]) := by
  intro i b hb
  have hi := (List.getElem?_eq_some_iff.1 hb).1
  rw [List.length_append, List.length_singleton] at hi
  rcases Nat.lt_succ_iff_lt_or_eq.1 hi with hlt | rfl
  · rw [List.getElem?_append_left hlt] at hb
    exact h i b hb
  · rw [List.getElem?_concat_length] at hb
    exact hc.trans hb

/-- a literal and its NUL, for a reader that has the literal -/
theorem lit (h : ∀ i, r (.lit l i) = litByte l i) : Reads r (.lit l 0) (l ++ [0#8]) := by
  intro i b hb
  change r (.lit l (0 + i)) = some b
  rw [Nat.zero_add, h]
  exact hb

end Reads

/-! ## Strings -/

theorem strnlen_reads {r : Reader} {l : List Byte} (h0 : 0#8 ∉ l) {p : Ptr} (h : Reads r p (l ++ [0#8])) {fuel : ℕ}
    (hf : l.length < fuel) (size n : Word) :
    strnlen r fuel p size n = .ok (n + BitVec.ofNat 32 (min l.length size.toNat)) := by
  induction l generalizing p fuel size n with
  | nil =>
    obtain ⟨fuel, rfl⟩ := Nat.exists_eq_add_of_lt hf
    rw [strnlen, h.head]
    simp [pure, Except.pure, bind, Except.bind]
  | cons c l ih =>
    obtain ⟨fuel, rfl⟩ := Nat.exists_eq_add_of_lt hf
    obtain ⟨hc, hl⟩ := not_or.1 (List.mem_cons.not.1 h0)
    rw [strnlen]
    by_cases hs : size = 0#32
    · rw [if_pos hs, hs]
      simp [pure, Except.pure]
    · have hget : r.get p = .ok c := Reads.head h
      have hpos := toNat_ne_zero hs
      have hmin : min (c :: l).length size.toNat = min l.length (size.toNat - 1) + 1 := by
        rw [List.length_cons]
        omega
      rw [if_neg hs, hget]
      change (if c = 0#8 then _ else _) = _
      rw [if_neg fun h => hc h.symm, ih hl (Reads.tail h) (by rw [List.length_cons]; omega), toNat_pred hs, hmin,
        Nat.add_comm _ 1, BitVec.ofNat_add, BitVec.add_assoc]

/-! ## Directives -/

def Digit (c : Byte) : Prop := chr '0' ≤ c ∧ c ≤ chr '9'

instance : DecidablePred Digit := fun c => inferInstanceAs (Decidable (chr '0' ≤ c ∧ c ≤ chr '9'))

/-- the characters after which the directive goes on -/
def Modifier (c : Byte) : Prop :=
  c = chr '-' ∨ Digit c ∨ c = chr '*' ∨ c = chr '.' ∨ c = chr '#' ∨ c = chr 'l'

instance : DecidablePred Modifier := fun c =>
  inferInstanceAs (Decidable (c = chr '-' ∨ Digit c ∨ c = chr '*' ∨ c = chr '.' ∨ c = chr '#' ∨ c = chr 'l'))

/-- the longest part at the beginning of l with p -/
theorem longest_prefix {α : Type} (p : α → Prop) [DecidablePred p] (l : List α) :
    ∃ a b, l = a ++ b ∧ (∀ x ∈ a, p x) ∧ ∀ x m, b = x :: m → ¬ p x := by
  induction l with
  | nil => exact ⟨[], [], rfl, fun x hx => absurd hx List.not_mem_nil, fun x m h => absurd h (List.cons_ne_nil x m).symm⟩
  | cons y l ih =>
    by_cases hy : p y
    · obtain ⟨a, b, rfl, ha, hb⟩ := ih
      refine ⟨y :: a, b, rfl, ?_, hb⟩
      intro x hx
      rcases List.mem_cons.1 hx with rfl | hx
      · exact hy
      · exact ha x hx
    · refine ⟨[], y :: l, rfl, fun x hx => absurd hx List.not_mem_nil, ?_⟩
      rintro x m h
      obtain ⟨rfl, -⟩ := List.cons.inj h
      exact hy

def conversions : List Byte := str "cesduopx%"

theorem Modifier.ne_percent {c : Byte} (h : Modifier c) : c ≠ chr '%' := by
  rintro rfl
  revert h
  decide

theorem Modifier.ne_zero {c : Byte} (h : Modifier c) : c ≠ 0#8 := by
  rintro rfl
  revert h
  decide

/-- one digit more -/
def decimal (precision : Word) (ch : Byte) : Word := precision * 10#32 + int ch - int (chr '0')

theorem digits_reads {r : Reader} {ds : List Byte} (hds : ∀ b ∈ ds, Digit b) {c : Byte} (hc : ¬ Digit c) {fmt : Ptr}
    (h : Reads r fmt (ds ++ [c])) {fuel : ℕ} (hf : ds.length < fuel) (ch : Byte) (precision : Word) :
    digits r fuel ch precision fmt = .ok (ds.foldl decimal (decimal precision ch), fmt.skip ds.length) := by
  have hnot : ∀ b : Byte, (b < chr '0' ∨ chr '9' < b) ↔ ¬ Digit b := by
    intro b
    rw [Digit, not_and_or, BitVec.not_le, BitVec.not_le]
  induction ds generalizing fmt fuel ch precision with
  | nil =>
    obtain ⟨fuel, rfl⟩ := Nat.exists_eq_add_of_lt hf
    rw [digits]
    refine Prog.except_bind_ok.2 ⟨c, Reads.head h, ?_⟩
    rw [if_pos ((hnot c).2 hc), List.length_nil, Ptr.skip_zero]
    rfl
  | cons b ds ih =>
    obtain ⟨fuel, rfl⟩ := Nat.exists_eq_add_of_lt hf
    have hb : Digit b := hds b List.mem_cons_self
    rw [digits]
    refine Prog.except_bind_ok.2 ⟨b, Reads.head h, ?_⟩
    rw [if_neg fun hb' => (hnot b).1 hb' hb, ih (fun x hx => hds x (List.mem_cons_of_mem b hx)) (Reads.tail h)
      (by rw [List.length_cons]; omega), Ptr.skip_next]
    rfl

theorem Digit.of_ne_zero {c : Byte} (h : Digit c) (h0 : c ≠ chr '0') : chr '1' ≤ c ∧ c ≤ chr '9' := by
  obtain ⟨hlo, hhi⟩ := h
  refine ⟨?_, hhi⟩
  have hne : c.toNat ≠ (chr '0').toNat := fun h => h0 (BitVec.eq_of_toNat_eq h)
  have hle : (chr '0').toNat ≤ c.toNat := hlo
  change (chr '1').toNat ≤ c.toNat
  simp [chr] at hne hle ⊢
  omega

section

variable (d : Dir) (precision : Word)

@[simp] theorem Dir.processPrecision_fmt : (d.processPrecision precision).fmt = d.fmt := by
  rw [processPrecision]
  split_ifs <;> rfl

@[simp] theorem Dir.processPrecision_ap : (d.processPrecision precision).ap = d.ap := by
  rw [processPrecision]
  split_ifs <;> rfl

@[simp] theorem Dir.processPrecision_lflag : (d.processPrecision precision).lflag = d.lflag := by
  rw [processPrecision]
  split_ifs <;> rfl

end

/-- the scan reads the modifiers mods and the character c that ends the directive, and leaves d' -/
structure Scanned (word : ℕ → Word) (d : Dir) (mods : List Byte) (c : Byte) (d' : Dir) : Prop where
  fmt : d'.fmt = d.fmt.skip (mods.length + 1)
  ap : d'.ap = d.ap + mods.count (chr '*')
  lflag : d'.lflag = d.lflag + BitVec.ofNat 32 (mods.count (chr 'l'))
  run : ∀ (r : Reader) (va : VaList) (fuel : ℕ), va.word = word → Reads r d.fmt (mods ++ [c]) → mods.length < fuel →
    reswitch r va fuel d = .ok (c, d')

/-- a modifier pre, then the rest of them -/
theorem Scanned.after {word : ℕ → Word} {d d₁ d' : Dir} {pre mods : List Byte} {c : Byte} (hpos : 0 < pre.length)
    (hfmt : d₁.fmt = d.fmt.skip pre.length) (hap : d₁.ap = d.ap + pre.count (chr '*'))
    (hlflag : d₁.lflag = d.lflag + BitVec.ofNat 32 (pre.count (chr 'l')))
    (hrun : ∀ (r : Reader) (va : VaList) (fuel : ℕ), va.word = word → Reads r d.fmt (pre ++ (mods ++ [c])) →
      pre.length ≤ fuel → reswitch r va (fuel + 1) d = reswitch r va fuel d₁)
    (h : Scanned word d₁ mods c d') : Scanned word d (pre ++ mods) c d' where
  fmt := by rw [h.fmt, hfmt, Ptr.skip_skip, List.length_append, Nat.add_assoc]
  ap := by rw [h.ap, hap, List.count_append, Nat.add_assoc]
  lflag := by rw [h.lflag, hlflag, List.count_append, BitVec.ofNat_add, BitVec.add_assoc]
  run r va fuel hva hread hf := by
    rw [List.length_append] at hf
    rw [List.append_assoc] at hread
    obtain ⟨fuel, rfl⟩ := Nat.exists_eq_add_of_lt hf
    rw [hrun r va _ hva hread (by omega)]
    refine h.run r va _ hva ?_ (by omega)
    rw [hfmt]
    exact hread.right

/-- the character that ends the directive -/
theorem Scanned.last (word : ℕ → Word) (d : Dir) {c : Byte} (hc : ¬ Modifier c) :
    Scanned word d [] c { d with fmt := d.fmt.next } where
  fmt := d.fmt.next_eq
  ap := rfl
  lflag := (BitVec.add_zero d.lflag).symm
  run r va fuel _ hread hf := by
    obtain ⟨fuel, rfl⟩ := Nat.exists_eq_add_of_lt hf
    rw [Modifier] at hc
    simp only [not_or] at hc
    obtain ⟨hminus, hdigit, hstar, hdot, halt, hlong⟩ := hc
    rw [reswitch]
    refine Prog.except_bind_ok.2 ⟨c, hread.head, ?_⟩
    have hzero : c ≠ chr '0' := by
      rintro rfl
      exact hdigit (by decide)
    have hnum : ¬ (chr '1' ≤ c ∧ c ≤ chr '9') := by
      rintro ⟨hlo, hhi⟩
      exact hdigit ⟨BitVec.le_trans (by decide) hlo, hhi⟩
    rw [if_neg hminus, if_neg hzero, if_neg hnum, if_neg hstar, if_neg hdot, if_neg halt, if_neg hlong]
    rfl

/-- the directive after the literal number b ds -/
def Dir.number (d : Dir) (b : Byte) (ds : List Byte) : Dir :=
  { d with fmt := d.fmt.skip (ds.length + 1) }.processPrecision (ds.foldl decimal (decimal 0#32 b))

theorem Scanned.number {word : ℕ → Word} {d d' : Dir} {b : Byte} {ds mods : List Byte} {c : Byte}
    (hb : chr '1' ≤ b ∧ b ≤ chr '9') (hds : ∀ x ∈ ds, Digit x) (hend : ∃ x l, mods ++ [c] = x :: l ∧ ¬ Digit x)
    (h : Scanned word (d.number b ds) mods c d') : Scanned word d (b :: ds ++ mods) c d' := by
  have hall : ∀ x ∈ b :: ds, Digit x := by
    intro x hx
    rcases List.mem_cons.1 hx with rfl | hx
    · exact ⟨BitVec.le_trans (by decide) hb.1, hb.2⟩
    · exact hds x hx
  have hstar : chr '*' ∉ b :: ds := fun hx => absurd (hall _ hx) (by decide)
  have hlong : chr 'l' ∉ b :: ds := fun hx => absurd (hall _ hx) (by decide)
  refine h.after (Nat.succ_pos ds.length) ?_ ?_ ?_ ?_
  · rw [Dir.number, Dir.processPrecision_fmt, List.length_cons]
  · rw [List.count_eq_zero_of_not_mem hstar, Dir.number, Dir.processPrecision_ap]
    rfl
  · rw [List.count_eq_zero_of_not_mem hlong, Dir.number, Dir.processPrecision_lflag]
    exact (BitVec.add_zero _).symm
  · intro r va fuel _ hread hf
    obtain ⟨x, l, hx, hnx⟩ := hend
    rw [hx] at hread
    have hread' : Reads r d.fmt.next (ds ++ [x]) := by
      apply Reads.left
      rw [List.append_assoc]
      exact Reads.tail hread
    have hne : ∀ e : Byte, ¬ (chr '1' ≤ e ∧ e ≤ chr '9') → b ≠ e := by
      rintro e he rfl
      exact he hb
    rw [reswitch, Reads.head hread]
    change (if b = chr '-' then _ else _) = _
    rw [if_neg (hne _ (by decide)), if_neg (hne _ (by decide)), if_pos hb,
      digits_reads hds hnx hread' (Nat.lt_of_lt_of_le (Nat.lt_succ_self _) hf), Ptr.skip_next]
    rfl

/-- the directive after the modifier b, which is no number -/
def Dir.single (word : ℕ → Word) (d : Dir) (b : Byte) : Dir :=
  if b = chr '-' then { d with fmt := d.fmt.next, padc := int (chr '-') }
  else if b = chr '0' then { d with fmt := d.fmt.next, padc := int (chr '0') }
  else if b = chr '*' then { d with fmt := d.fmt.next, ap := d.ap + 1 }.processPrecision (word d.ap)
  else if b = chr '.' then
    if d.width.slt 0#32 then { d with fmt := d.fmt.next, width := 0#32 } else { d with fmt := d.fmt.next }
  else if b = chr '#' then { d with fmt := d.fmt.next, altflag := true }
  else { d with fmt := d.fmt.next, lflag := d.lflag + 1#32 }

theorem Scanned.single {word : ℕ → Word} {d d' : Dir} {b : Byte} {mods : List Byte} {c : Byte} (hb : b ∈ str "-0*.#l")
    (h : Scanned word (d.single word b) mods c d') : Scanned word d (b :: mods) c d' := by
  have hpos : 0 < [b].length := Nat.one_pos
  have hcases : b = chr '-' ∨ b = chr '0' ∨ b = chr '*' ∨ b = chr '.' ∨ b = chr '#' ∨ b = chr 'l' := by
    simpa [str] using hb
  suffices hone : (d.single word b).fmt = d.fmt.next ∧ (d.single word b).ap = d.ap + [b].count (chr '*') ∧
      (d.single word b).lflag = d.lflag + BitVec.ofNat 32 ([b].count (chr 'l')) ∧
      ∀ (r : Reader) (va : VaList) (fuel : ℕ), va.word = word → r.get d.fmt = .ok b →
        reswitch r va (fuel + 1) d = reswitch r va fuel (d.single word b) by
    obtain ⟨hfmt, hap, hlflag, hrun⟩ := hone
    refine Scanned.after hpos (hfmt.trans d.fmt.next_eq) hap hlflag ?_ h
    intro r va fuel hva hread _
    exact hrun r va fuel hva hread.head
  rcases hcases with rfl | rfl | rfl | rfl | rfl | rfl
  · refine ⟨rfl, rfl, (BitVec.add_zero _).symm, fun r va fuel _ hget => ?_⟩
    rw [reswitch, hget]
    rfl
  · refine ⟨rfl, rfl, (BitVec.add_zero _).symm, fun r va fuel _ hget => ?_⟩
    rw [reswitch, hget]
    rfl
  · have hstar : d.single word (chr '*') = { d with fmt := d.fmt.next, ap := d.ap + 1 }.processPrecision (word d.ap) := by
      rw [Dir.single, if_neg (by decide), if_neg (by decide), if_pos rfl]
    rw [hstar]
    refine ⟨?_, ?_, ?_, ?_⟩
    · rw [Dir.processPrecision_fmt]
    · rw [Dir.processPrecision_ap]
      rfl
    · rw [Dir.processPrecision_lflag]
      exact (BitVec.add_zero _).symm
    · intro r va fuel hva hget
      rw [reswitch, hget, ← hva]
      rfl
  · have hdot : d.single word (chr '.') =
        if d.width.slt 0#32 then { d with fmt := d.fmt.next, width := 0#32 } else { d with fmt := d.fmt.next } := by
      rw [Dir.single, if_neg (by decide), if_neg (by decide), if_neg (by decide), if_pos rfl]
    rw [hdot]
    refine ⟨?_, ?_, ?_, ?_⟩
    · split_ifs <;> rfl
    · split_ifs <;> rfl
    · split_ifs <;> exact (BitVec.add_zero _).symm
    · intro r va fuel _ hget
      rw [reswitch, hget]
      rfl
  · refine ⟨rfl, rfl, (BitVec.add_zero _).symm, fun r va fuel _ hget => ?_⟩
    rw [reswitch, hget]
    rfl
  · refine ⟨rfl, rfl, rfl, fun r va fuel _ hget => ?_⟩
    rw [reswitch, hget]
    rfl

/-- **The scan of a directive** ends at the first character that is no modifier; what it has found does not depend on
who reads. -/
theorem reswitch_reads (word : ℕ → Word) {c : Byte} (hc : ¬ Modifier c) {mods : List Byte}
    (hmods : ∀ b ∈ mods, Modifier b) (d : Dir) : ∃ d', Scanned word d mods c d' := by
  induction hn : mods.length using Nat.strong_induction_on generalizing mods d with
  | _ n ih =>
    cases mods with
    | nil => exact ⟨_, Scanned.last word d hc⟩
    | cons b ms =>
      have hms : ∀ x ∈ ms, Modifier x := fun x hx => hmods x (List.mem_cons_of_mem b hx)
      rw [List.length_cons] at hn
      have hone : b ∈ str "-0*.#l" → ∃ d', Scanned word d (b :: ms) c d' := by
        intro hb
        obtain ⟨d', hd'⟩ := ih ms.length (by omega) hms (d.single word b) rfl
        exact ⟨d', hd'.single hb⟩
      rcases hmods b List.mem_cons_self with rfl | hdigit | rfl | rfl | rfl | rfl
      · exact hone (by decide)
      · by_cases h0 : b = chr '0'
        · subst h0
          exact hone (by decide)
        · -- a number goes on as far as there are digits
          obtain ⟨ds, rest, rfl, hds, hrest⟩ := longest_prefix Digit ms
          rw [List.length_append] at hn
          obtain ⟨d', hd'⟩ := ih rest.length (by omega) (fun x hx => hms x (List.mem_append_right ds hx))
            (d.number b ds) rfl
          refine ⟨d', hd'.number (hdigit.of_ne_zero h0) hds ?_⟩
          cases rest with
          | nil => exact ⟨c, [], rfl, fun h => hc (Or.inr (Or.inl h))⟩
          | cons x l => exact ⟨x, l ++ [c], rfl, hrest x l rfl⟩
      · exact hone (by decide)
      · exact hone (by decide)
      · exact hone (by decide)
      · exact hone (by decide)

/-- **Back to the '%'.** From the j-th modifier the scan goes back to the first. -/
theorem backscan_reads {r : Reader} {fmt : Ptr} {mods : List Byte} (hmods : ∀ b ∈ mods, Modifier b)
    (h : Reads r fmt (chr '%' :: mods)) {j fuel : ℕ} (hj : j ≤ mods.length) (hf : j < fuel) :
    backscan r fuel (fmt.skip (j + 1)) = .ok fmt.next := by
  induction j generalizing fuel with
  | zero =>
    obtain ⟨fuel, rfl⟩ := Nat.exists_eq_add_of_lt hf
    rw [backscan, Ptr.prev_skip, Ptr.skip_zero]
    refine Prog.except_bind_ok.2 ⟨chr '%', h.head, ?_⟩
    rw [if_pos rfl, Ptr.next_eq]
    rfl
  | succ j ih =>
    obtain ⟨fuel, rfl⟩ := Nat.exists_eq_add_of_lt hf
    have hget : r.get (fmt.skip (j + 1)) = .ok mods[j] := by
      rw [Reader.get, h (j + 1) mods[j] (List.getElem?_eq_getElem hj)]
    rw [backscan, Ptr.prev_skip]
    refine Prog.except_bind_ok.2 ⟨mods[j], hget, ?_⟩
    rw [if_neg (hmods _ (List.getElem_mem hj)).ne_percent]
    exact ih (Nat.le_of_succ_le hj) (by omega)

end Jos
