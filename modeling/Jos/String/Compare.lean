/-
strchr, strcmp, strncmp and memcmp (lib/string.c), on the memory as a reader sees it.

A string is its bytes and the NUL behind them. Results:
- `strchr_reads`: strchr finds a character exactly if it is in the string;
- `strcmp_reads`: strcmp is the difference of the first two characters that differ, and 0 for equal strings only
  (`difference_eq_zero`);
- `strncmp_reads`, `memcmp_reads`: strncmp is that of the strings cut to n, memcmp up to the NUL of the shorter string the
  same as strcmp;
- `compare_one_order`: so the three agree on the lexicographic order of the unsigned bytes.
-/
import Jos.Printf.Scan

namespace Jos

open Jos.Lib

/-- the null pointer if the string has no c -/
def strchr (r : Reader) (c : Byte) : ℕ → Ptr → Except Stop Ptr
  | 0, _ => .error .steps
  | fuel + 1, s => do
    let b ← r.get s
    if b = 0#8 then return Ptr.null
    else if b = c then return s
    else strchr r c fuel s.next

/-- `while (*p && *p == *q)`; the difference is of unsigned chars -/
def strcmp (r : Reader) : ℕ → Ptr → Ptr → Except Stop Word
  | 0, _, _ => .error .steps
  | fuel + 1, p, q => do
    let a ← r.get p
    let b ← r.get q
    if a ≠ 0#8 ∧ a = b then strcmp r fuel p.next q.next
    else return int a - int b

/-- `while (n > 0 && *p && *p == *q)` -/
def strncmp (r : Reader) : ℕ → Ptr → Ptr → Word → Except Stop Word
  | 0, _, _, _ => .error .steps
  | fuel + 1, p, q, n => do
    if n = 0#32 then
      return 0#32
    let a ← r.get p
    let b ← r.get q
    if a ≠ 0#8 ∧ a = b then strncmp r fuel p.next q.next (n - 1#32)
    else return int a - int b

/-- `while (n-- > 0)` -/
def memcmpLoop (r : Reader) : ℕ → Ptr → Ptr → Except Stop Word
  | 0, _, _ => .ok 0#32
  | n + 1, s1, s2 => do
    let a ← r.get s1
    let b ← r.get s2
    if a ≠ b then return int a - int b
    memcmpLoop r n s1.next s2.next

def memcmp (r : Reader) (s1 s2 : Ptr) (n : Word) : Except Stop Word := memcmpLoop r n.toNat s1 s2

section Reading

variable {r : Reader} {fuel : ℕ}

theorem strchr_reads {l : List Byte} (h0 : 0#8 ∉ l) {p : Ptr} (h : Reads r p (l ++ [0#8])) (hf : l.length < fuel)
    (c : Byte) : (∃ i < l.length, strchr r c fuel p = .ok (p.skip i) ∧ c ∈ l) ∨
      (strchr r c fuel p = .ok Ptr.null ∧ c ∉ l) := by
  induction l generalizing p fuel with
  | nil =>
    obtain ⟨fuel, rfl⟩ := Nat.exists_eq_add_of_lt hf
    refine Or.inr ⟨?_, List.not_mem_nil⟩
    rw [strchr, h.head]
    rfl
  | cons b l ih =>
    obtain ⟨fuel, rfl⟩ := Nat.exists_eq_add_of_lt hf
    obtain ⟨hb, hl⟩ := not_or.1 (List.mem_cons.not.1 h0)
    have hget : r.get p = .ok b := Reads.head h
    have hstep : strchr r c ((b :: l).length + fuel + 1) p =
        if b = c then .ok p else strchr r c ((b :: l).length + fuel) p.next := by
      rw [strchr, hget]
      change (if b = 0#8 then _ else _) = _
      rw [if_neg (Ne.symm hb)]
      rfl
    rw [hstep]
    by_cases hbc : b = c
    · refine Or.inl ⟨0, Nat.succ_pos _, ?_, hbc ▸ List.mem_cons_self⟩
      rw [if_pos hbc, Ptr.skip_zero]
    · rw [if_neg hbc]
      have hlt : l.length < (b :: l).length + fuel := by
        rw [List.length_cons]
        omega
      rcases ih hl (Reads.tail h) hlt with ⟨i, hi, hrun, hmem⟩ | ⟨hrun, hmem⟩
      · refine Or.inl ⟨i + 1, Nat.succ_lt_succ hi, ?_, List.mem_cons_of_mem b hmem⟩
        rw [hrun, Ptr.skip_next]
      · refine Or.inr ⟨hrun, fun hc => ?_⟩
        rcases List.mem_cons.1 hc with rfl | hc
        · exact hbc rfl
        · exact hmem hc

/-- the difference of the first two characters that differ; the end of a string is its NUL -/
def difference : List Byte → List Byte → Word
  | [], [] => 0#32
  | [], b :: _ => int 0#8 - int b
  | a :: _, [] => int a - int 0#8
  | a :: l, b :: l' => if a = b then difference l l' else int a - int b

theorem int_sub_eq_zero {a b : Byte} (h : int a - int b = 0#32) : a = b := by
  have heq : int a = int b := by
    rw [← BitVec.sub_add_cancel (int a) (int b), h, BitVec.zero_add]
  have hlow := congrArg (BitVec.setWidth 8) heq
  rw [int, int, BitVec.setWidth_setWidth_of_le a (by decide), BitVec.setWidth_setWidth_of_le b (by decide),
    BitVec.setWidth_eq, BitVec.setWidth_eq] at hlow
  exact hlow

theorem difference_eq_zero {l l' : List Byte} (h0 : 0#8 ∉ l) (h0' : 0#8 ∉ l') : difference l l' = 0#32 ↔ l = l' := by
  induction l generalizing l' with
  | nil =>
    cases l' with
    | nil => exact iff_of_true rfl rfl
    | cons b l' =>
      refine iff_of_false (fun h => ?_) (List.cons_ne_nil b l').symm
      exact h0' (int_sub_eq_zero h ▸ List.mem_cons_self)
  | cons a l ih =>
    cases l' with
    | nil =>
      refine iff_of_false (fun h => ?_) (List.cons_ne_nil a l)
      exact h0 (int_sub_eq_zero h ▸ List.mem_cons_self)
    | cons b l' =>
      rw [difference]
      by_cases hab : a = b
      · subst hab
        rw [if_pos rfl, ih (fun h => h0 (List.mem_cons_of_mem a h)) fun h => h0' (List.mem_cons_of_mem a h)]
        exact ⟨congrArg (a :: ·), fun h => (List.cons.inj h).2⟩
      · rw [if_neg hab]
        exact iff_of_false (fun h => hab (int_sub_eq_zero h)) fun h => hab (List.cons.inj h).1

theorem strcmp_reads {l l' : List Byte} (h0 : 0#8 ∉ l) (h0' : 0#8 ∉ l') {p q : Ptr} (hp : Reads r p (l ++ [0#8]))
    (hq : Reads r q (l' ++ [0#8])) (hf : l.length < fuel) : strcmp r fuel p q = .ok (difference l l') := by
  induction l generalizing l' p q fuel with
  | nil =>
    obtain ⟨fuel, rfl⟩ := Nat.exists_eq_add_of_lt hf
    cases l' with
    | nil =>
      rw [strcmp, hp.head, hq.head]
      rfl
    | cons b l' =>
      rw [strcmp, hp.head, Reads.head hq]
      rfl
  | cons a l ih =>
    obtain ⟨fuel, rfl⟩ := Nat.exists_eq_add_of_lt hf
    obtain ⟨ha, hl⟩ := not_or.1 (List.mem_cons.not.1 h0)
    cases l' with
    | nil =>
      rw [strcmp, Reads.head hp, hq.head]
      change (if a ≠ 0#8 ∧ a = 0#8 then _ else _) = _
      rw [if_neg fun h => h.1 h.2]
      rfl
    | cons b l' =>
      obtain ⟨-, hl'⟩ := not_or.1 (List.mem_cons.not.1 h0')
      rw [strcmp, Reads.head hp, Reads.head hq, difference]
      change (if a ≠ 0#8 ∧ a = b then _ else _) = _
      by_cases hab : a = b
      · rw [if_pos ⟨Ne.symm ha, hab⟩, if_pos hab]
        exact ih hl hl' (Reads.tail hp) (Reads.tail hq) (by rw [List.length_cons]; omega)
      · rw [if_neg fun h => hab h.2, if_neg hab]
        rfl

/-- strncmp stops at its limit, or where strcmp does -/
theorem strncmp_reads {l l' : List Byte} (h0 : 0#8 ∉ l) (h0' : 0#8 ∉ l') {p q : Ptr} (hp : Reads r p (l ++ [0#8]))
    (hq : Reads r q (l' ++ [0#8])) (hf : l.length < fuel) (n : Word) :
    strncmp r fuel p q n = .ok (difference (l.take n.toNat) (l'.take n.toNat)) := by
  induction l generalizing l' p q fuel n with
  | nil =>
    obtain ⟨fuel, rfl⟩ := Nat.exists_eq_add_of_lt hf
    rw [strncmp]
    by_cases hn : n = 0#32
    · rw [if_pos hn, hn]
      rfl
    · obtain ⟨k, hk⟩ := Nat.exists_eq_succ_of_ne_zero (toNat_ne_zero hn)
      rw [if_neg hn, hp.head, hk, List.take_nil]
      cases l' with
      | nil =>
        rw [hq.head]
        rfl
      | cons b l' =>
        rw [Reads.head hq]
        rfl
  | cons a l ih =>
    obtain ⟨fuel, rfl⟩ := Nat.exists_eq_add_of_lt hf
    obtain ⟨ha, hl⟩ := not_or.1 (List.mem_cons.not.1 h0)
    rw [strncmp]
    by_cases hn : n = 0#32
    · rw [if_pos hn, hn]
      rfl
    · obtain ⟨k, hk⟩ := Nat.exists_eq_succ_of_ne_zero (toNat_ne_zero hn)
      rw [if_neg hn, Reads.head hp, hk, List.take_succ_cons]
      cases l' with
      | nil =>
        rw [hq.head]
        change (if a ≠ 0#8 ∧ a = 0#8 then _ else _) = _
        rw [if_neg fun h => h.1 h.2]
        rfl
      | cons b l' =>
        obtain ⟨-, hl'⟩ := not_or.1 (List.mem_cons.not.1 h0')
        have hpred : (n - 1#32).toNat = k := by
          rw [toNat_pred hn, hk, Nat.succ_sub_one]
        rw [Reads.head hq, List.take_succ_cons, difference]
        change (if a ≠ 0#8 ∧ a = b then _ else _) = _
        by_cases hab : a = b
        · have hlt : l.length < (a :: l).length + fuel := by
            rw [List.length_cons]
            omega
          rw [if_pos ⟨Ne.symm ha, hab⟩, if_pos hab, ih hl hl' (Reads.tail hp) (Reads.tail hq) hlt, hpred]
        · rw [if_neg fun h => hab h.2, if_neg hab]
          rfl

/-- memcmp of the shorter string and its NUL -/
theorem memcmp_reads {l l' : List Byte} (h0 : 0#8 ∉ l) (h0' : 0#8 ∉ l') {p q : Ptr} (hp : Reads r p (l ++ [0#8]))
    (hq : Reads r q (l' ++ [0#8])) :
    memcmpLoop r (min l.length l'.length + 1) p q = .ok (difference l l') := by
  induction l generalizing l' p q with
  | nil =>
    rw [List.length_nil, Nat.zero_min, memcmpLoop, hp.head]
    cases l' with
    | nil =>
      rw [hq.head]
      rfl
    | cons b l' =>
      obtain ⟨hb, -⟩ := not_or.1 (List.mem_cons.not.1 h0')
      rw [Reads.head hq]
      exact if_pos hb
  | cons a l ih =>
    obtain ⟨ha, hl⟩ := not_or.1 (List.mem_cons.not.1 h0)
    rw [memcmpLoop, Reads.head hp]
    cases l' with
    | nil =>
      rw [hq.head]
      exact if_pos (Ne.symm ha)
    | cons b l' =>
      obtain ⟨-, hl'⟩ := not_or.1 (List.mem_cons.not.1 h0')
      rw [Reads.head hq, difference]
      change (if a ≠ b then _ else _) = _
      by_cases hab : a = b
      · rw [if_neg (not_not.2 hab), if_pos hab, List.length_cons, List.length_cons, Nat.succ_min_succ]
        exact ih hl hl' (Reads.tail hp) (Reads.tail hq)
      · rw [if_pos hab, if_neg hab]
        rfl

end Reading

/-! ## One order -/

section Order

variable {r : Reader} {l l' l'' : List Byte} {d e : Word}

/-- a string as its unsigned bytes, in lexicographic order -/
def unsigned (l : List Byte) : List ℕ := l.map BitVec.toNat

/-- d has the sign of the order of l and l' -/
structure Orders (d : Word) (l l' : List Byte) : Prop where
  neg : d.toInt < 0 ↔ unsigned l < unsigned l'
  zero : d.toInt = 0 ↔ l = l'
  pos : 0 < d.toInt ↔ unsigned l' < unsigned l

theorem int_sub_toInt (a b : Byte) : (int a - int b).toInt = (a.toNat : ℤ) - b.toNat := by
  have ha := a.isLt
  have hb := b.isLt
  rw [int, int, BitVec.toInt_eq_toNat_cond, BitVec.toNat_sub, BitVec.toNat_setWidth, BitVec.toNat_setWidth]
  split_ifs <;> omega

/-- the sign of a difference, by what its strings are -/
theorem orders_of_neg (hd : d.toInt < 0) (h : unsigned l < unsigned l') : Orders d l l' where
  neg := iff_of_true hd h
  zero := iff_of_false (ne_of_lt hd) fun heq => absurd (heq ▸ h) (lt_irrefl _)
  pos := iff_of_false (not_lt_of_gt hd) (not_lt_of_gt h)

theorem orders_of_pos (hd : 0 < d.toInt) (h : unsigned l' < unsigned l) : Orders d l l' where
  neg := iff_of_false (not_lt_of_gt hd) (not_lt_of_gt h)
  zero := iff_of_false (ne_of_gt hd) fun heq => absurd (heq ▸ h) (lt_irrefl _)
  pos := iff_of_true hd h

theorem orders_of_zero (hd : d.toInt = 0) (h : l = l') : Orders d l l' where
  neg := iff_of_false (not_lt_of_ge (ge_of_eq hd)) (h ▸ lt_irrefl _)
  zero := iff_of_true hd h
  pos := iff_of_false (not_lt_of_ge (le_of_eq hd)) (h ▸ lt_irrefl _)

/-- **The difference has the sign of the lexicographic order.** -/
theorem difference_orders (h0 : 0#8 ∉ l) (h0' : 0#8 ∉ l') : Orders (difference l l') l l' := by
  have hpos : ∀ {b : Byte}, 0#8 ≠ b → 0 < b.toNat := by
    intro b hb
    apply Nat.pos_of_ne_zero
    intro hzero
    exact hb (BitVec.eq_of_toNat_eq hzero).symm
  induction l generalizing l' with
  | nil =>
    cases l' with
    | nil => exact orders_of_zero rfl rfl
    | cons b l' =>
      have hb := hpos (not_or.1 (List.mem_cons.not.1 h0')).1
      apply orders_of_neg
      · rw [difference, int_sub_toInt]
        change (0 : ℤ) - b.toNat < 0
        omega
      · exact List.nil_lt_cons _ _
  | cons a l ih =>
    obtain ⟨ha, hl⟩ := not_or.1 (List.mem_cons.not.1 h0)
    cases l' with
    | nil =>
      have hpa := hpos ha
      apply orders_of_pos
      · rw [difference, int_sub_toInt]
        change 0 < (a.toNat : ℤ) - 0
        omega
      · exact List.nil_lt_cons _ _
    | cons b l' =>
      obtain ⟨-, hl'⟩ := not_or.1 (List.mem_cons.not.1 h0')
      rw [difference]
      rcases lt_trichotomy a.toNat b.toNat with hlt | heq | hgt
      · have hne : a ≠ b := by
          rintro rfl
          exact lt_irrefl _ hlt
        rw [if_neg hne]
        apply orders_of_neg
        · rw [int_sub_toInt]
          omega
        · exact List.cons_lt_cons_iff.2 (Or.inl hlt)
      · obtain rfl := BitVec.eq_of_toNat_eq heq
        rw [if_pos rfl]
        obtain ⟨hneg, hzero, hpos'⟩ := ih hl hl'
        have hcons : ∀ {x y : List Byte}, unsigned (a :: x) < unsigned (a :: y) ↔ unsigned x < unsigned y := by
          intro x y
          change a.toNat :: unsigned x < a.toNat :: unsigned y ↔ _
          rw [List.cons_lt_cons_iff]
          exact ⟨fun h => (h.resolve_left (lt_irrefl _)).2, fun h => Or.inr ⟨rfl, h⟩⟩
        refine ⟨hneg.trans hcons.symm, hzero.trans ?_, hpos'.trans hcons.symm⟩
        exact ⟨congrArg (a :: ·), fun h => (List.cons.inj h).2⟩
      · have hne : a ≠ b := by
          rintro rfl
          exact lt_irrefl _ hgt
        rw [if_neg hne]
        apply orders_of_pos
        · rw [int_sub_toInt]
          omega
        · exact List.cons_lt_cons_iff.2 (Or.inl hgt)

theorem Orders.nonpos_iff (h : Orders d l l') : d.toInt ≤ 0 ↔ unsigned l ≤ unsigned l' := by
  rw [← not_lt, ← not_lt]
  exact not_congr h.pos

/-- a NUL-terminated string -/
structure Cstr (r : Reader) (p : Ptr) (l : List Byte) : Prop where
  noNul : 0#8 ∉ l
  reads : Reads r p (l ++ [0#8])

theorem Cstr.strcmp_orders {p q : Ptr} {fuel : ℕ} (hp : Cstr r p l) (hq : Cstr r q l') (hf : l.length < fuel) :
    strcmp r fuel p q = .ok (difference l l') ∧ Orders (difference l l') l l' :=
  ⟨strcmp_reads hp.noNul hq.noNul hp.reads hq.reads hf, difference_orders hp.noNul hq.noNul⟩

/-- **One order.** strcmp gives the sign of the lexicographic order of the unsigned bytes, so it is antisymmetric and
transitive; strncmp gives what strcmp gives for the strings cut to n bytes, and memcmp up to the NUL of the shorter string
what strcmp gives. -/
theorem compare_one_order (r : Reader) (p q s : Ptr) (l l' l'' : List Byte) (hp : Cstr r p l) (hq : Cstr r q l')
    (hs : Cstr r s l'') (fuel : ℕ) (hf : l.length < fuel) (hf' : l'.length < fuel) (n k : Word)
    (hk : k.toNat = min l.length l'.length + 1) :
    ∃ pq qp qs ps e : Word,
      strcmp r fuel p q = .ok pq ∧ strcmp r fuel q p = .ok qp ∧ strcmp r fuel q s = .ok qs ∧
      strcmp r fuel p s = .ok ps ∧ Orders pq l l' ∧ (0 < qp.toInt ↔ pq.toInt < 0) ∧ (qp.toInt < 0 ↔ 0 < pq.toInt) ∧
      (pq.toInt ≤ 0 → qs.toInt ≤ 0 → ps.toInt ≤ 0) ∧
      strncmp r fuel p q n = .ok e ∧ Orders e (l.take n.toNat) (l'.take n.toNat) ∧
      (∀ p' q', Cstr r p' (l.take n.toNat) → Cstr r q' (l'.take n.toNat) → strcmp r fuel p' q' = .ok e) ∧
      memcmp r p q k = .ok pq := by
  obtain ⟨hpq, hopq⟩ := hp.strcmp_orders hq hf
  obtain ⟨hqp, hoqp⟩ := hq.strcmp_orders hp hf'
  obtain ⟨hqs, hoqs⟩ := hq.strcmp_orders hs hf'
  obtain ⟨hps, hops⟩ := hp.strcmp_orders hs hf
  have hcut : ∀ {x : List Byte}, 0#8 ∉ x → 0#8 ∉ x.take n.toNat := by
    intro x hx hmem
    exact hx (List.mem_of_mem_take hmem)
  refine ⟨_, _, _, _, _, hpq, hqp, hqs, hps, hopq, ?_, ?_, ?_,
    strncmp_reads hp.noNul hq.noNul hp.reads hq.reads hf n, difference_orders (hcut hp.noNul) (hcut hq.noNul), ?_, ?_⟩
  · exact hoqp.pos.trans hopq.neg.symm
  · exact hoqp.neg.trans hopq.pos.symm
  · intro h1 h2
    apply hops.nonpos_iff.2
    exact le_trans (hopq.nonpos_iff.1 h1) (hoqs.nonpos_iff.1 h2)
  · intro p' q' hp' hq'
    have hlt : (l.take n.toNat).length < fuel := lt_of_le_of_lt (List.length_take_le' _ _) hf
    exact (hp'.strcmp_orders hq' hlt).1
  · rw [memcmp, hk]
    exact memcmp_reads hp.noNul hq.noNul hp.reads hq.reads

/-- memory with string literals only -/
def literals : Reader
  | .mem _ => none
  | .lit l i => litByte l i

theorem Cstr.lit {l : List Byte} (h : 0#8 ∉ l) : Cstr literals (.lit l 0) l := ⟨h, Reads.lit fun _ => rfl⟩

/-- "a\x80" is above "a\x7f", which as signed characters it is not -/
theorem compare_one_order_high : ∃ pq : Word,
    strcmp literals 3 (.lit [0x61, 0x80] 0) (.lit [0x61, 0x7F] 0) = .ok pq ∧ 0 < pq.toInt := by
  have hp : Cstr literals (.lit [0x61, 0x80] 0) [0x61, 0x80] := Cstr.lit (by decide)
  have hq : Cstr literals (.lit [0x61, 0x7F] 0) [0x61, 0x7F] := Cstr.lit (by decide)
  have hs : Cstr literals (.lit [] 0) [] := Cstr.lit (by decide)
  obtain ⟨pq, _, _, _, _, hrun, -, -, -, horder, -⟩ :=
    compare_one_order literals _ _ _ _ _ _ hp hq hs 3 (by decide) (by decide) 2#32 3#32 (by decide)
  exact ⟨pq, hrun, horder.pos.2 (by decide)⟩

end Order

end Jos
