/-
What each part of the formatter puts out, as a list of characters.

`Text k s p l`: the bytes l stand at p, and stay there whatever is put out. With enough rounds every loop returns:
- `returns_padLoop`, `returns_printnum`: padding, and a number with its digits in front of the padding's width;
- `printnum_numeral`: what printnum puts out is the positional numeral, and `Positional.unique`: there is only one;
- `returns_putString`, `returns_convString`: a string, cut to the precision.
-/
import Jos.Lib.Fuel
import Jos.Printf.Fronts
import Jos.Printf.Scan

namespace Jos

open Jos.Lib

section Output

variable {τ : Type} {k : Sink τ} {s : τ}

/-- the bytes l stand at p, whatever is put out -/
def Text (k : Sink τ) (s : τ) (p : Ptr) (l : List Byte) : Prop := ∀ cs, Reads (k.reader (feed k s cs)) p l

namespace Text

variable {p : Ptr} {l l' : List Byte} {c : Byte}

theorem reads (h : Text k s p l) : Reads (k.reader s) p l := h []

theorem feed (h : Text k s p l) (cs : List Word) : Text k (feed k s cs) p l := by
  intro ds
  rw [← feed_append]
  exact h (cs ++ ds)

theorem putch (h : Text k s p l) (c : Word) : Text k (k.putch c s) p l := h.feed [c]

theorem tail (h : Text k s p (c :: l)) : Text k s p.next l := fun cs => (h cs).tail

theorem left (h : Text k s p (l ++ l')) : Text k s p l := fun cs => (h cs).left

theorem right (h : Text k s p (l ++ l')) : Text k s (p.skip l.length) l' := fun cs => (h cs).right

/-- a literal and its NUL -/
theorem lit (l : List Byte) : Text k s (.lit l 0) (l ++ [0#8]) := fun _ => Reads.lit fun _ => rfl

end Text

/-- a byte that is stored behind the text -/
theorem Reads.store {m : Bytes} {a : Word} {l : List Byte} (h : Reads (Bytes.reader m) (.mem a) l)
    (hl : l.length < 2 ^ 32) (c : Byte) :
    Reads (Bytes.reader (Function.update m (a + BitVec.ofNat 32 l.length) c)) (.mem a) (l ++ [c]) := by
  refine Reads.concat (fun i b hb => ?_) (congrArg some (Function.update_self ..))
  have hi := (List.getElem?_eq_some_iff.1 hb).1
  have hne : a + BitVec.ofNat 32 i ≠ a + BitVec.ofNat 32 l.length := fun heq =>
    absurd (offset_inj (lt_trans hi hl) hl heq) (Nat.ne_of_lt hi)
  exact (congrArg some (Function.update_of_ne hne _ _)).trans (h i b hb)

/-- what cprintf prints does not change the memory it reads -/
theorem Text.cprintf {s : Cprintf} {b : Word} {l : List Byte}
    (h : ∀ i < l.length, l[i]? = some (s.mem (b + BitVec.ofNat 32 i))) : Text cprintfSink s (.mem b) l := by
  intro cs i c hc
  rw [feed_cprintf]
  have hi := (List.getElem?_eq_some_iff.1 hc).1
  change some (s.mem (b + BitVec.ofNat 32 i)) = some c
  rw [← h i hi]
  exact hc

theorem returns_emit (s : τ) (c : Word) : Returns (fun _ => emit k c) s () (k.putch c s) := Returns.of_run fun _ => rfl

theorem returns_scan {α : Type} {f : ℕ → Reader → Except Stop α} {a : α} (N : ℕ)
    (h : ∀ n, N < n → f n (k.reader s) = .ok a) : Returns (fun n => scan k (f n)) s a s :=
  ⟨N + 1, fun n hn => run_scan (h n hn)⟩

/-! ## Numbers -/

def padding (c width : Word) : List Word := List.replicate width.toInt.toNat c

/-- the width after the padding -/
def padded (width : Word) : Word := if (0#32).slt width then 0#32 else width

theorem neg_one_slt : (-1#32 : Word).slt 0#32 = true := by decide

theorem zero_not_slt : (0#32 : Word).slt 0#32 = false := by decide

theorem toInt_pos {width : Word} : (0#32).slt width ↔ 0 < width.toInt := by
  rw [BitVec.slt_eq_decide, decide_eq_true_iff]
  rfl

theorem returns_padLoop (s : τ) (c width : Word) :
    Returns (fun n => padLoop k c n width) s (padded width) (feed k s (padding c width)) := by
  rw [padded, padding]
  by_cases hw : (0#32).slt width
  · rw [if_pos hw]
    have hpos := toInt_pos.1 hw
    have hlt := BitVec.toInt_lt (x := width)
    have hwidth : width = BitVec.ofNat 32 width.toInt.toNat := by
      apply BitVec.eq_of_toNat_eq
      have := width.isLt
      rw [BitVec.toNat_ofNat]
      rw [BitVec.toInt_eq_toNat_cond] at hpos hlt ⊢
      split_ifs at hpos hlt ⊢ <;> omega
    refine ⟨width.toInt.toNat + 1, fun n hn => ?_⟩
    have hrun := run_padLoop (k := k) c (n := width.toInt.toNat) (by omega) hn s
    rw [← hwidth] at hrun
    exact hrun
  · rw [if_neg hw]
    have hnone : width.toInt.toNat = 0 := Int.toNat_of_nonpos (not_lt.1 fun h => hw (toInt_pos.2 h))
    rw [hnone]
    exact Returns.succ_iff.1 (Returns.of_run fun n => run_padLoop_none hw)

/-- the digits of num, the last one first; 0 has one digit -/
def numDigits (base num : ℕ) : List ℕ := if num = 0 then [0] else Nat.digits base num

theorem numDigits_of_lt {base num : ℕ} (h : num < base) : numDigits base num = [num] := by
  rw [numDigits]
  split_ifs with h0
  · rw [h0]
  · exact Nat.digits_of_lt base num h0 h

theorem numDigits_of_le {base num : ℕ} (hb : 2 ≤ base) (h : base ≤ num) :
    numDigits base num = num % base :: numDigits base (num / base) := by
  have hdiv : num / base ≠ 0 := Nat.ne_of_gt (Nat.div_pos h (by omega))
  rw [numDigits, numDigits, if_neg (by omega), if_neg hdiv]
  exact Nat.digits_def' hb (by omega)

theorem numDigits_lt {b : ℕ} (hb : 2 ≤ b) {num i : ℕ} (hi : i ∈ (numDigits b num).reverse) : i < b := by
  rw [List.mem_reverse, numDigits] at hi
  split_ifs at hi
  · rw [List.mem_singleton.1 hi]
    omega
  · exact Nat.digits_lt_base hb hi

theorem numDigits_ne_nil (b num : ℕ) : (numDigits b num).reverse ≠ [] := by
  rw [numDigits]
  split_ifs with h0
  · exact List.cons_ne_nil _ _
  · rw [ne_eq, List.reverse_eq_nil_iff]
    exact Nat.digits_ne_nil_iff_ne_zero.2 h0

/-- a number that is padded to the width on the left -/
def number (base : ℕ) (padc : Word) (num : ℕ) (width : Word) : List Word :=
  padding padc (width - BitVec.ofNat 32 (numDigits base num).length) ++ (numDigits base num).reverse.map digitChar

theorem number_of_le {base num : ℕ} (hb : 2 ≤ base) (h : base ≤ num) (padc width : Word) :
    number base padc num width = number base padc (num / base) (width - 1#32) ++ [digitChar (num % base)] := by
  have hwidth : width - BitVec.ofNat 32 (numDigits base num).length =
      width - 1#32 - BitVec.ofNat 32 (numDigits base (num / base)).length := by
    rw [numDigits_of_le hb h, List.length_cons, Nat.add_comm, BitVec.ofNat_add, ← BitVec.sub_sub]
  have hdigits : (numDigits base num).reverse.map digitChar =
      (numDigits base (num / base)).reverse.map digitChar ++ [digitChar (num % base)] := by
    rw [numDigits_of_le hb h, List.reverse_cons, List.map_append, List.map_singleton]
  rw [number, number, hwidth, hdigits, List.append_assoc]

theorem returns_printnum {base : ℕ} (hb : 2 ≤ base) (s : τ) (padc : Word) (num : ℕ) (width : Word) :
    Returns (fun n => printnum k base padc n num width) s () (feed k s (number base padc num width)) := by
  induction num using Nat.strong_induction_on generalizing width with
  | _ num ih =>
    rw [← Returns.succ_iff]
    by_cases hnum : base ≤ num
    · have hdiv : num / base < num := Nat.div_lt_self (by omega) hb
      rw [number_of_le hb hnum, feed_append]
      simp only [printnum, if_pos hnum]
      exact (ih (num / base) hdiv (width - 1#32)).bind (returns_emit _ _)
    · have hlt := Nat.lt_of_not_le hnum
      rw [number, numDigits_of_lt hlt, feed_append]
      simp only [printnum, if_neg hnum, Nat.mod_eq_of_lt hlt]
      exact (returns_padLoop s padc (width - 1#32)).bind (returns_emit _ _)

/-- the numeral of num in the base, the most significant digit first -/
structure Positional (base num : ℕ) (digits : List ℕ) : Prop where
  ne_nil : digits ≠ []
  lt : ∀ i ∈ digits, i < base
  value : Nat.ofDigits base digits.reverse = num
  /-- no leading zero, but for the number 0 -/
  head : digits.head? = some 0 → num = 0
  zero : num = 0 → digits = [0]

theorem numDigits_positional {base : ℕ} (hb : 2 ≤ base) (num : ℕ) : Positional base num (numDigits base num).reverse where
  ne_nil := numDigits_ne_nil base num
  lt i hi := numDigits_lt hb hi
  value := by
    rw [List.reverse_reverse, numDigits]
    split_ifs with h0
    · rw [h0]
      rfl
    · exact Nat.ofDigits_digits base num
  head h := by
    by_contra h0
    have hne : Nat.digits base num ≠ [] := Nat.digits_ne_nil_iff_ne_zero.2 h0
    rw [List.head?_reverse, numDigits, if_neg h0, List.getLast?_eq_some_getLast hne] at h
    exact Nat.getLast_digit_ne_zero base h0 (Option.some.inj h)
  zero h := by
    rw [numDigits, if_pos h]
    rfl

/-- a number has one numeral -/
theorem Positional.unique {base num : ℕ} {digits : List ℕ} (hb : 2 ≤ base) (h : Positional base num digits) :
    digits = (numDigits base num).reverse := by
  by_cases h0 : num = 0
  · rw [h.zero h0, numDigits, if_pos h0]
    rfl
  · have hlast : ∀ hne : digits.reverse ≠ [], digits.reverse.getLast hne ≠ 0 := by
      intro hne hzero
      apply h0
      apply h.head
      rw [← List.getLast?_reverse, List.getLast?_eq_some_getLast hne, hzero]
    have hdigits := Nat.digits_ofDigits base hb digits.reverse (fun i hi => h.lt i (List.mem_reverse.1 hi)) hlast
    rw [numDigits, if_neg h0, ← h.value, hdigits, List.reverse_reverse]

/-- a 64-bit number has at most 64 digits -/
theorem numDigits_length {base num : ℕ} (hb : 2 ≤ base) (hnum : num < 2 ^ 64) : (numDigits base num).length ≤ 64 := by
  rw [numDigits]
  split_ifs
  · decide
  · apply (Nat.digits_length_le_iff hb num).2
    calc num < 2 ^ 64 := hnum
      _ ≤ base ^ 64 := Nat.pow_le_pow_left hb 64

/-- so few digits take no width of at least -1 below the least int -/
theorem toInt_sub_ofNat {width : Word} (hw : -1 ≤ width.toInt) {d : ℕ} (hd : d ≤ 64) :
    (width - BitVec.ofNat 32 d).toInt = width.toInt - d := by
  have hlt := width.isLt
  have hd' : (BitVec.ofNat 32 d).toNat = d := by
    rw [BitVec.toNat_ofNat]
    omega
  rw [BitVec.toInt_eq_toNat_cond, BitVec.toNat_sub, hd']
  rw [BitVec.toInt_eq_toNat_cond] at hw ⊢
  split_ifs at hw ⊢ <;> omega

/-- **printnum prints the positional numeral**, padded on the left to the width. -/
theorem printnum_numeral (k : Sink τ) (s : τ) (num : BitVec 64) (base : ℕ) (hb : 2 ≤ base) (hb' : base ≤ 16)
    (width padc : Word) (hw : -1 ≤ width.toInt) :
    ∃ digits, Positional base num.toNat digits ∧ (∀ i ∈ digits, i < (str "0123456789abcdef").length) ∧
      Returns (fun n => printnum k base padc n num.toNat width) s ()
        (feed k s (List.replicate (max 0 (width.toInt - digits.length)).toNat padc ++ digits.map digitChar)) := by
  have hpos := numDigits_positional hb num.toNat
  refine ⟨_, hpos, ?_, ?_⟩
  · intro i hi
    exact lt_of_lt_of_le (hpos.lt i hi) hb'
  · have hlen := numDigits_length hb num.isLt
    have hpads : padding padc (width - BitVec.ofNat 32 (numDigits base num.toNat).length) =
        List.replicate (max 0 (width.toInt - (numDigits base num.toNat).length)).toNat padc := by
      rw [padding, toInt_sub_ofNat hw hlen]
      congr 1
      omega
    have hrun := returns_printnum (k := k) hb s padc num.toNat width
    rw [number, hpads] at hrun
    rw [List.length_reverse]
    exact hrun

/-- "00ff" -/
theorem printnum_numeral_hex :
    Returns (fun n => printnum cprintfSink 16 (int (chr '0')) n (0xFF#64).toNat 4#32) ⟨fun _ => 0#8, 0#32, []⟩ ()
      (feed cprintfSink ⟨fun _ => 0#8, 0#32, []⟩ ((str "00ff").map int)) := by
  have hw : -1 ≤ (4#32 : Word).toInt := by decide
  obtain ⟨digits, hpos, -, hrun⟩ := printnum_numeral cprintfSink ⟨fun _ => 0#8, 0#32, []⟩ 0xFF#64 16 (by decide)
    (by decide) 4#32 (int (chr '0')) hw
  have hdigits : digits = [15, 15] := by
    rw [hpos.unique (by decide)]
    change (if 255 = 0 then [0] else Nat.digits 16 255).reverse = _
    norm_num
  rw [hdigits] at hrun
  exact hrun

def decimalText (padc : Word) (num : BitVec 64) (width : Word) : List Word :=
  if num.slt 0#64 then int (chr '-') :: number 10 padc (-num).toNat width else number 10 padc num.toNat width

theorem returns_convInt (s : τ) (d : Dir) (num : BitVec 64) :
    Returns (fun n => convInt k n d num) s () (feed k s (decimalText d.padc num d.width)) := by
  rw [decimalText]
  by_cases hneg : num.slt 0#64
  · simp only [convInt, if_pos hneg]
    exact (returns_emit s _).bind (returns_printnum (by decide) _ _ _ _)
  · simp only [convInt, if_neg hneg]
    exact returns_printnum (by decide) _ _ _ _

/-! ## Strings -/

/-- the part of a string that is printed -/
def cut (precision : Word) (l : List Byte) : List Byte := if precision.slt 0#32 then l else l.take precision.toNat

/-- a negative precision cuts nothing -/
theorem cut_neg_one (l : List Byte) : cut (-1#32) l = l := if_pos neg_one_slt

theorem cut_nil (precision : Word) : cut precision [] = [] := by
  rw [cut]
  split_ifs
  · rfl
  · exact List.take_nil

theorem cut_cons (precision : Word) (c : Byte) (l : List Byte) :
    cut precision (c :: l) = if allowed precision then c :: cut (counted precision) l else [] := by
  by_cases hneg : precision.slt 0#32
  · rw [cut, if_pos hneg, allowed, hneg, counted, if_pos hneg, cut, if_pos hneg]
    rfl
  · rw [cut, if_neg hneg, counted, if_neg hneg]
    by_cases h0 : precision = 0#32
    · subst h0
      rfl
    · -- one of the characters allowed is used up
      have hpos : precision.toNat = (precision - 1#32).toNat + 1 := by
        rw [toNat_pred h0, Nat.sub_add_cancel (Nat.one_le_iff_ne_zero.2 (toNat_ne_zero h0))]
      have hneg' : ¬ (precision - 1#32).slt 0#32 := fun h => h0 (eq_zero_of_slt (eq_false_of_ne_true hneg) h)
      have hallowed : allowed precision = true := by
        rw [allowed, eq_false_of_ne_true hneg', Bool.not_false, Bool.or_true]
      rw [hallowed, if_pos rfl, cut, if_neg hneg', hpos, List.take_succ_cons]

theorem returns_putString {l : List Byte} (h0 : 0#8 ∉ l) {p : Ptr} (h : Text k s p (l ++ [0#8])) (altflag : Bool)
    (precision width : Word) :
    Returns (fun n => putString k altflag n p precision width) s (width - BitVec.ofNat 32 (cut precision l).length)
      (feed k s ((cut precision l).map (shown altflag))) := by
  induction l generalizing s p precision width with
  | nil =>
    rw [cut_nil, List.length_nil, BitVec.sub_zero]
    have hnul : k.reader s p = some 0#8 := get_ok_iff.1 h.reads.head
    exact Returns.succ_iff.1 (Returns.of_run fun n => run_putString_none hnul (Or.inl rfl))
  | cons c l ih =>
    obtain ⟨hc, hl⟩ := not_or.1 (List.mem_cons.not.1 h0)
    have hget : (k.reader s).get p = .ok c := Reads.head h.reads
    rw [← Returns.succ_iff, cut_cons]
    simp only [putString]
    refine (returns_scan 0 fun n _ => hget).bind ?_
    simp only [if_neg (Ne.symm hc)]
    by_cases hallowed : allowed precision
    · simp only [if_pos hallowed]
      rw [List.length_cons, Nat.add_comm, BitVec.ofNat_add, ← BitVec.sub_sub]
      exact (returns_emit s _).bind (ih hl ((Text.tail h).putch (shown altflag c)) _ _)
    · simp only [if_neg hallowed]
      rw [List.length_nil, BitVec.sub_zero]
      exact Returns.pure

/-- the width that the string leaves for the padding on its left -/
def leading (d : Dir) (l : List Byte) : Word := d.width - BitVec.ofNat 32 (min l.length d.precision.toNat)

/-- what `%s` puts out for the string l -/
def stringText (d : Dir) (l : List Byte) : List Word :=
  let body := (cut d.precision l).map (shown d.altflag)
  if (0#32).slt d.width ∧ d.padc ≠ int (chr '-') then
    padding d.padc (leading d l) ++
      (body ++ padding (int (chr ' ')) (padded (leading d l) - BitVec.ofNat 32 (cut d.precision l).length))
  else body ++ padding (int (chr ' ')) (d.width - BitVec.ofNat 32 (cut d.precision l).length)

theorem returns_convString {l : List Byte} (h0 : 0#8 ∉ l) {p : Ptr} (h : Text k s (strArg p) (l ++ [0#8])) (d : Dir) :
    Returns (fun n => convString k n d p) s () (feed k s (stringText d l)) := by
  -- the string and the padding on its right
  have hbody : ∀ (cs : List Word) (width : Word),
      Returns (fun n => do
        let width ← putString k d.altflag n (strArg p) d.precision width
        let _ ← padLoop k (int (chr ' ')) n width) (feed k s cs) ()
        (feed k (feed k s cs) ((cut d.precision l).map (shown d.altflag) ++
          padding (int (chr ' ')) (width - BitVec.ofNat 32 (cut d.precision l).length))) := by
    intro cs width
    rw [feed_append]
    exact (returns_putString h0 (h.feed cs) _ _ _).bind ((returns_padLoop _ _ _).bind Returns.pure)
  rw [stringText]
  by_cases hpad : (0#32).slt d.width ∧ d.padc ≠ int (chr '-')
  · simp only [convString, padString, if_pos hpad]
    rw [feed_append]
    refine Returns.bind (a := padded (leading d l)) ?_ (hbody _ _)
    refine (returns_scan l.length fun n hn => strnlen_reads h0 h.reads hn d.precision 0#32).bind ?_
    rw [BitVec.zero_add]
    exact returns_padLoop s d.padc (leading d l)
  · simp only [convString, padString, if_neg hpad]
    exact Returns.bind Returns.pure (hbody [] d.width)

end Output

end Jos
