/-
The field of a directive: what stands in it, and what fills it.

`Puts a f ap ap' cs`: wherever it stands in a format, the directive f puts out the characters cs and takes the arguments
from ap to ap'. There is one such text (`Puts.unique`), and it is read off the scanned directive (`puts_directive`).
Results:
- `decimal_value`: the scan of a literal number gives its value;
- `puts_number`: a number is put out as its sign, the padding for its digits alone, and its digits;
- `number_field`: this is the field of the number exactly when nothing is padded, or the number is not negative and the
  flag is not '-' (`number_field_defects`).
-/
import Jos.Printf.Total

namespace Jos

open Jos.Lib

/-! ## Directives -/

def Puts (a : Args) (f : List Byte) (ap ap' : ℕ) (cs : List Word) : Prop :=
  ∀ (τ : Type) (k : Sink τ) (s t : τ) (va : VaList) (fmt : Ptr), Text k s fmt f → Passed k s va a (requests none f ap) →
    (Returns (fun n => vprintfmt k n fmt va ap) s () t ↔
      Returns (fun n => vprintfmt k n (fmt.skip f.length) va ap') (feed k s cs) () t)

/-- a sink that keeps what it gets and reads nothing -/
def recorder : Sink (List Word) where
  read _ _ := none
  putch c s := s ++ [c]

theorem feed_recorder (s cs : List Word) : feed recorder s cs = s ++ cs := by
  induction cs generalizing s with
  | nil => exact (List.append_nil s).symm
  | cons c cs ih =>
    change feed recorder (s ++ [c]) cs = _
    rw [ih, List.append_assoc]
    rfl

section Directives

variable {a : Args} {f : List Byte} {ap ap' ap'' : ℕ} {cs cs' : List Word}

/-- a directive at the end of a literal format -/
theorem Puts.recorded (h : Puts a f ap ap' cs) :
    Returns (fun n => vprintfmt recorder n (.lit f 0) ⟨a.word, fun i => .lit (a.text i) 0⟩ ap) [] () cs := by
  let va : VaList := ⟨a.word, fun i => .lit (a.text i) 0⟩
  have hlit : Text recorder [] (.lit f 0) (f ++ [0#8]) := Text.lit f
  refine (h _ recorder [] cs va (.lit f 0) hlit.left ⟨rfl, fun i _ => Text.lit _⟩).2 ?_
  have hfeed : feed recorder [] cs = cs := (feed_recorder [] cs).trans (List.nil_append cs)
  have hnul : Returns (fun n => vprintfmt recorder n ((Ptr.lit f 0).skip f.length) va ap') (feed recorder [] cs) ()
      (feed recorder [] cs) := vprintfmt_nul (hlit.right.feed cs).reads.head
  rw [hfeed] at hnul ⊢
  exact hnul

theorem Puts.unique (h : Puts a f ap ap' cs) (h' : Puts a f ap ap'' cs') : cs = cs' := (h.recorded.unique h'.recorded).2

theorem conversions_not_modifier {c : Byte} (hc : c ∈ conversions) : ¬ Modifier c := by
  have hall : ∀ x ∈ conversions, ¬ Modifier x := by decide
  exact hall c hc

/-- a directive puts out the text of its conversion -/
theorem puts_directive {mods : List Byte} {c : Byte} (hmods : ∀ b ∈ mods, Modifier b) (hc : c ∈ conversions)
    (hd : ∀ fmt, ∃ d, Scanned a.word (Dir.start fmt ap) mods c d ∧ convText a c d = cs)
    (ha : a.Proper [(c, ap + mods.count (chr '*'))]) :
    Puts a (chr '%' :: (mods ++ [c])) ap
      (ap + mods.count (chr '*') + slots c (BitVec.ofNat 32 (mods.count (chr 'l')))) cs := by
  intro τ k s t va fmt htext hva
  have hreq : requests none (chr '%' :: (mods ++ [c])) ap = [(c, ap + mods.count (chr '*'))] := by
    rw [requests_directive hmods, requests, if_neg (conversions_not_modifier hc), if_pos hc]
    rfl
  rw [hreq] at hva
  obtain ⟨d, hscan, rfl⟩ := hd fmt.next
  have hap : d.ap = ap + mods.count (chr '*') := hscan.ap
  have hlflag : d.lflag = BitVec.ofNat 32 (mods.count (chr 'l')) := by
    rw [hscan.lflag]
    exact BitVec.zero_add _
  have hfmt : d.fmt = fmt.skip (chr '%' :: (mods ++ [c])).length := by
    rw [hscan.fmt, List.length_cons, List.length_append]
    exact Ptr.skip_next fmt (mods.length + 1)
  rw [← hap] at hva ha ⊢
  have hret := returns_conv (k := k) (s := s) hc (d := d) hva.word (fun he => ha.err d.ap (he ▸ List.mem_cons_self))
    fun hs => ⟨ha.nul d.ap (hs ▸ List.mem_cons_self), hva.text d.ap (hs ▸ List.mem_cons_self)⟩
  rw [vprintfmt_directive htext (hva.word ▸ hscan) hret, hfmt, hlflag]

end Directives

/-! ## Literal numbers -/

/-- the value of a numeral -/
def decimalValue (l : List Byte) : ℕ := l.foldl (fun n c => n * 10 + (c.toNat - 48)) 0

theorem decimal_ofNat {c : Byte} (hc : Digit c) (n : ℕ) :
    decimal (BitVec.ofNat 32 n) c = BitVec.ofNat 32 (n * 10 + (c.toNat - 48)) := by
  have hlo : 48 ≤ c.toNat := hc.1
  have hint : int c = BitVec.ofNat 32 (c.toNat - 48) + int (chr '0') := by
    apply BitVec.eq_of_toNat_eq
    have h0 : (int (chr '0')).toNat = 48 := rfl
    have hlt := c.isLt
    rw [int, BitVec.toNat_setWidth, BitVec.toNat_add, BitVec.toNat_ofNat, h0]
    omega
  rw [decimal, hint, ← BitVec.add_assoc, BitVec.add_sub_cancel, BitVec.ofNat_add, BitVec.ofNat_mul]

/-- the scan of a literal number gives its value -/
theorem decimal_value {l : List Byte} (hl : ∀ c ∈ l, Digit c) (n : ℕ) :
    l.foldl decimal (BitVec.ofNat 32 n) = BitVec.ofNat 32 (l.foldl (fun n c => n * 10 + (c.toNat - 48)) n) := by
  induction l generalizing n with
  | nil => rfl
  | cons c l ih =>
    rw [List.foldl_cons, List.foldl_cons, decimal_ofNat (hl c List.mem_cons_self)]
    exact ih (fun x hx => hl x (List.mem_cons_of_mem c hx)) _

/-- a numeral without a leading 0: a '0' in front of it is a flag -/
structure Numeral (l : List Byte) : Prop where
  head : ∃ b ds, l = b :: ds ∧ b ≠ chr '0'
  digit : ∀ c ∈ l, Digit c

/-! ## Numeric fields -/

inductive Flag where
  | none
  | minus
  | zero
deriving DecidableEq, Repr

def Flag.chars : Flag → List Byte
  | none => []
  | minus => [chr '-']
  | zero => [chr '0']

/-- the pad character that the flag leaves -/
def Flag.padc : Flag → Word
  | none => int (chr ' ')
  | minus => int (chr '-')
  | zero => int (chr '0')

/-- what a numeric conversion prints: its base and its value -/
structure Number where
  base : ℕ
  value : ℤ

/-- the number that the conversion c takes at slot ap, after l times 'l' -/
def numberArg (word : ℕ → Word) (c : Byte) (ap l : ℕ) : Number :=
  if c = chr 'd' then ⟨10, (getint (VaList.ofWords word) ap (BitVec.ofNat 32 l)).1.toInt⟩
  else ⟨if c = chr 'u' then 10 else if c = chr 'o' then 8 else 16,
    (getuint (VaList.ofWords word) ap (BitVec.ofNat 32 l)).1.toNat⟩

namespace Number

def sign (N : Number) : List Word := if N.value < 0 then [int (chr '-')] else []

def digits (N : Number) : List Word := (numDigits N.base N.value.natAbs).reverse.map digitChar

/-- the signed number in a field of w characters: blanks in front of it, zeros behind its sign, or blanks behind it -/
def field (N : Number) (flag : Flag) (w : ℕ) : List Word :=
  let fill := w - (N.sign.length + N.digits.length)
  match flag with
  | .none => List.replicate fill (int (chr ' ')) ++ (N.sign ++ N.digits)
  | .zero => N.sign ++ (List.replicate fill (int (chr '0')) ++ N.digits)
  | .minus => N.sign ++ N.digits ++ List.replicate fill (int (chr ' '))

theorem length_field (N : Number) (flag : Flag) (w : ℕ) :
    (N.field flag w).length = max w (N.sign.length + N.digits.length) := by
  cases flag with
  | none =>
    rw [field, List.length_append, List.length_append, List.length_replicate]
    omega
  | zero =>
    rw [field, List.length_append, List.length_append, List.length_replicate]
    omega
  | minus =>
    rw [field, List.length_append, List.length_append, List.length_replicate]
    omega

end Number

/-- `%`, flag, width, l times 'l' and the conversion -/
def numberFormat (flag : Flag) (width : List Byte) (l : ℕ) (c : Byte) : List Byte :=
  chr '%' :: (flag.chars ++ width ++ List.replicate l (chr 'l') ++ [c])

section Numbers

variable {a : Args} {word : ℕ → Word} {ap l w : ℕ} {c : Byte}

/-- the difference of two lengths is filled, as far as an int can count it -/
theorem padding_sub (pc : Word) {w n : ℕ} (hw : w < n + 2 ^ 31) (hn : n ≤ w + 2 ^ 31) :
    padding pc (BitVec.ofNat 32 w - BitVec.ofNat 32 n) = List.replicate (w - n) pc := by
  have hnat : (BitVec.ofNat 32 w - BitVec.ofNat 32 n).toInt.toNat = w - n := by
    rw [BitVec.toInt_eq_toNat_cond, BitVec.toNat_sub, BitVec.toNat_ofNat, BitVec.toNat_ofNat]
    split_ifs <;> omega
  rw [padding, hnat]

/-- the int that counts the padding has the right remainder -/
theorem sub_toInt_emod (w n : ℕ) : ((BitVec.ofNat 32 w - BitVec.ofNat 32 n).toInt - (w - n)) % 2 ^ 32 = 0 := by
  rw [BitVec.toInt_eq_toNat_cond, BitVec.toNat_sub, BitVec.toNat_ofNat, BitVec.toNat_ofNat]
  split_ifs <;> omega

theorem numDigits_length_le {base num k : ℕ} (hb : 2 ≤ base) (h : num < base ^ k) (hk : 0 < k) :
    (numDigits base num).length ≤ k := by
  rw [numDigits]
  split_ifs with h0
  · exact hk
  · exact (Nat.digits_length_le_iff hb num).2 h

/-- `l` times 'l' change nothing but lflag -/
theorem scanned_longs (word : ℕ → Word) (hc : ¬ Modifier c) (l : ℕ) (d : Dir) :
    ∃ d', Scanned word d (List.replicate l (chr 'l')) c d' ∧ d'.padc = d.padc ∧ d'.width = d.width := by
  induction l generalizing d with
  | zero => exact ⟨_, Scanned.last word d hc, rfl, rfl⟩
  | succ l ih =>
    obtain ⟨d', hd, hpadc, hwidth⟩ := ih (d.single word (chr 'l'))
    exact ⟨d', hd.single (by decide), hpadc, hwidth⟩

theorem replicate_longs (l : ℕ) : ∀ b ∈ List.replicate l (chr 'l'), Modifier b := by
  intro b hb
  rw [List.eq_of_mem_replicate hb]
  decide

/-- the scan of flag, width and 'l's -/
theorem scanned_field (word : ℕ → Word) (hc : c ∈ conversions) (flag : Flag) {width : List Byte} (hw : Numeral width)
    (l : ℕ) (fmt : Ptr) (ap : ℕ) :
    ∃ d, Scanned word (Dir.start fmt ap) (flag.chars ++ width ++ List.replicate l (chr 'l')) c d ∧
      d.padc = flag.padc ∧ d.width = BitVec.ofNat 32 (decimalValue width) := by
  have hm := conversions_not_modifier hc
  obtain ⟨⟨b, ds, rfl, h0⟩, hdigit⟩ := hw
  -- what follows the width is no digit
  have hend : ∃ x m, List.replicate l (chr 'l') ++ [c] = x :: m ∧ ¬ Digit x := by
    cases l with
    | zero => exact ⟨c, [], rfl, fun h => hm (Or.inr (Or.inl h))⟩
    | succ l => exact ⟨chr 'l', List.replicate l (chr 'l') ++ [c], rfl, by decide⟩
  have hnum : ∀ d : Dir, d.width = -1#32 → ∃ d', Scanned word d (b :: ds ++ List.replicate l (chr 'l')) c d' ∧
      d'.padc = d.padc ∧ d'.width = BitVec.ofNat 32 (decimalValue (b :: ds)) := by
    intro d hd
    obtain ⟨d', hd', hpadc, hwidth⟩ := scanned_longs word hm l (d.number b ds)
    have hval := decimal_value hdigit 0
    refine ⟨d', hd'.number ((hdigit b List.mem_cons_self).of_ne_zero h0)
      (fun x hx => hdigit x (List.mem_cons_of_mem b hx)) hend, ?_, ?_⟩
    · rw [hpadc, Dir.number, Dir.processPrecision, hd, if_pos neg_one_slt]
    · rw [hwidth, Dir.number, Dir.processPrecision, hd, if_pos neg_one_slt]
      exact hval
  cases flag with
  | none => exact hnum (Dir.start fmt ap) rfl
  | minus =>
    obtain ⟨d, hd, hpadc, hwidth⟩ := hnum ((Dir.start fmt ap).single word (chr '-')) rfl
    exact ⟨d, hd.single (by decide), hpadc, hwidth⟩
  | zero =>
    obtain ⟨d, hd, hpadc, hwidth⟩ := hnum ((Dir.start fmt ap).single word (chr '0')) rfl
    exact ⟨d, hd.single (by decide), hpadc, hwidth⟩

theorem numberArg_base (word : ℕ → Word) (c : Byte) (ap l : ℕ) : 2 ≤ (numberArg word c ap l).base := by
  rw [numberArg]
  split_ifs <;> exact of_decide_eq_true rfl

theorem numberArg_lt (word : ℕ → Word) (c : Byte) (ap l : ℕ) : (numberArg word c ap l).value.natAbs < 2 ^ 64 := by
  rw [numberArg]
  split_ifs with hd
  · have hlo := BitVec.le_toInt (getint (VaList.ofWords word) ap (BitVec.ofNat 32 l)).1
    have hhi := BitVec.toInt_lt (x := (getint (VaList.ofWords word) ap (BitVec.ofNat 32 l)).1)
    change (getint (VaList.ofWords word) ap (BitVec.ofNat 32 l)).1.toInt.natAbs < 2 ^ 64
    omega
  all_goals exact (getuint (VaList.ofWords word) ap (BitVec.ofNat 32 l)).1.isLt

theorem length_digits_le (word : ℕ → Word) (c : Byte) (ap l : ℕ) : (numberArg word c ap l).digits.length ≤ 64 := by
  have hb := numberArg_base word c ap l
  rw [Number.digits, List.length_map, List.length_reverse]
  refine numDigits_length_le hb (lt_of_lt_of_le (numberArg_lt word c ap l) ?_) (by decide)
  exact Nat.pow_le_pow_left hb 64

/-- a numeric conversion puts out the sign, and the number in what is left of the width -/
theorem convText_number (hc : c ∈ str "duox") (a : Args) {d : Dir} (hl : d.lflag = BitVec.ofNat 32 l) :
    convText a c d = (numberArg a.word c d.ap l).sign ++
      (padding d.padc (d.width - BitVec.ofNat 32 (numberArg a.word c d.ap l).digits.length) ++
        (numberArg a.word c d.ap l).digits) := by
  have hcases : c = chr 'd' ∨ c = chr 'u' ∨ c = chr 'o' ∨ c = chr 'x' := by
    simpa [str] using hc
  have hunsigned : ∀ (base : ℕ) (num : BitVec 64), number base d.padc num.toNat d.width =
      (Number.mk base num.toNat).sign ++
        (padding d.padc (d.width - BitVec.ofNat 32 (Number.mk base num.toNat).digits.length) ++
          (Number.mk base num.toNat).digits) := by
    intro base num
    have hnn : ¬ (num.toNat : ℤ) < 0 := not_lt.2 (Int.natCast_nonneg _)
    rw [Number.sign, if_neg hnn, List.nil_append, number, Number.digits, List.length_map, List.length_reverse]
    rfl
  rcases hcases with rfl | rfl | rfl | rfl
  · rw [convText_decimal, numberArg, if_pos rfl, hl, decimalText]
    generalize (getint (VaList.ofWords a.word) d.ap (BitVec.ofNat 32 l)).1 = num
    by_cases hneg : num.slt 0#64
    · have hlt : num.toInt < 0 := BitVec.slt_iff_toInt_lt.1 hneg
      have habs : (-num).toNat = num.toInt.natAbs := by
        have := num.isLt
        rw [BitVec.toInt_eq_toNat_cond] at hlt ⊢
        rw [BitVec.toNat_neg]
        split_ifs at hlt ⊢ <;> omega
      rw [if_pos hneg, Number.sign, if_pos hlt, habs, number, Number.digits, List.length_map, List.length_reverse]
      rfl
    · have hnn : ¬ num.toInt < 0 := fun h => hneg (BitVec.slt_iff_toInt_lt.2 h)
      have habs : num.toNat = num.toInt.natAbs := by
        have := num.isLt
        rw [BitVec.toInt_eq_toNat_cond] at hnn ⊢
        split_ifs at hnn ⊢ <;> omega
      rw [if_neg hneg, Number.sign, if_neg hnn, habs, number, Number.digits, List.length_map, List.length_reverse]
      rfl
  · rw [numberArg, if_neg (by decide), if_pos rfl, ← hl]
    exact hunsigned 10 _
  · rw [numberArg, if_neg (by decide), if_neg (by decide), if_pos rfl, ← hl]
    exact hunsigned 8 _
  · rw [numberArg, if_neg (by decide), if_neg (by decide), if_neg (by decide), ← hl]
    exact hunsigned 16 _

theorem proper_plain (a : Args) (he : c ≠ chr 'e') (hs : c ≠ chr 's') (i : ℕ) : a.Proper [(c, i)] where
  err _ hj := absurd (congrArg Prod.fst (List.mem_singleton.1 hj)).symm he
  nul _ hj := absurd (congrArg Prod.fst (List.mem_singleton.1 hj)).symm hs

theorem proper_string (a : Args) {i : ℕ} (h : 0#8 ∉ a.text i) : a.Proper [(chr 's', i)] where
  err _ hj := absurd (Prod.mk.inj (List.mem_singleton.1 hj)).1 (by decide)
  nul j hj := by
    obtain ⟨-, rfl⟩ := Prod.mk.inj (List.mem_singleton.1 hj)
    exact h

/-- a numeric directive, whatever its modifiers but '*' -/
theorem puts_numeric (a : Args) (hc : c ∈ str "duox") {mods : List Byte} (hmods : ∀ b ∈ mods, Modifier b)
    (hstar : chr '*' ∉ mods) (hlong : mods.count (chr 'l') = l) {padc width : Word} {ap : ℕ}
    (hd : ∀ fmt, ∃ d, Scanned a.word (Dir.start fmt ap) mods c d ∧ d.padc = padc ∧ d.width = width) :
    Puts a (chr '%' :: (mods ++ [c])) ap (ap + slots c (BitVec.ofNat 32 l))
      ((numberArg a.word c ap l).sign ++
        (padding padc (width - BitVec.ofNat 32 (numberArg a.word c ap l).digits.length) ++
          (numberArg a.word c ap l).digits)) := by
  have hcount : mods.count (chr '*') = 0 := List.count_eq_zero_of_not_mem hstar
  have hne : ∀ e : Byte, e ∉ str "duox" → c ≠ e := by
    rintro e he rfl
    exact he hc
  have hslots : ap + slots c (BitVec.ofNat 32 l) =
      ap + mods.count (chr '*') + slots c (BitVec.ofNat 32 (mods.count (chr 'l'))) := by
    rw [hcount, hlong, Nat.add_zero]
  rw [hslots]
  have hconv : c ∈ conversions := by
    have hall : ∀ x ∈ str "duox", x ∈ conversions := by decide
    exact hall c hc
  apply puts_directive hmods hconv
  · intro fmt
    obtain ⟨d, hscan, rfl, rfl⟩ := hd fmt
    have hap : d.ap = ap := by
      rw [hscan.ap, hcount]
      rfl
    have hlflag : d.lflag = BitVec.ofNat 32 l := by
      rw [hscan.lflag, hlong]
      exact BitVec.zero_add _
    refine ⟨d, hscan, ?_⟩
    rw [convText_number hc a hlflag, hap]
  · exact proper_plain a (hne _ (by decide)) (hne _ (by decide)) _

/-- **A number in a field**: its sign, the padding for its digits alone, and its digits. -/
theorem puts_number (a : Args) (hc : c ∈ str "duox") (flag : Flag) {width : List Byte} (hw : Numeral width) (l ap : ℕ) :
    Puts a (numberFormat flag width l c) ap (ap + slots c (BitVec.ofNat 32 l))
      ((numberArg a.word c ap l).sign ++
        (padding flag.padc (BitVec.ofNat 32 (decimalValue width) - BitVec.ofNat 32 (numberArg a.word c ap l).digits.length) ++
          (numberArg a.word c ap l).digits)) := by
  have hconv : c ∈ conversions := by
    have hall : ∀ x ∈ str "duox", x ∈ conversions := by decide
    exact hall c hc
  have hchars : ∀ x ∈ flag.chars ++ width, x = chr '-' ∨ Digit x := by
    intro x hx
    rcases List.mem_append.1 hx with hx | hx
    · cases flag with
      | none => cases hx
      | minus => exact Or.inl (List.mem_singleton.1 hx)
      | zero => exact Or.inr (List.mem_singleton.1 hx ▸ by decide)
    · exact Or.inr (hw.digit x hx)
  have hmods : ∀ b ∈ flag.chars ++ width ++ List.replicate l (chr 'l'), Modifier b := by
    intro b hb
    rcases List.mem_append.1 hb with hb | hb
    · rcases hchars b hb with rfl | hd
      · exact Or.inl rfl
      · exact Or.inr (Or.inl hd)
    · exact replicate_longs l b hb
  have hstar : chr '*' ∉ flag.chars ++ width ++ List.replicate l (chr 'l') := by
    intro h
    rcases List.mem_append.1 h with h | h
    · exact absurd (hchars _ h) (by decide)
    · exact absurd (List.eq_of_mem_replicate h) (by decide)
  have hlong : (flag.chars ++ width ++ List.replicate l (chr 'l')).count (chr 'l') = l := by
    have hnone : (flag.chars ++ width).count (chr 'l') = 0 :=
      List.count_eq_zero_of_not_mem fun h => absurd (hchars _ h) (by decide)
    rw [List.count_append, hnone, List.count_replicate, if_pos (by decide), Nat.zero_add]
  exact puts_numeric a hc hmods hstar hlong fun fmt => scanned_field a.word hconv flag hw l fmt ap

theorem digits_ne_nil (N : Number) : N.digits ≠ [] := by
  rw [Number.digits, numDigits]
  split_ifs with h0
  · exact List.cons_ne_nil _ _
  · rw [ne_eq, List.map_eq_nil_iff, List.reverse_eq_nil_iff]
    exact Nat.digits_ne_nil_iff_ne_zero.2 h0

/-- no digit is a '-' -/
theorem digits_not_minus {N : Number} (hb : 2 ≤ N.base) (hb' : N.base ≤ 16) : int (chr '-') ∉ N.digits := by
  intro h
  obtain ⟨i, hi, heq⟩ := List.mem_map.1 h
  have hlt : i < 16 := by
    rw [List.mem_reverse, numDigits] at hi
    split_ifs at hi with h0
    · rw [List.mem_singleton.1 hi]
      decide
    · exact lt_of_lt_of_le (Nat.digits_lt_base hb hi) hb'
  have hall : ∀ i < 16, digitChar i ≠ int (chr '-') := by decide
  exact hall i hlt heq

theorem numberArg_base_le (word : ℕ → Word) (c : Byte) (ap l : ℕ) : (numberArg word c ap l).base ≤ 16 := by
  rw [numberArg]
  split_ifs <;> exact of_decide_eq_true rfl

theorem Number.sign_eq_nil {N : Number} (h : 0 ≤ N.value) : N.sign = [] := if_neg (not_lt.2 h)

/-- the field is filled where nothing is padded, or where the padding is put in front of the digits alone -/
theorem field_filled (N : Number) (flag : Flag) {w : ℕ} (hlen : N.digits.length ≤ 64)
    (h : w ≤ N.digits.length ∨ (0 ≤ N.value ∧ flag ≠ .minus ∧ w < N.digits.length + 2 ^ 31)) :
    N.sign ++ (padding flag.padc (BitVec.ofNat 32 w - BitVec.ofNat 32 N.digits.length) ++ N.digits) = N.field flag w := by
  rcases h with hw | ⟨hnn, hflag, hw⟩
  · have hfill : w - (N.sign.length + N.digits.length) = 0 := by omega
    rw [padding_sub _ (by omega) (by omega), Nat.sub_eq_zero_of_le hw]
    cases flag with
    | none =>
      rw [Number.field, hfill]
      rfl
    | zero =>
      rw [Number.field, hfill]
      rfl
    | minus =>
      rw [Number.field, hfill]
      exact (List.append_nil _).symm
  · rw [padding_sub _ hw (by omega)]
    cases flag with
    | none =>
      rw [Number.field, Number.sign_eq_nil hnn, List.length_nil, Nat.zero_add]
      rfl
    | zero =>
      rw [Number.field, Number.sign_eq_nil hnn, List.length_nil, Nat.zero_add]
      rfl
    | minus => exact absurd rfl hflag

/-- where something is padded the field is filled in no other case: the sign takes a character more than is counted, and
a padding of minus signs is seen in front of the digits -/
theorem filled_field (N : Number) (flag : Flag) {w : ℕ} (hnil : N.digits ≠ []) (hminus : int (chr '-') ∉ N.digits)
    (hw : N.digits.length < w)
    (h : N.sign ++ (padding flag.padc (BitVec.ofNat 32 w - BitVec.ofNat 32 N.digits.length) ++ N.digits) =
      N.field flag w) : 0 ≤ N.value ∧ flag ≠ .minus ∧ w < N.digits.length + 2 ^ 31 := by
  have hmod := sub_toInt_emod w N.digits.length
  have hlo := BitVec.le_toInt (BitVec.ofNat 32 w - BitVec.ofNat 32 N.digits.length)
  have hhi := BitVec.toInt_lt (x := BitVec.ofNat 32 w - BitVec.ofNat 32 N.digits.length)
  have hlength := congrArg List.length h
  rw [Number.length_field, List.length_append, List.length_append, padding, List.length_replicate] at hlength
  have hnn : 0 ≤ N.value := by
    by_contra hneg
    have hone : N.sign.length = 1 := by
      rw [Number.sign, if_pos (not_le.1 hneg)]
      rfl
    omega
  rw [Number.sign_eq_nil hnn, List.length_nil] at hlength
  refine ⟨hnn, ?_, by omega⟩
  rintro rfl
  have hpos : (BitVec.ofNat 32 w - BitVec.ofNat 32 N.digits.length).toInt.toNat = w - N.digits.length - 1 + 1 := by omega
  rw [Number.sign_eq_nil hnn, Number.field, Number.sign_eq_nil hnn, padding, hpos, List.replicate_succ] at h
  obtain ⟨x, ds, hx⟩ := List.exists_cons_of_ne_nil hnil
  rw [hx] at h
  obtain ⟨hhead, -⟩ := List.cons.inj h
  exact hminus (hx ▸ hhead ▸ List.mem_cons_self)

/-- **The field of a number.** A numeric directive fills its field as it should exactly when no padding is needed, or the
number is not negative, the flag is not '-' and an int can count the padding: behind a sign the padding does not count the
sign, and the flag '-' puts minus signs in front of the digits. -/
theorem number_field (a : Args) (hc : c ∈ str "duox") (flag : Flag) {width : List Byte} (hw : Numeral width) (l ap : ℕ) :
    (∃ cs, Puts a (numberFormat flag width l c) ap (ap + slots c (BitVec.ofNat 32 l)) cs ∧
      cs = (numberArg a.word c ap l).field flag (decimalValue width) ∧
      cs.length = max (decimalValue width)
        ((numberArg a.word c ap l).sign.length + (numberArg a.word c ap l).digits.length)) ↔
    decimalValue width ≤ (numberArg a.word c ap l).digits.length ∨
      (0 ≤ (numberArg a.word c ap l).value ∧ flag ≠ .minus ∧
        decimalValue width < (numberArg a.word c ap l).digits.length + 2 ^ 31) := by
  have hputs := puts_number a hc flag hw l ap
  have hlen := length_digits_le a.word c ap l
  have hminus := digits_not_minus (numberArg_base a.word c ap l) (numberArg_base_le a.word c ap l)
  have hnil := digits_ne_nil (numberArg a.word c ap l)
  constructor
  · rintro ⟨cs, hcs, hfield, -⟩
    by_cases hle : decimalValue width ≤ (numberArg a.word c ap l).digits.length
    · exact Or.inl hle
    · refine Or.inr (filled_field _ flag hnil hminus (not_le.1 hle) ?_)
      rw [← hfield]
      exact hputs.unique hcs
  · intro h
    have hfield := field_filled _ flag hlen h
    refine ⟨_, hputs, hfield, ?_⟩
    rw [hfield]
    exact Number.length_field _ _ _

/-- `%5d` of 42 -/
theorem number_field_positive : ∃ cs, Puts ⟨fun _ => 42#32, fun _ => []⟩ (numberFormat .none (str "5") 0 (chr 'd')) 0 1 cs ∧
    cs = (numberArg (fun _ => 42#32) (chr 'd') 0 0).field .none 5 ∧ cs.length = 5 := by
  have hnum : Numeral (str "5") := ⟨⟨chr '5', [], by decide⟩, by decide⟩
  exact (number_field ⟨fun _ => 42#32, fun _ => []⟩ (c := chr 'd') (by decide) .none hnum 0 0).2
    (Or.inr (by decide))

/-- `%5d` of -3 puts out six characters with the sign in front, and `%-5d` of 3 puts out "----3" -/
theorem number_field_defects :
    (Puts ⟨fun _ => -3#32, fun _ => []⟩ (str "%5d") 0 1 ((str "-    3").map int) ∧
      ¬ ∃ cs, Puts ⟨fun _ => -3#32, fun _ => []⟩ (str "%5d") 0 1 cs ∧ cs.length = 5) ∧
    Puts ⟨fun _ => 3#32, fun _ => []⟩ (str "%-5d") 0 1 ((str "----3").map int) ∧
      ¬ ∃ cs, Puts ⟨fun _ => 3#32, fun _ => []⟩ (str "%-5d") 0 1 cs ∧ cs = (str "3    ").map int := by
  have hnum : Numeral (str "5") := ⟨⟨chr '5', [], by decide⟩, by decide⟩
  have hneg : Puts ⟨fun _ => -3#32, fun _ => []⟩ (str "%5d") 0 1 ((str "-    3").map int) := by
    have h := puts_number ⟨fun _ => -3#32, fun _ => []⟩ (c := chr 'd') (by decide) .none hnum 0 0
    exact h
  have hleft : Puts ⟨fun _ => 3#32, fun _ => []⟩ (str "%-5d") 0 1 ((str "----3").map int) := by
    have h := puts_number ⟨fun _ => 3#32, fun _ => []⟩ (c := chr 'd') (by decide) .minus hnum 0 0
    exact h
  refine ⟨⟨hneg, ?_⟩, hleft, ?_⟩
  · rintro ⟨cs, hcs, hlen⟩
    rw [← hneg.unique hcs] at hlen
    exact absurd hlen (by decide)
  · rintro ⟨cs, hcs, hsame⟩
    rw [← hleft.unique hcs] at hsame
    exact absurd hsame (by decide)

end Numbers

end Jos
