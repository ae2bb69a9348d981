/-
Numbers as text, and back (strtol of lib/string.c).

strtol skips blanks, takes a sign and the prefix of the base, and then every digit below the base, with 32-bit
arithmetic throughout. Results:
- `puts_plain`, `puts_pointer`: without a width a number is put out as its sign and its digits;
- `strtol_reads`: strtol reads a sign, a prefix and digits to their end;
- `strtol_vsnprintf`: strtol returns what snprintf has printed under %d, %x, %o and %p, and `%lld` prints the decimal
  numeral of every 64-bit int.
-/
import Jos.Printf.Field

namespace Jos

open Jos.Lib

/-! ## lib/string.c -/

/-- `while (*s == ' ' || *s == '\t')` -/
def strtolBlanks (r : Reader) : ℕ → Ptr → Except Stop Ptr
  | 0, _ => .error .steps
  | fuel + 1, s => do
    let c ← r.get s
    if c = chr ' ' ∨ c = chr '\t' then strtolBlanks r fuel s.next
    else return s

/-- plus/minus sign: what is left, and neg -/
def strtolSign (r : Reader) (s : Ptr) : Except Stop (Ptr × Bool) := do
  let c ← r.get s
  if c = chr '+' then return (s.next, false)
  else if c = chr '-' then return (s.next, true)
  else return (s, false)

/-- hex or octal base prefix; `s[1]` is read only behind a '0' -/
def strtolBase (r : Reader) (s : Ptr) (base : Word) : Except Stop (Ptr × Word) :=
  if base = 0#32 ∨ base = 16#32 then do
    let c ← r.get s
    if c = chr '0' then do
      if (← r.get s.next) = chr 'x' then return (s.next.next, 16#32)
      else if base = 0#32 then return (s.next, 8#32)
      else return (s, base)
    else if base = 0#32 then return (s, 10#32)
    else return (s, base)
  else return (s, base)

/-- the value of a digit or a letter -/
def dig (c : Byte) : Option Word :=
  if chr '0' ≤ c ∧ c ≤ chr '9' then some (int c - int (chr '0'))
  else if chr 'a' ≤ c ∧ c ≤ chr 'z' then some (int c - int (chr 'a') + 10#32)
  else if chr 'A' ≤ c ∧ c ≤ chr 'Z' then some (int c - int (chr 'A') + 10#32)
  else none

/-- the digits; `dig >= base` compares as ints -/
def strtolDigits (r : Reader) (base : Word) : ℕ → Ptr → Word → Except Stop (Word × Ptr)
  | 0, _, _ => .error .steps
  | fuel + 1, s, val => do
    match dig (← r.get s) with
    | none => return (val, s)
    | some d =>
      if base.sle d then return (val, s)
      else strtolDigits r base fuel s.next (val * base + d)

/-- the long, and `*endptr` -/
def strtol (r : Reader) (fuel : ℕ) (s : Ptr) (base : Word) : Except Stop (Word × Ptr) := do
  let s ← strtolBlanks r fuel s
  let (s, neg) ← strtolSign r s
  let (s, base) ← strtolBase r s base
  let (val, s) ← strtolDigits r base fuel s 0#32
  return (if neg then -val else val, s)

/-! ## Reading a number -/

/-- a digit of a number, as it stands in memory -/
def digitByte (i : ℕ) : Byte := (digitChar i).setWidth 8

theorem dig_digitByte {i : ℕ} (hi : i < 16) : dig (digitByte i) = some (BitVec.ofNat 32 i) := by
  have hall : ∀ i < 16, dig (digitByte i) = some (BitVec.ofNat 32 i) := by decide
  exact hall i hi

/-- digits are no blanks, signs, NULs and no 'x' -/
theorem digitByte_ne {i : ℕ} (hi : i < 16) {c : Byte} (hc : c ∈ str " \t+-x" ++ [0#8]) : digitByte i ≠ c := by
  have hall : ∀ i < 16, ∀ c ∈ str " \t+-x" ++ [0#8], digitByte i ≠ c := by decide
  exact hall i hi c hc

section Reading

variable {r : Reader} {p : Ptr} {fuel : ℕ} {c : Byte}

theorem strtolDigits_reads {b : ℕ} (hb : b ≤ 16) {is : List ℕ} (his : ∀ i ∈ is, i < b) (hc : dig c = none)
    (h : Reads r p (is.map digitByte ++ [c])) (hf : is.length < fuel) (val : Word) :
    strtolDigits r (BitVec.ofNat 32 b) fuel p val =
      .ok (is.foldl (fun v i => v * BitVec.ofNat 32 b + BitVec.ofNat 32 i) val, p.skip is.length) := by
  induction is generalizing p fuel val with
  | nil =>
    obtain ⟨fuel, rfl⟩ := Nat.exists_eq_add_of_lt hf
    rw [strtolDigits]
    refine Prog.except_bind_ok.2 ⟨c, h.head, ?_⟩
    rw [hc, List.length_nil, Ptr.skip_zero]
    rfl
  | cons i is ih =>
    obtain ⟨fuel, rfl⟩ := Nat.exists_eq_add_of_lt hf
    have hi : i < b := his i List.mem_cons_self
    have hlt : ¬ (BitVec.ofNat 32 b).sle (BitVec.ofNat 32 i) := by
      rw [BitVec.sle_iff_toInt_le, BitVec.toInt_eq_toNat_cond, BitVec.toInt_eq_toNat_cond, BitVec.toNat_ofNat,
        BitVec.toNat_ofNat]
      split_ifs <;> omega
    rw [strtolDigits]
    refine Prog.except_bind_ok.2 ⟨digitByte i, Reads.head h, ?_⟩
    rw [dig_digitByte (by omega)]
    simp only [if_neg hlt]
    rw [ih (fun x hx => his x (List.mem_cons_of_mem i hx)) (Reads.tail h) (by rw [List.length_cons]; omega),
      Ptr.skip_next]
    rfl

theorem strtolBlanks_none (h : r.get p = .ok c) (hspace : c ≠ chr ' ') (htab : c ≠ chr '\t') (hf : 0 < fuel) :
    strtolBlanks r fuel p = .ok p := by
  obtain ⟨fuel, rfl⟩ := Nat.exists_eq_add_of_lt hf
  rw [strtolBlanks]
  refine Prog.except_bind_ok.2 ⟨c, h, ?_⟩
  rw [if_neg (not_or.2 ⟨hspace, htab⟩)]
  rfl

theorem strtolSign_minus (h : r.get p = .ok (chr '-')) : strtolSign r p = .ok (p.next, true) := by
  rw [strtolSign]
  exact Prog.except_bind_ok.2 ⟨chr '-', h, rfl⟩

theorem strtolSign_none (h : r.get p = .ok c) (hplus : c ≠ chr '+') (hminus : c ≠ chr '-') :
    strtolSign r p = .ok (p, false) := by
  rw [strtolSign]
  refine Prog.except_bind_ok.2 ⟨c, h, ?_⟩
  rw [if_neg hplus, if_neg hminus]
  rfl

theorem strtolBase_hex (h : Reads r p [chr '0', chr 'x']) {base : Word} (hbase : base = 0#32 ∨ base = 16#32) :
    strtolBase r p base = .ok (p.next.next, 16#32) := by
  rw [strtolBase, if_pos hbase]
  refine Prog.except_bind_ok.2 ⟨chr '0', h.head, ?_⟩
  rw [if_pos rfl]
  exact Prog.except_bind_ok.2 ⟨chr 'x', h.tail.head, rfl⟩

/-- no prefix: a base is given, and no 'x' stands behind the first character -/
theorem strtolBase_none {d : Byte} (h : Reads r p [c, d]) (hd : d ≠ chr 'x') {base : Word} (hbase : base ≠ 0#32) :
    strtolBase r p base = .ok (p, base) := by
  rw [strtolBase]
  by_cases h16 : base = 0#32 ∨ base = 16#32
  · rw [if_pos h16]
    refine Prog.except_bind_ok.2 ⟨c, h.head, ?_⟩
    by_cases hc : c = chr '0'
    · rw [if_pos hc]
      refine Prog.except_bind_ok.2 ⟨d, h.tail.head, ?_⟩
      rw [if_neg hd, if_neg hbase]
      rfl
    · rw [if_neg hc, if_neg hbase]
      rfl
  · rw [if_neg h16]
    rfl

/-- the digits of a number, read from the left -/
theorem numDigits_foldl {b : ℕ} (hb : 2 ≤ b) (num : ℕ) :
    (numDigits b num).reverse.foldl (fun v i => v * BitVec.ofNat 32 b + BitVec.ofNat 32 i) 0#32 = BitVec.ofNat 32 num := by
  induction num using Nat.strong_induction_on with
  | _ num ih =>
    by_cases hnum : b ≤ num
    · have hdiv : num / b < num := Nat.div_lt_self (by omega) hb
      calc (numDigits b num).reverse.foldl (fun v i => v * BitVec.ofNat 32 b + BitVec.ofNat 32 i) 0#32
          = ((numDigits b (num / b)).reverse ++ [num % b]).foldl (fun v i => v * BitVec.ofNat 32 b + BitVec.ofNat 32 i) 0#32 := by
            rw [numDigits_of_le hb hnum, List.reverse_cons]
        _ = (numDigits b (num / b)).reverse.foldl (fun v i => v * BitVec.ofNat 32 b + BitVec.ofNat 32 i) 0#32 *
              BitVec.ofNat 32 b + BitVec.ofNat 32 (num % b) := List.foldl_append
        _ = BitVec.ofNat 32 (num / b) * BitVec.ofNat 32 b + BitVec.ofNat 32 (num % b) := by rw [ih _ hdiv]
        _ = BitVec.ofNat 32 num := by rw [← BitVec.ofNat_mul, ← BitVec.ofNat_add, Nat.div_add_mod']
    · rw [numDigits_of_lt (not_le.1 hnum)]
      exact (congrArg (· + BitVec.ofNat 32 num) (BitVec.zero_mul)).trans (BitVec.zero_add _)

/-- the prefix of a numeral in base b, where strtol is called with the base given -/
def Prefixed (b : ℕ) (base : Word) (pre : List Byte) : Prop :=
  (pre = [] ∧ base = BitVec.ofNat 32 b) ∨ (pre = [chr '0', chr 'x'] ∧ b = 16 ∧ (base = 0#32 ∨ base = 16#32))

/-- **strtol reads a numeral** to its end: a sign, the prefix of its base, and digits up to the NUL. -/
theorem strtol_reads {b : ℕ} (hb : 2 ≤ b) (hb' : b ≤ 16) {base : Word} {pre : List Byte} (hpre : Prefixed b base pre)
    (neg : Bool) (num : ℕ)
    (h : Reads r p ((if neg then [chr '-'] else []) ++ (pre ++ ((numDigits b num).reverse.map digitByte ++ [0#8]))))
    (hf : (numDigits b num).length < fuel) :
    strtol r fuel p base = .ok (if neg then -BitVec.ofNat 32 num else BitVec.ofNat 32 num,
      p.skip ((if neg then [chr '-'] else []) ++ (pre ++ (numDigits b num).reverse.map digitByte)).length) := by
  have hdigits : ∀ q : Ptr, Reads r q ((numDigits b num).reverse.map digitByte ++ [0#8]) →
      strtolDigits r (BitVec.ofNat 32 b) fuel q 0#32 =
        .ok (BitVec.ofNat 32 num, q.skip ((numDigits b num).reverse.map digitByte).length) := by
    intro q hq
    rw [strtolDigits_reads hb' (fun i hi => numDigits_lt hb hi) (by decide) hq (by rw [List.length_reverse]; exact hf),
      numDigits_foldl hb, List.length_map]
  -- what stands in front of the digits: a first character, and what the base is found to be
  have hbase : ∀ q : Ptr, Reads r q (pre ++ ((numDigits b num).reverse.map digitByte ++ [0#8])) →
      (∃ c, r.get q = .ok c ∧ c ≠ chr ' ' ∧ c ≠ chr '\t' ∧ c ≠ chr '+' ∧ c ≠ chr '-') ∧
        strtolBase r q base = .ok (q.skip pre.length, BitVec.ofNat 32 b) := by
    intro q hq
    rcases hpre with ⟨rfl, rfl⟩ | ⟨rfl, rfl, hbase⟩
    · obtain ⟨i, is, his⟩ := List.exists_cons_of_ne_nil (numDigits_ne_nil b num)
      have hlt : ∀ x ∈ i :: is, x < 16 := by
        intro x hx
        exact lt_of_lt_of_le (numDigits_lt hb (his ▸ hx)) hb'
      have hi : i < 16 := hlt i List.mem_cons_self
      rw [his] at hq
      refine ⟨⟨digitByte i, Reads.head hq, digitByte_ne hi (by decide), digitByte_ne hi (by decide),
        digitByte_ne hi (by decide), digitByte_ne hi (by decide)⟩, ?_⟩
      have hne : BitVec.ofNat 32 b ≠ 0#32 := by
        intro h0
        have := congrArg BitVec.toNat h0
        rw [BitVec.toNat_ofNat, BitVec.toNat_ofNat] at this
        omega
      rw [List.length_nil, Ptr.skip_zero]
      cases is with
      | nil => exact strtolBase_none (d := 0#8) hq (by decide) hne
      | cons j is =>
        have hj : j < 16 := hlt j (List.mem_cons_of_mem i List.mem_cons_self)
        have hq' : Reads r q ([digitByte i, digitByte j] ++ (is.map digitByte ++ [0#8])) := hq
        exact strtolBase_none hq'.left (digitByte_ne hj (by decide)) hne
    · refine ⟨⟨chr '0', hq.head, by decide, by decide, by decide, by decide⟩, ?_⟩
      rw [strtolBase_hex hq.left hbase, Ptr.next_eq, Ptr.next_eq, Ptr.skip_skip]
      rfl
  cases neg with
  | false =>
    have hall : Reads r p (pre ++ ((numDigits b num).reverse.map digitByte ++ [0#8])) := h
    obtain ⟨⟨c, hc, hspace, htab, hplus, hminus⟩, hfound⟩ := hbase p hall
    rw [strtol]
    refine Prog.except_bind_ok.2 ⟨p, strtolBlanks_none hc hspace htab (by omega), ?_⟩
    refine Prog.except_bind_ok.2 ⟨(p, false), strtolSign_none hc hplus hminus, ?_⟩
    refine Prog.except_bind_ok.2 ⟨_, hfound, ?_⟩
    refine Prog.except_bind_ok.2 ⟨_, hdigits _ hall.right, ?_⟩
    rw [Ptr.skip_skip, ← List.length_append]
    rfl
  | true =>
    have hsign : Reads r p ([chr '-'] ++ (pre ++ ((numDigits b num).reverse.map digitByte ++ [0#8]))) := h
    have hall : Reads r p.next (pre ++ ((numDigits b num).reverse.map digitByte ++ [0#8])) := hsign.tail
    obtain ⟨-, hfound⟩ := hbase p.next hall
    rw [strtol]
    refine Prog.except_bind_ok.2 ⟨p, strtolBlanks_none hsign.head (by decide) (by decide) (by omega), ?_⟩
    refine Prog.except_bind_ok.2 ⟨(p.next, true), strtolSign_minus hsign.head, ?_⟩
    refine Prog.except_bind_ok.2 ⟨_, hfound, ?_⟩
    refine Prog.except_bind_ok.2 ⟨_, hdigits _ hall.right, ?_⟩
    rw [Ptr.skip_skip, ← List.length_append, Ptr.skip_next]
    rfl

end Reading

/-! ## What snprintf has printed -/

/-- if the characters fit, they stand in the buffer with a NUL behind them -/
theorem Filled.reads {m : Bytes} {buf n : Word} {b : Sprintbuf} (h : Filled m buf n b)
    (hfit : b.out.length < n.toNat) :
    Reads (Bytes.reader (Function.update b.mem b.buf 0#8)) (.mem buf) (b.out.map (BitVec.setWidth 8) ++ [0#8]) := by
  have hkept : kept n b.out = b.out.length := min_eq_left (by omega)
  have htext : Reads (Bytes.reader b.mem) (.mem buf) (b.out.map (BitVec.setWidth 8)) := by
    intro i c hc
    have hi := (List.getElem?_eq_some_iff.1 hc).1
    rw [List.length_map] at hi
    rw [List.getElem?_map, List.getElem?_eq_getElem hi] at hc
    change some (b.mem (buf + BitVec.ofNat 32 i)) = some c
    rw [h.bytes i (hkept ▸ hi), List.getD_eq_getElem?_getD, List.getElem?_eq_getElem hi]
    exact hc
  have hnext : b.buf = buf + BitVec.ofNat 32 (b.out.map (BitVec.setWidth 8)).length := by
    rw [List.length_map, ← hkept]
    exact h.next
  rw [hnext]
  exact htext.store (by rw [List.length_map]; exact lt_trans hfit n.isLt) 0#8

theorem sprint_out (b : Sprintbuf) (cs : List Word) : (feed sprintSink b cs).out = b.out ++ cs := by
  induction cs generalizing b with
  | nil => exact (List.append_nil b.out).symm
  | cons c cs ih =>
    have hput : (sprintputch c b).out = b.out ++ [c] := by
      rw [sprintputch]
      split_ifs <;> rfl
    change (feed sprintSink (sprintputch c b) cs).out = _
    rw [ih, hput, List.append_assoc]
    rfl

theorem vsnprintf_reads {m : Bytes} {buf n : Word} (hb : Buffer buf n) {fmt : Ptr} {va : VaList} {cs : List Word}
    (h : Returns (fun k => vprintfmt sprintSink k fmt va 0) (sprintStart buf n m) ()
      (feed sprintSink (sprintStart buf n m) cs)) :
    ∃ N, ∀ fuel, N ≤ fuel → ∃ ret b, vsnprintf fuel buf n fmt va m = .ok (ret, b) ∧ b.out = cs ∧
      (cs.length < n.toNat → Reads (Bytes.reader b.mem) (.mem buf) (cs.map (BitVec.setWidth 8) ++ [0#8])) := by
  have hcs : (feed sprintSink (sprintStart buf n m) cs).out = cs := sprint_out _ cs
  have hfilled : Filled m buf n (feed sprintSink (sprintStart buf n m) cs) := Filled.start.feed hb cs
  obtain ⟨N, hN⟩ := h
  refine ⟨N, fun fuel hfuel => ⟨_, _, (vsnprintf_ok hb).2 ⟨_, hN fuel hfuel, rfl, rfl⟩, hcs, fun hfit => ?_⟩⟩
  rw [← hcs] at hfit
  have hreads := hfilled.reads hfit
  rw [hcs] at hreads
  exact hreads

/-! ## Numbers without a width -/

section Plain

variable {a : Args} {c : Byte}

/-- nothing is padded to a width that is not given -/
theorem padding_unset (pc : Word) {n : ℕ} (hn : n < 2 ^ 31) : padding pc (-1#32 - BitVec.ofNat 32 n) = [] := by
  have hnone : (-1#32 - BitVec.ofNat 32 n).toInt.toNat = 0 := by
    rw [BitVec.toInt_eq_toNat_cond, BitVec.toNat_sub, BitVec.toNat_ofNat]
    have h1 : (-1#32 : Word).toNat = 4294967295 := rfl
    rw [h1]
    split_ifs <;> omega
  rw [padding, hnone]
  rfl

theorem puts_plain (a : Args) (hc : c ∈ str "duox") (l ap : ℕ) :
    Puts a (chr '%' :: (List.replicate l (chr 'l') ++ [c])) ap (ap + slots c (BitVec.ofNat 32 l))
      ((numberArg a.word c ap l).sign ++ (numberArg a.word c ap l).digits) := by
  have hm : ¬ Modifier c := by
    have hall : ∀ x ∈ str "duox", ¬ Modifier x := by decide
    exact hall c hc
  have hstar : chr '*' ∉ List.replicate l (chr 'l') := fun h => absurd (List.eq_of_mem_replicate h) (by decide)
  have hlong : (List.replicate l (chr 'l')).count (chr 'l') = l := by
    rw [List.count_replicate, if_pos (by decide)]
  have hputs : Puts a (chr '%' :: (List.replicate l (chr 'l') ++ [c])) ap (ap + slots c (BitVec.ofNat 32 l))
      ((numberArg a.word c ap l).sign ++
        (padding (int (chr ' ')) (-1#32 - BitVec.ofNat 32 (numberArg a.word c ap l).digits.length) ++
          (numberArg a.word c ap l).digits)) :=
    puts_numeric a hc (replicate_longs l) hstar hlong fun fmt => scanned_longs a.word hm l (Dir.start fmt ap)
  have hlen := length_digits_le a.word c ap l
  rw [padding_unset _ (by omega), List.nil_append] at hputs
  exact hputs

theorem convText_pointer (a : Args) (d : Dir) :
    convText a (chr 'p') d = int (chr '0') :: int (chr 'x') :: number 16 d.padc (a.word d.ap).toNat d.width := by
  rw [convText, if_neg (by decide), if_neg (by decide), if_neg (by decide), if_neg (by decide), if_neg (by decide),
    if_neg (by decide), if_pos rfl]

theorem puts_pointer (a : Args) (ap : ℕ) :
    Puts a [chr '%', chr 'p'] ap (ap + 1)
      (int (chr '0') :: int (chr 'x') :: (numDigits 16 (a.word ap).toNat).reverse.map digitChar) := by
  have hputs : Puts a (chr '%' :: ([] ++ [chr 'p'])) ap (ap + [].count (chr '*') + slots (chr 'p') 0#32)
      (int (chr '0') :: int (chr 'x') :: (numDigits 16 (a.word ap).toNat).reverse.map digitChar) := by
    apply puts_directive (fun b hb => absurd hb List.not_mem_nil) (by decide)
    · intro fmt
      have hlen : (numDigits 16 (a.word ap).toNat).length ≤ 8 :=
        numDigits_length_le (by decide) (a.word ap).isLt (by decide)
      have hnone : padding (int (chr ' ')) (-1#32 - BitVec.ofNat 32 (numDigits 16 (a.word ap).toNat).length) = [] :=
        padding_unset _ (by omega)
      refine ⟨_, Scanned.last a.word (Dir.start fmt ap) (by decide), ?_⟩
      rw [convText_pointer, number]
      change _ :: _ :: (padding (int (chr ' ')) (-1#32 - BitVec.ofNat 32 (numDigits 16 (a.word ap).toNat).length) ++ _) = _
      rw [hnone]
      rfl
    · exact proper_plain a (by decide) (by decide) _
  exact hputs

end Plain

/-! ## Numerals -/

/-- a number as text -/
def numeral (neg : Bool) (pre : List Byte) (b num : ℕ) : List Byte :=
  (if neg then [chr '-'] else []) ++ (pre ++ (numDigits b num).reverse.map digitByte)

/-- the decimal numeral of a number -/
theorem str_toString (v : ℤ) : str (toString v) = numeral (decide (v < 0)) [] 10 v.natAbs := by
  have hnat : ∀ num : ℕ, (Nat.toDigits 10 num).map chr = (numDigits 10 num).reverse.map digitByte := by
    intro num
    have hone : ∀ i < 10, chr (Nat.digitChar i) = digitByte i := by decide
    induction num using Nat.strong_induction_on with
    | _ num ih =>
      by_cases hnum : 10 ≤ num
      · have hdiv : num / 10 < num := Nat.div_lt_self (by omega) (by decide)
        have hlast : chr (Nat.digitChar (num % 10)) = digitByte (num % 10) := hone _ (Nat.mod_lt _ (by decide))
        calc (Nat.toDigits 10 num).map chr = (Nat.toDigits 10 (num / 10)).map chr ++ [chr (Nat.digitChar (num % 10))] := by
              rw [Nat.toDigits_of_base_le (by decide) hnum, List.map_append, List.map_singleton]
          _ = (numDigits 10 (num / 10)).reverse.map digitByte ++ [digitByte (num % 10)] := by rw [ih _ hdiv, hlast]
          _ = (numDigits 10 num).reverse.map digitByte := by
              rw [numDigits_of_le (by decide) hnum, List.reverse_cons, List.map_append, List.map_singleton]
      · have hlt := not_le.1 hnum
        rw [Nat.toDigits_of_lt_base hlt, numDigits_of_lt hlt, List.map_singleton, hone num hlt]
        rfl
  cases v with
  | ofNat num =>
    have hpos : ¬ (Int.ofNat num < 0) := not_lt.2 (Int.natCast_nonneg num)
    change (toString num).toList.map chr = _
    rw [numeral, decide_eq_false hpos, ← hnat]
    exact congrArg _ Nat.toList_repr
  | negSucc num =>
    have hneg : decide (Int.negSucc num < 0) = true := decide_eq_true (Int.negSucc_lt_zero num)
    change ("-" ++ (num + 1).repr).toList.map chr = _
    rw [String.toList_append, List.map_append, Nat.toList_repr, hnat, numeral, hneg]
    rfl

/-- the digits as they are put out -/
theorem numeral_int {b : ℕ} (hb : 2 ≤ b) (hb' : b ≤ 16) (neg : Bool) (pre : List Byte) (num : ℕ) :
    (numeral neg pre b num).map int =
      (if neg then [int (chr '-')] else []) ++ (pre.map int ++ (numDigits b num).reverse.map digitChar) := by
  have hone : ∀ i < 16, int (digitByte i) = digitChar i := by decide
  have hdigits : ((numDigits b num).reverse.map digitByte).map int = (numDigits b num).reverse.map digitChar := by
    rw [List.map_map]
    exact List.map_congr_left fun i hi => hone i (lt_of_lt_of_le (numDigits_lt hb hi) hb')
  rw [numeral, List.map_append, List.map_append, hdigits]
  cases neg <;> rfl

/-- a number without its field is a numeral -/
theorem sign_digits {b : ℕ} (hb : 2 ≤ b) (hb' : b ≤ 16) (v : ℤ) :
    (Number.mk b v).sign ++ (Number.mk b v).digits = (numeral (decide (v < 0)) [] b v.natAbs).map int := by
  rw [numeral_int hb hb', Number.sign, Number.digits]
  simp only [decide_eq_true_eq]
  rfl

/-- the bytes of a numeral are kept -/
theorem map_int_setWidth (l : List Byte) : (l.map int).map (BitVec.setWidth 8) = l := by
  have hone : ∀ c : Byte, (int c).setWidth 8 = c := by
    intro c
    rw [int, BitVec.setWidth_setWidth_of_le c (by decide), BitVec.setWidth_eq]
  rw [List.map_map]
  exact (List.map_congr_left fun c _ => hone c).trans (List.map_id l)

/-- the formats of a number, each with a base that strtol reads it back with -/
inductive ReadBack : List Byte → Word → Prop
  | decimal : ReadBack (str "%d") 10#32
  | hex : ReadBack (str "%x") 16#32
  | octal : ReadBack (str "%o") 8#32
  | pointer {base : Word} (h : base = 0#32 ∨ base = 16#32) : ReadBack (str "%p") base

/-- what is printed is a numeral of the value, in a base that strtol is told or that it finds -/
theorem ReadBack.numeral {f : List Byte} {base : Word} (h : ReadBack f base) (a : Args) :
    ∃ neg pre b num, 2 ≤ b ∧ b ≤ 16 ∧ Prefixed b base pre ∧
      (if neg then -BitVec.ofNat 32 num else BitVec.ofNat 32 num) = a.word 0 ∧
      (Jos.numeral neg pre b num).length ≤ 11 ∧ Puts a f 0 1 ((Jos.numeral neg pre b num).map int) := by
  have hlen : ∀ {b num k : ℕ}, 2 ≤ b → num < b ^ k → 0 < k → ((numDigits b num).reverse.map digitByte).length ≤ k := by
    intro b num k hb hnum hk
    rw [List.length_map, List.length_reverse]
    exact numDigits_length_le hb hnum hk
  have hlt : (a.word 0).toNat < 2 ^ 32 := (a.word 0).isLt
  have hsame : BitVec.ofNat 32 (a.word 0).toNat = a.word 0 :=
    (BitVec.ofNat_toNat 32 (a.word 0)).trans (BitVec.setWidth_eq _)
  have hunsigned : (getuint (VaList.ofWords a.word) 0 0#32).1.toNat = (a.word 0).toNat :=
    BitVec.toNat_setWidth_of_le (by decide)
  have hnonneg : decide (((a.word 0).toNat : ℤ) < 0) = false := decide_eq_false (not_lt.2 (Int.natCast_nonneg _))
  cases h with
  | decimal =>
    have hN : numberArg a.word (chr 'd') 0 0 = ⟨10, (a.word 0).toInt⟩ := by
      rw [numberArg, if_pos rfl]
      exact congrArg (Number.mk 10) (BitVec.toInt_signExtend_of_le (by decide))
    have hputs := puts_plain a (c := chr 'd') (by decide) 0 0
    rw [hN, sign_digits (by decide) (by decide)] at hputs
    have hrange : (a.word 0).toInt.natAbs ≤ 2 ^ 31 := by
      have := BitVec.le_toInt (a.word 0)
      have := BitVec.toInt_lt (x := a.word 0)
      omega
    refine ⟨_, [], 10, _, by decide, by decide, Or.inl ⟨rfl, rfl⟩, ?_, ?_, hputs⟩
    · have := hrange
      simp only [decide_eq_true_eq]
      apply BitVec.eq_of_toNat_eq
      rw [BitVec.toInt_eq_toNat_cond]
      split_ifs
      · omega
      · rw [BitVec.toNat_ofNat]
        omega
      · rw [BitVec.toNat_neg, BitVec.toNat_ofNat]
        omega
      · omega
    · have := hlen (b := 10) (k := 10) (by decide) (lt_of_le_of_lt hrange (by decide)) (by decide)
      rw [Jos.numeral, List.nil_append, List.length_append]
      split_ifs
      · rw [List.length_singleton]
        omega
      · rw [List.length_nil]
        omega
  | hex =>
    have hN : numberArg a.word (chr 'x') 0 0 = ⟨16, (a.word 0).toNat⟩ := by
      rw [numberArg, if_neg (by decide), if_neg (by decide), if_neg (by decide)]
      exact congrArg (fun n : ℕ => Number.mk 16 n) hunsigned
    have hputs := puts_plain a (c := chr 'x') (by decide) 0 0
    rw [hN, sign_digits (by decide) (by decide), hnonneg] at hputs
    refine ⟨false, [], 16, _, by decide, by decide, Or.inl ⟨rfl, rfl⟩, hsame, ?_, hputs⟩
    have := hlen (b := 16) (k := 8) (by decide) hlt (by decide)
    exact le_trans this (by decide)
  | octal =>
    have hN : numberArg a.word (chr 'o') 0 0 = ⟨8, (a.word 0).toNat⟩ := by
      rw [numberArg, if_neg (by decide), if_neg (by decide), if_pos rfl]
      exact congrArg (fun n : ℕ => Number.mk 8 n) hunsigned
    have hputs := puts_plain a (c := chr 'o') (by decide) 0 0
    rw [hN, sign_digits (by decide) (by decide), hnonneg] at hputs
    refine ⟨false, [], 8, _, by decide, by decide, Or.inl ⟨rfl, rfl⟩, hsame, ?_, hputs⟩
    exact hlen (b := 8) (k := 11) (by decide) (lt_trans hlt (by decide)) (by decide)
  | pointer hbase =>
    have hputs := puts_pointer a 0
    have hint := numeral_int (by decide) (le_refl 16) false [chr '0', chr 'x'] (a.word 0).toNat
    refine ⟨false, [chr '0', chr 'x'], 16, (a.word 0).toNat, by decide, by decide, Or.inr ⟨rfl, rfl, hbase⟩, hsame, ?_,
      hint ▸ hputs⟩
    have := hlen (b := 16) (k := 8) (by decide) hlt (by decide)
    exact le_trans (Nat.add_le_add_right this 2) (by decide)

/-- they ask for no string -/
theorem ReadBack.requests {f : List Byte} {base : Word} (h : ReadBack f base) :
    ∀ x ∈ Jos.requests none f 0, x.1 ≠ chr 's' := by
  cases h <;> decide

/-- **Printing and strtol are inverse.** strtol with the base of the format returns the int that snprintf has printed into
a buffer with room for it, and stops at the NUL; `%lld` prints the decimal numeral of its 64-bit int. -/
theorem strtol_vsnprintf (m : Bytes) (buf n : Word) (hb : Buffer buf n) (word : ℕ → Word) :
    (∀ f base, ReadBack f base → ∃ N, ∀ fuel, N ≤ fuel → ∃ ret b,
      vsnprintf fuel buf n (.lit f 0) (VaList.ofWords word) m = .ok (ret, b) ∧ b.out.length ≤ 11 ∧
      (b.out.length < n.toNat → b.mem (buf + BitVec.ofNat 32 b.out.length) = 0#8 ∧
        strtol (Bytes.reader b.mem) fuel (.mem buf) base =
          .ok (word 0, .mem (buf + BitVec.ofNat 32 b.out.length)))) ∧
    ∀ a : Args, Puts a (str "%lld") 0 2 ((str (toString (a.word 1 ++ a.word 0).toInt)).map int) := by
  constructor
  · intro f base hf
    obtain ⟨neg, pre, b, num, hb2, hb16, hpre, hval, hlen, hputs⟩ := hf.numeral ⟨word, fun _ => []⟩
    let s := sprintStart buf n m
    have htext : Text sprintSink s (.lit f 0) (f ++ [0#8]) := Text.lit f
    have hpassed : Passed sprintSink s (VaList.ofWords word) ⟨word, fun _ => []⟩ (requests none f 0) :=
      ⟨rfl, fun i hi => absurd rfl (hf.requests _ hi)⟩
    have hret : Returns (fun k => vprintfmt sprintSink k (.lit f 0) (VaList.ofWords word) 0) s ()
        (feed sprintSink s ((numeral neg pre b num).map int)) :=
      (hputs _ sprintSink s _ (VaList.ofWords word) (.lit f 0) htext.left hpassed).2
        (vprintfmt_nul (htext.right.feed _).reads.head)
    obtain ⟨N, hN⟩ := vsnprintf_reads hb hret
    refine ⟨max N 12, fun fuel hfuel => ?_⟩
    obtain ⟨ret, c, hrun, hout, hreads⟩ := hN fuel (le_trans (le_max_left N 12) hfuel)
    have hlength : c.out.length = (numeral neg pre b num).length := by
      rw [hout, List.length_map]
    refine ⟨ret, c, hrun, hlength ▸ hlen, fun hfit => ?_⟩
    have hbytes : Reads (Bytes.reader c.mem) (.mem buf) (numeral neg pre b num ++ [0#8]) := by
      have := hreads (hout ▸ hfit)
      rw [map_int_setWidth] at this
      exact this
    have hnul := hbytes.right.head
    rw [← hlength] at hnul
    refine ⟨Option.some.inj (get_ok_iff.1 hnul), ?_⟩
    rw [numeral, List.append_assoc, List.append_assoc] at hbytes
    have hdigits : (numDigits b num).length < fuel := by
      have hle : (numDigits b num).length ≤ (numeral neg pre b num).length := by
        rw [numeral, List.length_append, List.length_append, List.length_map, List.length_reverse]
        omega
      have := le_trans (le_max_right N 12) hfuel
      omega
    rw [strtol_reads hb2 hb16 hpre neg num hbytes hdigits, hval, hlength]
    rfl
  · intro a
    have hN : numberArg a.word (chr 'd') 0 2 = ⟨10, (a.word 1 ++ a.word 0).toInt⟩ := by
      rw [numberArg, if_pos rfl]
      rfl
    have hputs := puts_plain a (c := chr 'd') (by decide) 2 0
    rw [hN, sign_digits (by decide) (by decide), ← str_toString] at hputs
    exact hputs

/-- into a buffer of 12 bytes -/
theorem strtol_vsnprintf_twelve : Buffer 0x1000#32 12#32 ∧
    ∀ v : Word, ∃ N, ∀ fuel, N ≤ fuel → ∃ ret b,
      vsnprintf fuel 0x1000#32 12#32 (.lit (str "%d") 0) (VaList.ofWords fun _ => v) (fun _ => 0#8) = .ok (ret, b) ∧
      strtol (Bytes.reader b.mem) fuel (.mem 0x1000#32) 10#32 =
        .ok (v, .mem (0x1000#32 + BitVec.ofNat 32 b.out.length)) := by
  have hb : Buffer 0x1000#32 12#32 := ⟨by decide, by decide, by decide⟩
  refine ⟨hb, fun v => ?_⟩
  obtain ⟨N, hN⟩ := (strtol_vsnprintf (fun _ => 0#8) _ _ hb fun _ => v).1 (str "%d") 10#32 .decimal
  refine ⟨N, fun fuel hfuel => ?_⟩
  obtain ⟨ret, b, hrun, hlen, hfit⟩ := hN fuel hfuel
  exact ⟨ret, b, hrun, (hfit (Nat.lt_of_le_of_lt hlen (by decide))).2⟩

end Jos
