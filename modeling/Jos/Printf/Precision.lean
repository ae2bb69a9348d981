/-
How far `%.*s` reads the string.

The width is measured by strnlen, which tests its limit before it reads, and the string is put out by a loop that reads
the next character before it tests the precision. Results, for an array of n bytes other than NUL and the precision n:
- `strnlen_limit`: strnlen reads the n bytes only;
- `putString_overreads`, `putString_next`: the loop reads the byte behind them, and nothing behind that;
- `precision_overreads`: so the directive fails whenever that byte cannot be read, whatever n, the width and the flags.
-/
import Jos.Printf.Strings

namespace Jos

open Jos.Lib

/-! ## The two loops -/

section Loops

variable {τ : Type} {k : Sink τ} {s : τ} {l : List Byte} {p : Ptr}

/-- strnlen stops at its limit, without a read -/
theorem strnlen_limit {r : Reader} (h0 : 0#8 ∉ l) (h : Reads r p l) (hl : l.length < 2 ^ 32) {fuel : ℕ}
    (hf : l.length < fuel) (n : Word) :
    strnlen r fuel p (BitVec.ofNat 32 l.length) n = .ok (n + BitVec.ofNat 32 l.length) := by
  induction l generalizing p fuel n with
  | nil =>
    obtain ⟨fuel, rfl⟩ := Nat.exists_eq_add_of_lt hf
    have hzero : BitVec.ofNat 32 ([] : List Byte).length = 0#32 := rfl
    rw [strnlen, if_pos hzero, hzero, BitVec.add_zero]
    rfl
  | cons c l ih =>
    obtain ⟨fuel, rfl⟩ := Nat.exists_eq_add_of_lt hf
    obtain ⟨hc, hnul⟩ := not_or.1 (List.mem_cons.not.1 h0)
    have hne : BitVec.ofNat 32 (c :: l).length ≠ 0#32 := by
      intro heq
      have hnat := congrArg BitVec.toNat heq
      rw [BitVec.toNat_ofNat, Nat.mod_eq_of_lt hl] at hnat
      exact absurd hnat (Nat.succ_ne_zero _)
    have hpred : BitVec.ofNat 32 (c :: l).length - 1#32 = BitVec.ofNat 32 l.length := by
      rw [List.length_cons, BitVec.ofNat_add, BitVec.add_sub_cancel]
    have hlt : l.length < (c :: l).length + fuel := by
      rw [List.length_cons]
      omega
    rw [strnlen, if_neg hne, Reads.head h, hpred]
    change (if c = 0#8 then _ else _) = _
    rw [if_neg (Ne.symm hc), ih hnul (Reads.tail h) (Nat.lt_of_succ_lt hl) hlt, List.length_cons, BitVec.add_assoc,
      Nat.add_comm l.length, BitVec.ofNat_add]

/-- one more character than the precision still allows -/
theorem allowed_succ {n : ℕ} (hn : n + 1 < 2 ^ 31) :
    allowed (BitVec.ofNat 32 (n + 1)) = true ∧ counted (BitVec.ofNat 32 (n + 1)) = BitVec.ofNat 32 n := by
  have hpred : BitVec.ofNat 32 (n + 1) - 1#32 = BitVec.ofNat 32 n := by
    rw [BitVec.ofNat_add, BitVec.add_sub_cancel]
  constructor
  · rw [allowed, hpred, ofNat_not_slt (Nat.lt_of_succ_lt hn), Bool.not_false, Bool.or_true]
  · rw [counted, ofNat_not_slt hn, hpred]
    rfl

theorem scan_error {α : Type} {f : Reader → Except Stop α} {e : Stop} (h : f (k.reader s) = .error e) :
    (scan k f).run s = .error e := by
  change (StateT.lift (f (k.reader s)) : M τ α).run s = .error e
  rw [h]
  rfl

/-- **The loop reads the byte behind the precision.** -/
theorem putString_overreads (h0 : 0#8 ∉ l) (hl : l.length < 2 ^ 31) (h : Text k s p l)
    (hend : ∀ cs, k.reader (feed k s cs) (p.skip l.length) = none) (altflag : Bool) (width : Word) :
    Fails (fun n => putString k altflag n p (BitVec.ofNat 32 l.length) width) s .fault := by
  induction l generalizing s p width with
  | nil =>
    have hget : (k.reader s).get p = .error .fault := by
      have hnone : k.reader s (p.skip 0) = none := hend []
      rw [Ptr.skip_zero] at hnone
      rw [Reader.get, hnone]
    apply Fails.of_succ
    simp only [putString]
    apply Fails.bind
    exact Fails.of_run fun _ => scan_error hget
  | cons c l ih =>
    obtain ⟨hc, hnul⟩ := not_or.1 (List.mem_cons.not.1 h0)
    obtain ⟨hallowed, hcounted⟩ := allowed_succ hl
    apply Fails.of_succ
    simp only [putString]
    refine (returns_scan 0 fun n _ => Reads.head h.reads).bind_fails ?_
    simp only [if_neg (Ne.symm hc), List.length_cons, hallowed, hcounted, if_true]
    refine (returns_emit s _).bind_fails ?_
    apply ih hnul (Nat.lt_of_succ_lt hl) ((Text.tail h).putch _)
    intro cs
    have hnext := hend (shown altflag c :: cs)
    rwa [List.length_cons, ← Ptr.skip_next] at hnext

/-- and it ends there, whatever that byte is -/
theorem putString_next {c : Byte} (h0 : 0#8 ∉ l) (hl : l.length < 2 ^ 31) (h : Text k s p (l ++ [c])) (altflag : Bool)
    (width : Word) : Returns (fun n => putString k altflag n p (BitVec.ofNat 32 l.length) width) s
      (width - BitVec.ofNat 32 l.length) (feed k s (l.map (shown altflag))) := by
  induction l generalizing s p width with
  | nil =>
    have hzero : BitVec.ofNat 32 ([] : List Byte).length = 0#32 := rfl
    have hspent : allowed 0#32 = false := by decide
    rw [hzero, BitVec.sub_zero]
    rw [← Returns.succ_iff]
    simp only [putString]
    refine (returns_scan 0 fun n _ => Reads.head h.reads).bind ?_
    simp only [hspent, Bool.false_eq_true, if_false]
    by_cases hc : c = 0#8
    · simp only [if_pos hc]
      exact Returns.pure
    · simp only [if_neg hc]
      exact Returns.pure
  | cons b l ih =>
    obtain ⟨hb, hnul⟩ := not_or.1 (List.mem_cons.not.1 h0)
    obtain ⟨hallowed, hcounted⟩ := allowed_succ hl
    rw [← Returns.succ_iff]
    simp only [putString]
    refine (returns_scan 0 fun n _ => Reads.head h.reads).bind ?_
    simp only [if_neg (Ne.symm hb), List.length_cons, hallowed, hcounted, if_true]
    refine (returns_emit s _).bind ?_
    rw [Nat.add_comm, BitVec.ofNat_add, ← BitVec.sub_sub]
    exact ih hnul (Nat.lt_of_succ_lt hl) ((Text.tail h).putch _) _

/-- the padding on the left reads the array only -/
theorem padString_limit (h0 : 0#8 ∉ l) (hl : l.length < 2 ^ 31) (h : Text k s p l) {d : Dir}
    (hd : d.precision = BitVec.ofNat 32 l.length) :
    ∃ w cs, Returns (fun n => padString k n d p) s w (feed k s cs) := by
  have hl' : l.length < 2 ^ 32 := lt_trans hl (by decide)
  by_cases hpad : (0#32).slt d.width ∧ d.padc ≠ int (chr '-')
  · simp only [padString, if_pos hpad, hd]
    exact ⟨_, _, (returns_scan l.length fun n hn => strnlen_limit h0 h.reads hl' hn 0#32).bind (returns_padLoop s _ _)⟩
  · simp only [padString, if_neg hpad]
    exact ⟨d.width, [], Returns.pure⟩

theorem strArg_array (hp : p ≠ Ptr.null) : strArg p = p := if_neg hp

theorem convString_overreads (hp : p ≠ Ptr.null) (h0 : 0#8 ∉ l) (hl : l.length < 2 ^ 31) (h : Text k s p l)
    (hend : ∀ cs, k.reader (feed k s cs) (p.skip l.length) = none) {d : Dir}
    (hd : d.precision = BitVec.ofNat 32 l.length) : Fails (fun n => convString k n d p) s .fault := by
  obtain ⟨w, cs, hpad⟩ := padString_limit h0 hl h hd
  simp only [convString, strArg_array hp, hd]
  refine hpad.bind_fails (Fails.bind ?_)
  apply putString_overreads h0 hl (h.feed cs)
  intro ds
  rw [← feed_append]
  exact hend (cs ++ ds)

theorem convString_next {c : Byte} (hp : p ≠ Ptr.null) (h0 : 0#8 ∉ l) (hl : l.length < 2 ^ 31)
    (h : Text k s p (l ++ [c])) {d : Dir} (hd : d.precision = BitVec.ofNat 32 l.length) :
    ∃ out, Returns (fun n => convString k n d p) s () (feed k s out) := by
  obtain ⟨w, cs, hpad⟩ := padString_limit h0 hl h.left hd
  refine ⟨cs ++ (l.map (shown d.altflag) ++ padding (int (chr ' ')) (w - BitVec.ofNat 32 l.length)), ?_⟩
  simp only [convString, strArg_array hp, hd]
  rw [feed_append, feed_append]
  refine hpad.bind ?_
  exact (putString_next h0 hl (h.feed cs) _ _).bind ((returns_padLoop _ _ _).bind Returns.pure)

end Loops

/-! ## The directive -/

/-- '%', the modifiers pre, and ".*s" -/
def precisionFormat (pre : List Byte) : List Byte := chr '%' :: (pre ++ [chr '.', chr '*'] ++ [chr 's'])

section Directive

variable {τ : Type} {k : Sink τ} {s : τ} {l : List Byte} {p : Ptr} {va : VaList} {pre : List Byte}

/-- a ".*" takes the precision from the next argument, whatever the width is -/
theorem single_dot_star (word : ℕ → Word) (d : Dir) :
    ((d.single word (chr '.')).single word (chr '*')).precision = word d.ap ∧
    ((d.single word (chr '.')).single word (chr '*')).ap = d.ap + 1 := by
  have hstar : ∀ e : Dir, e.width.slt 0#32 = false → (e.single word (chr '*')).precision = word e.ap ∧
      (e.single word (chr '*')).ap = e.ap + 1 := by
    intro e he
    rw [Dir.single, if_neg (by decide), if_neg (by decide), if_pos rfl, Dir.processPrecision]
    simp only [he, Bool.false_eq_true, if_false, and_self]
  have hdot : d.single word (chr '.') =
      if d.width.slt 0#32 then { d with fmt := d.fmt.next, width := 0#32 } else { d with fmt := d.fmt.next } := by
    rw [Dir.single, if_neg (by decide), if_neg (by decide), if_neg (by decide), if_pos rfl]
  rw [hdot]
  by_cases hw : d.width.slt 0#32
  · rw [if_pos hw]
    exact hstar _ zero_not_slt
  · rw [if_neg hw]
    exact hstar _ (eq_false_of_ne_true hw)

/-- the scan ends with the precision of the last argument taken -/
theorem scanned_dot_star (word : ℕ → Word) (hpre : ∀ b ∈ pre, b ∈ str "-0*.#l") (d : Dir) :
    ∃ d', Scanned word d (pre ++ [chr '.', chr '*']) (chr 's') d' ∧ d'.precision = word (d'.ap - 1) := by
  induction pre generalizing d with
  | nil =>
    have hlast := Scanned.last word ((d.single word (chr '.')).single word (chr '*')) (c := chr 's') (by decide)
    refine ⟨_, (hlast.single (by decide)).single (by decide), ?_⟩
    obtain ⟨hprec, hap⟩ := single_dot_star word d
    change ((d.single word (chr '.')).single word (chr '*')).precision =
      word (((d.single word (chr '.')).single word (chr '*')).ap - 1)
    rw [hprec, hap, Nat.add_sub_cancel]
  | cons b pre ih =>
    obtain ⟨d', hd', hprec⟩ := ih (fun x hx => hpre x (List.mem_cons_of_mem b hx)) (d.single word b)
    exact ⟨d', hd'.single (hpre b List.mem_cons_self), hprec⟩

theorem conv_string (nested : Ptr → VaList → M τ Unit) (n : ℕ) (d : Dir) :
    conv k nested va n (chr 's') d = convString k n d (va.str d.ap) >>= fun _ => pure (d.fmt, d.ap + 1) := by
  rw [conv, if_neg (by decide), if_neg (by decide), if_pos rfl]

/-- the arguments of the directive: the precision is the length of the array at p -/
structure Measured (va : VaList) (pre : List Byte) (p : Ptr) (l : List Byte) : Prop where
  precision : va.word (pre.count (chr '*')) = BitVec.ofNat 32 l.length
  string : va.str (pre.count (chr '*') + 1) = p

theorem Measured.scanned (h : Measured va pre p l) (hpre : ∀ b ∈ pre, b ∈ str "-0*.#l") (fmt : Ptr) :
    ∃ d, Scanned va.word (Dir.start fmt 0) (pre ++ [chr '.', chr '*']) (chr 's') d ∧
      d.precision = BitVec.ofNat 32 l.length ∧ va.str d.ap = p := by
  obtain ⟨d, hd, hprec⟩ := scanned_dot_star va.word hpre (Dir.start fmt 0)
  have hap : d.ap = pre.count (chr '*') + 1 := by
    rw [hd.ap, List.count_append]
    exact Nat.zero_add _
  refine ⟨d, hd, ?_, ?_⟩
  · rw [hprec, hap]
    exact h.precision
  · rw [hap]
    exact h.string

/-- the byte behind the array is read, -/
theorem directive_overreads (hpre : ∀ b ∈ pre, b ∈ str "-0*.#l") (hva : Measured va pre p l) (hp : p ≠ Ptr.null)
    (h0 : 0#8 ∉ l) (hl : l.length < 2 ^ 31) (h : Text k s p l)
    (hend : ∀ cs, k.reader (feed k s cs) (p.skip l.length) = none) :
    Fails (fun n => vprintfmt k n (.lit (precisionFormat pre) 0) va 0) s .fault := by
  have hfmt : Text k s (.lit (precisionFormat pre) 0) (precisionFormat pre) := (Text.lit _).left
  obtain ⟨d, hd, hprec, hstr⟩ := hva.scanned hpre (Ptr.lit (precisionFormat pre) 0).next
  apply Fails.of_succ
  simp only [vprintfmt]
  refine (returns_scan 0 fun n _ => hfmt.reads.head).bind_fails ?_
  simp only [if_true]
  refine (returns_scan _ fun n hn => hd.run _ va n rfl hfmt.reads.tail hn).bind_fails ?_
  simp only [conv_string, hstr]
  exact Fails.bind (Fails.bind (convString_overreads hp h0 hl h hend hprec))

/-- and no other -/
theorem directive_next {c : Byte} (hpre : ∀ b ∈ pre, b ∈ str "-0*.#l") (hva : Measured va pre p l) (hp : p ≠ Ptr.null)
    (h0 : 0#8 ∉ l) (hl : l.length < 2 ^ 31) (h : Text k s p (l ++ [c])) :
    ∃ out, Returns (fun n => vprintfmt k n (.lit (precisionFormat pre) 0) va 0) s () (feed k s out) := by
  have hfmt : Text k s (.lit (precisionFormat pre) 0) (precisionFormat pre ++ [0#8]) := Text.lit _
  obtain ⟨d, hd, hprec, hstr⟩ := hva.scanned hpre (Ptr.lit (precisionFormat pre) 0).next
  obtain ⟨out, hout⟩ := convString_next hp h0 hl h hprec
  have hconv : Returns (fun n => conv k (fun fmt va => vprintfmt k n fmt va 0) va n (chr 's') d) s (d.fmt, d.ap + 1)
      (feed k s out) := by
    simp only [conv_string, hstr]
    exact hout.bind Returns.pure
  refine ⟨out, (vprintfmt_directive hfmt.left hd hconv).2 (vprintfmt_nul ?_)⟩
  have hend : d.fmt = (Ptr.lit (precisionFormat pre) 0).skip (precisionFormat pre).length := by
    have hlen : (precisionFormat pre).length = (pre ++ [chr '.', chr '*']).length + 1 + 1 := by
      rw [precisionFormat, List.length_cons, List.length_append]
      rfl
    rw [hd.fmt, hlen]
    exact Ptr.skip_next (Ptr.lit (precisionFormat pre) 0) ((pre ++ [chr '.', chr '*']).length + 1)
  rw [hend]
  exact (hfmt.feed out).right.reads.head

/-- **A precision does not bound the bytes read.** strnlen reads the array only, but `%.*s`, whatever flags and widths stand
before the precision, reads the byte behind it: it fails if that cannot be read. If it can, nothing else is read. -/
theorem precision_overreads (k : Sink τ) (s : τ) (pre : List Byte) (hpre : ∀ b ∈ pre, b ∈ str "-0*.#l") (va : VaList)
    (p : Ptr) (l : List Byte) (hva : Measured va pre p l) (hp : p ≠ Ptr.null) (h0 : 0#8 ∉ l) (hl : l.length < 2 ^ 31)
    (h : Text k s p l) :
    (∀ fuel, l.length < fuel →
      strnlen (k.reader s) fuel p (BitVec.ofNat 32 l.length) 0#32 = .ok (BitVec.ofNat 32 l.length)) ∧
    ((∀ cs, k.reader (feed k s cs) (p.skip l.length) = none) →
      Fails (fun n => vprintfmt k n (.lit (precisionFormat pre) 0) va 0) s .fault) ∧
    (∀ c, (∀ cs, k.reader (feed k s cs) (p.skip l.length) = some c) →
      ∃ out, Returns (fun n => vprintfmt k n (.lit (precisionFormat pre) 0) va 0) s () (feed k s out)) := by
  refine ⟨?_, ?_, ?_⟩
  · intro fuel hf
    rw [strnlen_limit h0 h.reads (lt_trans hl (by decide)) hf, BitVec.zero_add]
  · exact directive_overreads hpre hva hp h0 hl h
  · intro c hc
    exact directive_next hpre hva hp h0 hl fun cs => (h cs).concat (hc cs)

/-- memory in which only the bytes l from a on can be read -/
def arraySink (a : Word) (l : List Byte) : Sink (List Word) where
  read _ x := l[(x - a).toNat]?
  putch c s := s ++ [c]

theorem arraySink_text {a : Word} (hl : l.length < 2 ^ 32) (out : List Word) : Text (arraySink a l) out (.mem a) l := by
  intro cs i b hb
  have hi := (List.getElem?_eq_some_iff.1 hb).1
  change l[(a + BitVec.ofNat 32 i - a).toNat]? = some b
  rw [offset_toNat (lt_trans hi hl)]
  exact hb

theorem arraySink_end {a : Word} (hl : l.length < 2 ^ 32) (out : List Word) :
    (arraySink a l).reader out ((Ptr.mem a).skip l.length) = none := by
  change l[(a + BitVec.ofNat 32 l.length - a).toNat]? = none
  rw [offset_toNat hl]
  exact List.getElem?_eq_none (le_refl _)

/-- "%-*.*s" of 5, 3 and three bytes -/
theorem precision_overreads_field :
    Fails (fun n => vprintfmt (arraySink 0x1000#32 (str "abc")) n (.lit (precisionFormat (str "-*")) 0)
      (VaList.ofWords fun i => [5#32, 3#32, 0x1000#32].getD i 0#32) 0) [] .fault := by
  have hl : (str "abc").length < 2 ^ 31 := by decide
  have hva : Measured (VaList.ofWords fun i => [5#32, 3#32, 0x1000#32].getD i 0#32) (str "-*") (.mem 0x1000#32)
      (str "abc") := ⟨by decide, by decide⟩
  exact (precision_overreads (arraySink 0x1000#32 (str "abc")) [] (str "-*") (by decide) _ _ _ hva (by decide) (by decide)
    hl (arraySink_text (by decide) [])).2.1 fun cs => arraySink_end (by decide) _

/-- "%.*s" of 3 and three bytes -/
theorem precision_three_overreads :
    Fails (fun n => vprintfmt (arraySink 0x1000#32 (str "abc")) n (.lit (str "%.*s") 0)
      (VaList.ofWords fun i => [3#32, 0x1000#32].getD i 0#32) 0) [] .fault := by
  have hl : (str "abc").length < 2 ^ 31 := by decide
  have hva : Measured (VaList.ofWords fun i => [3#32, 0x1000#32].getD i 0#32) [] (.mem 0x1000#32) (str "abc") :=
    ⟨by decide, by decide⟩
  have hfmt : str "%.*s" = precisionFormat [] := by decide
  rw [hfmt]
  exact directive_overreads (by decide) hva (by decide) (by decide) hl (arraySink_text (by decide) []) fun cs =>
    arraySink_end (by decide) _

end Directive

end Jos
