/-
vprintfmt returns on every format.

A format is the text before a '%', and then a directive. `requests` are the arguments that a format asks for, read off the
format alone. Results:
- `vprintfmt_literal`, `vprintfmt_directive`, `vprintfmt_unknown`: text goes out as it is, a conversion puts out `convText`,
  and a directive that ends in an unknown character goes back to just behind its '%', where nothing that was scanned can
  be a '%' again;
- `vprintfmt_total`: what a format puts out depends on its bytes and on its arguments only;
- `vprintfmt_returns`: it returns, reads no byte of the format before the first or after the NUL, and prints an unknown
  directive as its own text.
-/
import Jos.Printf.Output

namespace Jos

open Jos.Lib

section Steps

variable {τ : Type} {k : Sink τ} {s t : τ} {va : VaList} {ap : ℕ} {fmt : Ptr}

theorem vprintfmt_nul (h : (k.reader s).get fmt = .ok 0#8) : Returns (fun n => vprintfmt k n fmt va ap) s () s := by
  rw [← Returns.succ_iff]
  simp only [vprintfmt]
  exact (returns_scan 0 fun n _ => h).bind Returns.pure

theorem vprintfmt_char {c : Byte} (h : (k.reader s).get fmt = .ok c) (hp : c ≠ chr '%') (h0 : c ≠ 0#8) :
    Returns (fun n => vprintfmt k n fmt va ap) s () t ↔
      Returns (fun n => vprintfmt k n fmt.next va ap) (k.putch (int c) s) () t := by
  rw [← Returns.succ_iff]
  simp only [vprintfmt]
  rw [Returns.bind_iff (returns_scan 0 fun n _ => h)]
  simp only [if_neg hp, if_neg h0]
  exact Returns.bind_iff (returns_emit s (int c))

/-- text without a '%' goes out as it is -/
theorem vprintfmt_literal {l : List Byte} (hl : ∀ c ∈ l, c ≠ chr '%' ∧ c ≠ 0#8) (h : Text k s fmt l) :
    Returns (fun n => vprintfmt k n fmt va ap) s () t ↔
      Returns (fun n => vprintfmt k n (fmt.skip l.length) va ap) (feed k s (l.map int)) () t := by
  induction l generalizing s fmt with
  | nil => rw [List.length_nil, Ptr.skip_zero]; rfl
  | cons c l ih =>
    obtain ⟨hp, h0⟩ := hl c List.mem_cons_self
    rw [vprintfmt_char h.reads.head hp h0, ih (fun x hx => hl x (List.mem_cons_of_mem c hx)) (h.tail.putch (int c)),
      Ptr.skip_next, List.length_cons]
    rfl

/-- the conversion of a directive, and then the rest of the format -/
theorem vprintfmt_directive {mods : List Byte} {c : Byte} {d : Dir} (h : Text k s fmt (chr '%' :: (mods ++ [c])))
    (hd : Scanned va.word (Dir.start fmt.next ap) mods c d) {p : Ptr} {ap' : ℕ} {u : τ}
    (hconv : Returns (fun n => conv k (fun fmt va => vprintfmt k n fmt va 0) va n c d) s (p, ap') u) :
    Returns (fun n => vprintfmt k n fmt va ap) s () t ↔ Returns (fun n => vprintfmt k n p va ap') u () t := by
  rw [← Returns.succ_iff]
  simp only [vprintfmt]
  rw [Returns.bind_iff (returns_scan 0 fun n _ => h.reads.head)]
  simp only [if_true]
  rw [Returns.bind_iff (returns_scan mods.length fun n hn => hd.run _ va n rfl h.reads.tail hn)]
  exact Returns.bind_iff hconv

/-- back to just behind the '%', whatever has been scanned -/
theorem vprintfmt_back {mods : List Byte} (hmods : ∀ b ∈ mods, Modifier b) {c : Byte} (hc : ¬ Modifier c)
    (hconv : c ∉ conversions) (h : Text k s fmt (chr '%' :: (mods ++ [c]))) :
    Returns (fun n => vprintfmt k n fmt va ap) s () t ↔
      Returns (fun n => vprintfmt k n fmt.next va (ap + mods.count (chr '*'))) (k.putch (int (chr '%')) s) () t := by
  obtain ⟨d, hd⟩ := reswitch_reads va.word hc hmods (Dir.start fmt.next ap)
  refine vprintfmt_directive h hd ?_
  have hne : ∀ b ∈ conversions, c ≠ b := by
    rintro b hb rfl
    exact hconv hb
  have hprev : d.fmt.prev = fmt.skip (mods.length + 1) := by
    rw [hd.fmt]
    change (fmt.next.skip (mods.length + 1)).prev = _
    rw [Ptr.skip_next, Ptr.prev_skip]
  have hwhole : Text k s fmt ((chr '%' :: mods) ++ [c]) := h
  have hback : Text k (k.putch (int (chr '%')) s) fmt (chr '%' :: mods) := hwhole.left.putch (int (chr '%'))
  simp only [conv, if_neg (hne (chr 'c') (by decide)), if_neg (hne (chr 'e') (by decide)),
    if_neg (hne (chr 's') (by decide)), if_neg (hne (chr 'd') (by decide)), if_neg (hne (chr 'u') (by decide)),
    if_neg (hne (chr 'o') (by decide)), if_neg (hne (chr 'p') (by decide)), if_neg (hne (chr 'x') (by decide)),
    if_neg (hne (chr '%') (by decide))]
  refine (returns_emit s (int (chr '%'))).bind ?_
  rw [hprev]
  refine (returns_scan mods.length fun n hn => backscan_reads hmods hback.reads (le_refl _) hn).bind ?_
  rw [hd.ap]
  exact Returns.pure

/-- **An unknown directive** is printed as its own text. -/
theorem vprintfmt_unknown {mods : List Byte} (hmods : ∀ b ∈ mods, Modifier b) {c : Byte} (hc : ¬ Modifier c)
    (hconv : c ∉ conversions) (h0 : c ≠ 0#8) (h : Text k s fmt (chr '%' :: (mods ++ [c]))) :
    Returns (fun n => vprintfmt k n fmt va ap) s () t ↔
      Returns (fun n => vprintfmt k n (fmt.skip (mods.length + 2)) va (ap + mods.count (chr '*')))
        (feed k s ((chr '%' :: (mods ++ [c])).map int)) () t := by
  have hl : ∀ x ∈ mods ++ [c], x ≠ chr '%' ∧ x ≠ 0#8 := by
    intro x hx
    rcases List.mem_append.1 hx with hx | hx
    · exact ⟨(hmods x hx).ne_percent, (hmods x hx).ne_zero⟩
    · obtain rfl := List.mem_singleton.1 hx
      refine ⟨?_, h0⟩
      rintro rfl
      exact hconv (by decide)
  rw [vprintfmt_back hmods hc hconv h, vprintfmt_literal hl (h.tail.putch (int (chr '%'))), Ptr.skip_next,
    List.length_append]
  rfl

/-- a directive without an end is printed as its own text, and the call returns -/
theorem vprintfmt_cut {mods : List Byte} (hmods : ∀ b ∈ mods, Modifier b)
    (h : Text k s fmt (chr '%' :: (mods ++ [0#8]))) :
    Returns (fun n => vprintfmt k n fmt va ap) s () (feed k s ((chr '%' :: mods).map int)) := by
  have hl : ∀ x ∈ mods, x ≠ chr '%' ∧ x ≠ 0#8 := fun x hx => ⟨(hmods x hx).ne_percent, (hmods x hx).ne_zero⟩
  have htail := h.tail.putch (int (chr '%'))
  rw [vprintfmt_back hmods (by decide) (by decide) h, vprintfmt_literal hl htail.left]
  exact vprintfmt_nul (htail.right.feed (mods.map int)).reads.head

end Steps

/-! ## Conversions -/

/-- the arguments of a call: the 4-byte slots, and the strings that the slots point to -/
structure Args where
  word : ℕ → Word
  text : ℕ → List Byte

/-- the arguments that a conversion takes -/
def slots (c : Byte) (lflag : Word) : ℕ :=
  if c = chr '%' then 0 else if c ∈ str "duox" ∧ (1#32).slt lflag then 2 else 1

/-- the message of `%e` -/
def errorText (err : Word) : List Word :=
  match if maxerror.sle err then none else errorString err.toNat with
  | none => (str "error ").map int ++ decimalText (int (chr ' ')) (err.signExtend 64) (-1#32)
  | some p => stringText (Dir.start (.lit (str "%s") 2) 0) p

/-- what a conversion puts out -/
def convText (a : Args) (c : Byte) (d : Dir) : List Word :=
  if c = chr 'c' then [a.word d.ap]
  else if c = chr 'e' then errorText (errNumber (a.word d.ap))
  else if c = chr 's' then stringText d (a.text d.ap)
  else if c = chr 'd' then decimalText d.padc (getint (VaList.ofWords a.word) d.ap d.lflag).1 d.width
  else if c = chr 'u' then number 10 d.padc (getuint (VaList.ofWords a.word) d.ap d.lflag).1.toNat d.width
  else if c = chr 'o' then number 8 d.padc (getuint (VaList.ofWords a.word) d.ap d.lflag).1.toNat d.width
  else if c = chr 'p' then int (chr '0') :: int (chr 'x') :: number 16 d.padc (a.word d.ap).toNat d.width
  else if c = chr 'x' then number 16 d.padc (getuint (VaList.ofWords a.word) d.ap d.lflag).1.toNat d.width
  else [int c]

section Conversions

variable {τ : Type} {k : Sink τ} {s : τ} {va : VaList} {a : Args}

theorem convText_string (a : Args) (d : Dir) : convText a (chr 's') d = stringText d (a.text d.ap) := by
  rw [convText, if_neg (by decide), if_neg (by decide), if_pos rfl]

theorem convText_decimal (a : Args) (d : Dir) :
    convText a (chr 'd') d = decimalText d.padc (getint (VaList.ofWords a.word) d.ap d.lflag).1 d.width := by
  rw [convText, if_neg (by decide), if_neg (by decide), if_neg (by decide), if_pos rfl]

theorem getint_next (word : ℕ → Word) (ap : ℕ) (lflag : Word) :
    (getint (VaList.ofWords word) ap lflag).2 = ap + slots (chr 'd') lflag := by
  have hmem : chr 'd' ∈ str "duox" := by decide
  rw [getint, slots, if_neg (show chr 'd' ≠ chr '%' by decide)]
  by_cases hl : (1#32).slt lflag
  · rw [if_pos hl, if_pos ⟨hmem, hl⟩]
  · rw [if_neg hl, if_neg fun h => hl h.2]

theorem getuint_next {c : Byte} (hc : c ∈ str "uox") (word : ℕ → Word) (ap : ℕ) (lflag : Word) :
    (getuint (VaList.ofWords word) ap lflag).2 = ap + slots c lflag := by
  have hne : c ≠ chr '%' := by
    rintro rfl
    revert hc
    decide
  rw [getuint, slots, if_neg hne]
  by_cases hl : (1#32).slt lflag
  · rw [if_pos hl, if_pos ⟨List.mem_cons_of_mem _ hc, hl⟩]
  · rw [if_neg hl, if_neg fun h => hl h.2]

/-- every conversion but `%e` -/
theorem returns_conv_plain (nested : ℕ → Ptr → VaList → M τ Unit) {c : Byte} (hc : c ∈ str "csduopx%") {d : Dir}
    (hword : va.word = a.word)
    (hstr : c = chr 's' → 0#8 ∉ a.text d.ap ∧ Text k s (strArg (va.str d.ap)) (a.text d.ap ++ [0#8])) :
    Returns (fun n => conv k (nested n) va n c d) s (d.fmt, d.ap + slots c d.lflag) (feed k s (convText a c d)) := by
  have hint : ∀ ap lflag, getint va ap lflag = getint (VaList.ofWords a.word) ap lflag := by
    intro ap lflag
    rw [getint, getint, hword]
    rfl
  have huint : ∀ ap lflag, getuint va ap lflag = getuint (VaList.ofWords a.word) ap lflag := by
    intro ap lflag
    rw [getuint, getuint, hword]
    rfl
  have hnum : ∀ (base : ℕ) (e : Byte), 2 ≤ base → e ∈ str "uox" →
      Returns (fun n => printnum k base d.padc n (getuint va d.ap d.lflag).1.toNat d.width >>= fun _ =>
        pure (d.fmt, (getuint va d.ap d.lflag).2)) s (d.fmt, d.ap + slots e d.lflag)
        (feed k s (number base d.padc (getuint (VaList.ofWords a.word) d.ap d.lflag).1.toNat d.width)) := by
    intro base e hb he
    rw [huint, getuint_next he]
    exact (returns_printnum hb s _ _ _).bind Returns.pure
  have hcases : c = chr 'c' ∨ c = chr 's' ∨ c = chr 'd' ∨ c = chr 'u' ∨ c = chr 'o' ∨ c = chr 'p' ∨ c = chr 'x' ∨
      c = chr '%' := by
    simpa [str] using hc
  rcases hcases with rfl | rfl | rfl | rfl | rfl | rfl | rfl | rfl
  · refine Returns.of_run ?_
    intro n
    change Except.ok ((d.fmt, d.ap + 1), k.putch (va.word d.ap) s) = _
    rw [hword]
    rfl
  · obtain ⟨h0, htext⟩ := hstr rfl
    exact (returns_convString h0 htext d).bind Returns.pure
  · change Returns (fun n => convInt k n d (getint va d.ap d.lflag).1 >>= fun _ => pure (d.fmt, (getint va d.ap d.lflag).2))
      _ _ _
    rw [hint, getint_next]
    exact (returns_convInt s d _).bind Returns.pure
  · exact hnum 10 (chr 'u') (by decide) (by decide)
  · exact hnum 8 (chr 'o') (by decide) (by decide)
  · refine (returns_emit s (int (chr '0'))).bind ((returns_emit _ (int (chr 'x'))).bind ?_)
    rw [hword]
    exact (returns_printnum (by decide) _ _ _ _).bind Returns.pure
  · exact hnum 16 (chr 'x') (by decide) (by decide)
  · exact Returns.of_run fun n => rfl

/-! ### `%e` -/

theorem errorString_nul {err : ℕ} {p : List Byte} (h : errorString err = some p) : 0#8 ∉ p := by
  have hall : ∀ i < 7, (errorString i).all (fun l => decide (0#8 ∉ l)) = true := by decide
  by_cases hlt : err < 7
  · have herr := hall err hlt
    rw [h, Option.all_some] at herr
    exact of_decide_eq_true herr
  · rw [errorString, List.getD_eq_getElem?_getD, List.getElem?_eq_none (not_lt.1 hlt)] at h
    cases h

/-- a literal that is text and one directive -/
theorem returns_literal (s : τ) {e : List Byte} (he : ∀ c ∈ e, c ≠ chr '%' ∧ c ≠ 0#8) {c : Byte} (hm : ¬ Modifier c)
    (hc : c ∈ str "csduopx%") (hword : va.word = a.word)
    (hstr : c = chr 's' → 0#8 ∉ a.text 0 ∧ ∀ t, Text k t (strArg (va.str 0)) (a.text 0 ++ [0#8])) :
    Returns (fun n => vprintfmt k n (.lit (e ++ [chr '%', c]) 0) va 0) s ()
      (feed k s (e.map int ++ convText a c (Dir.start (.lit (e ++ [chr '%', c]) (e.length + 2)) 0))) := by
  have htext : Text k s (.lit (e ++ [chr '%', c]) 0) (e ++ ((chr '%' :: ([] ++ [c])) ++ [0#8])) := by
    have hlit := Text.lit (k := k) (s := s) (e ++ [chr '%', c])
    rw [List.append_assoc] at hlit
    exact hlit
  have hdir := htext.right.feed (e.map int)
  have hptr : (Ptr.lit (e ++ [chr '%', c]) 0).skip e.length = .lit (e ++ [chr '%', c]) e.length :=
    congrArg (Ptr.lit _) (Nat.zero_add _)
  rw [hptr] at hdir
  rw [vprintfmt_literal he htext.left, hptr, feed_append]
  have hconv := returns_conv_plain (k := k) (s := feed k s (e.map int)) (fun n fmt va => vprintfmt k n fmt va 0) hc
    (d := Dir.start (.lit (e ++ [chr '%', c]) (e.length + 2)) 0) hword (fun h => ⟨(hstr h).1, (hstr h).2 _⟩)
  refine (vprintfmt_directive hdir.left (Scanned.last _ _ hm) hconv).2 ?_
  exact vprintfmt_nul (hdir.right.feed _).reads.head

/-- the nested `"error %d"` -/
theorem returns_errorNumber (s : τ) (err : Word) :
    Returns (fun n => vprintfmt k n (.lit (str "error %d") 0) (VaList.ofWords fun _ => err) 0) s ()
      (feed k s ((str "error ").map int ++ decimalText (int (chr ' ')) (err.signExtend 64) (-1#32))) := by
  have hlit : str "error %d" = str "error " ++ [chr '%', chr 'd'] := by decide
  have hone : ¬ (1#32).slt 0#32 := by decide
  have hint : (getint (VaList.ofWords fun _ => err) 0 0#32).1 = err.signExtend 64 := by
    rw [getint, if_neg hone]
    rfl
  let a : Args := ⟨fun _ => err, fun _ => []⟩
  have hret : Returns (fun n => vprintfmt k n (.lit (str "error " ++ [chr '%', chr 'd']) 0) (VaList.ofWords a.word) 0)
      s () _ := returns_literal (a := a) s (by decide) (by decide) (by decide) rfl fun h => absurd h (by decide)
  rw [convText_decimal] at hret
  rw [hlit, ← hint]
  exact hret

/-- the nested `"%s"` -/
theorem returns_errorString (s : τ) {p : List Byte} (h0 : 0#8 ∉ p) :
    Returns (fun n => vprintfmt k n (.lit (str "%s") 0) ⟨fun _ => 0#32, fun _ => .lit p 0⟩ 0) s ()
      (feed k s (stringText (Dir.start (.lit (str "%s") 2) 0) p)) := by
  have hlit : str "%s" = [chr '%', chr 's'] := by decide
  let a : Args := ⟨fun _ => 0#32, fun _ => p⟩
  let va : VaList := ⟨fun _ => 0#32, fun _ => .lit p 0⟩
  have hret : Returns (fun n => vprintfmt k n (.lit ([] ++ [chr '%', chr 's']) 0) va 0) s () _ :=
    returns_literal (a := a) s (fun c hc => absurd hc List.not_mem_nil) (by decide) (by decide) rfl
      fun _ => ⟨h0, fun t => Text.lit p⟩
  rw [List.map_nil, List.nil_append, List.nil_append, convText_string] at hret
  rw [hlit]
  exact hret

theorem returns_convError (s : τ) {err : Word} (herr : err.slt 0#32 = false) :
    Returns (fun n => convError (fun fmt va => vprintfmt k n fmt va 0) err) s () (feed k s (errorText err)) := by
  rw [errorText]
  by_cases hmax : maxerror.sle err
  · simp only [convError, if_pos hmax]
    exact returns_errorNumber s err
  · simp only [convError, if_neg hmax, herr, Bool.false_eq_true, if_false]
    cases hp : errorString err.toNat with
    | none => exact returns_errorNumber s err
    | some p => exact returns_errorString s (errorString_nul hp)

/-- every number but the least is made positive -/
theorem errNumber_nonneg {err : Word} (h : err ≠ 0x80000000#32) : (errNumber err).slt 0#32 = false := by
  rw [errNumber]
  split_ifs with hneg
  · rw [BitVec.slt_zero_eq_msb] at hneg ⊢
    have hmin : err ≠ BitVec.intMin 32 := h
    have h0 : err ≠ 0#32 := by
      rintro rfl
      exact absurd hneg (by decide)
    rw [BitVec.msb_neg, hneg, bne_iff_ne.2 h0, bne_iff_ne.2 hmin]
    rfl
  · exact eq_false_of_ne_true hneg

/-- **Every conversion returns**, puts out its text and goes on behind the directive. -/
theorem returns_conv {c : Byte} (hc : c ∈ conversions) {d : Dir} (hword : va.word = a.word)
    (herr : c = chr 'e' → a.word d.ap ≠ 0x80000000#32)
    (hstr : c = chr 's' → 0#8 ∉ a.text d.ap ∧ Text k s (strArg (va.str d.ap)) (a.text d.ap ++ [0#8])) :
    Returns (fun n => conv k (fun fmt va => vprintfmt k n fmt va 0) va n c d) s (d.fmt, d.ap + slots c d.lflag)
      (feed k s (convText a c d)) := by
  by_cases he : c = chr 'e'
  · subst he
    change Returns (fun n => convError (fun fmt va => vprintfmt k n fmt va 0) (errNumber (va.word d.ap)) >>= fun _ =>
      pure (d.fmt, d.ap + 1)) _ _ _
    rw [hword]
    exact (returns_convError s (errNumber_nonneg (herr rfl))).bind Returns.pure
  · have hplain : ∀ x ∈ conversions, x ≠ chr 'e' → x ∈ str "csduopx%" := by decide
    exact returns_conv_plain _ (hplain c hc he) hword hstr

end Conversions

/-! ## Formats -/

/-- the conversions that a format asks an argument for, each with the slot of its argument; `some l` is in a directive,
after l times 'l' -/
def requests : Option ℕ → List Byte → ℕ → List (Byte × ℕ)
  | _, [], _ => []
  | none, c :: f, ap => requests (if c = chr '%' then some 0 else none) f ap
  | some l, c :: f, ap =>
    if Modifier c then
      requests (some (l + if c = chr 'l' then 1 else 0)) f (ap + if c = chr '*' then 1 else 0)
    else if c ∈ conversions then (c, ap) :: requests none f (ap + slots c (BitVec.ofNat 32 l))
    else requests none f ap

theorem requests_modifiers {mods : List Byte} (hmods : ∀ b ∈ mods, Modifier b) (l : ℕ) (f : List Byte) (ap : ℕ) :
    requests (some l) (mods ++ f) ap =
      requests (some (l + mods.count (chr 'l'))) f (ap + mods.count (chr '*')) := by
  induction mods generalizing l ap with
  | nil => rfl
  | cons b mods ih =>
    rw [List.cons_append, requests, if_pos (hmods b List.mem_cons_self),
      ih (fun x hx => hmods x (List.mem_cons_of_mem b hx)), List.count_cons, List.count_cons,
      Nat.add_comm (mods.count (chr 'l')), Nat.add_comm (mods.count (chr '*')), ← Nat.add_assoc, ← Nat.add_assoc]
    simp only [beq_iff_eq]

theorem requests_directive {mods : List Byte} (hmods : ∀ b ∈ mods, Modifier b) (rest : List Byte) (ap : ℕ) :
    requests none (chr '%' :: (mods ++ rest)) ap =
      requests (some (mods.count (chr 'l'))) rest (ap + mods.count (chr '*')) := by
  rw [requests, if_pos rfl, requests_modifiers hmods, Nat.zero_add]

/-- arguments of the kinds that are requested: no error number is the least int, and a string has no NUL in it -/
structure Args.Proper (a : Args) (reqs : List (Byte × ℕ)) : Prop where
  err : ∀ i, (chr 'e', i) ∈ reqs → a.word i ≠ 0x80000000#32
  nul : ∀ i, (chr 's', i) ∈ reqs → 0#8 ∉ a.text i

/-- the va_list has the arguments, and the strings stand where it points to, up to their NUL -/
structure Passed {τ : Type} (k : Sink τ) (s : τ) (va : VaList) (a : Args) (reqs : List (Byte × ℕ)) : Prop where
  word : va.word = a.word
  text : ∀ i, (chr 's', i) ∈ reqs → Text k s (strArg (va.str i)) (a.text i ++ [0#8])

section Formats

variable {τ : Type} {k : Sink τ} {s : τ} {va : VaList} {a : Args} {reqs reqs' : List (Byte × ℕ)}

theorem Args.Proper.mono (h : a.Proper reqs) (hsub : ∀ x ∈ reqs', x ∈ reqs) : a.Proper reqs' :=
  ⟨fun i hi => h.err i (hsub _ hi), fun i hi => h.nul i (hsub _ hi)⟩

theorem Passed.mono (h : Passed k s va a reqs) (hsub : ∀ x ∈ reqs', x ∈ reqs) : Passed k s va a reqs' :=
  ⟨h.word, fun i hi => h.text i (hsub _ hi)⟩

theorem Passed.feed (h : Passed k s va a reqs) (cs : List Word) : Passed k (feed k s cs) va a reqs :=
  ⟨h.word, fun i hi => (h.text i hi).feed cs⟩

/-- a directive and what is behind it -/
theorem Text.directive {fmt : Ptr} {mods post l : List Byte} {c : Byte}
    (h : Text k s fmt (chr '%' :: (mods ++ c :: post) ++ l)) :
    Text k s fmt (chr '%' :: (mods ++ [c])) ∧ Text k s (fmt.skip (mods.length + 2)) (post ++ l) := by
  have heq : chr '%' :: (mods ++ c :: post) ++ l = chr '%' :: (mods ++ [c]) ++ (post ++ l) := by
    simp only [List.cons_append, List.append_assoc, List.nil_append]
  have hlen : (chr '%' :: (mods ++ [c])).length = mods.length + 2 := by
    rw [List.length_cons, List.length_append]
    rfl
  rw [heq] at h
  exact ⟨h.left, hlen ▸ h.right⟩

/-- **What a format puts out** is a function of its bytes and of its arguments: the same from any sink. -/
theorem vprintfmt_total (a : Args) {f : List Byte} (hf : 0#8 ∉ f) (fmt : Ptr) (ap : ℕ)
    (ha : a.Proper (requests none f ap)) :
    ∃ cs, ∀ {τ : Type} (k : Sink τ) (s : τ) (va : VaList), Text k s fmt (f ++ [0#8]) →
      Passed k s va a (requests none f ap) → Returns (fun n => vprintfmt k n fmt va ap) s () (feed k s cs) := by
  -- on what is left of the format: a directive is behind it, or is text and then behind it
  induction hn : f.length using Nat.strong_induction_on generalizing f fmt ap with
  | _ n ih =>
    cases f with
    | nil => exact ⟨[], fun k s va h _ => vprintfmt_nul h.reads.head⟩
    | cons c f =>
      rw [List.length_cons] at hn
      obtain ⟨hc0, hf'⟩ := not_or.1 (List.mem_cons.not.1 hf)
      by_cases hp : c = chr '%'
      · subst hp
        obtain ⟨mods, rest, rfl, hmods, hrest⟩ := longest_prefix Modifier f
        rw [List.length_append] at hn
        rw [requests_directive hmods] at ha ⊢
        cases rest with
        | nil =>
          refine ⟨(chr '%' :: mods).map int, fun k s va h _ => vprintfmt_cut hmods ?_⟩
          rw [List.append_nil] at h
          exact h
        | cons c post =>
          have hnc : ¬ Modifier c := hrest c post rfl
          have hpost : 0#8 ∉ post := fun h => hf' (List.mem_append_right mods (List.mem_cons_of_mem c h))
          rw [List.length_cons] at hn
          rw [requests, if_neg hnc] at ha ⊢
          by_cases hconv : c ∈ conversions
          · rw [if_pos hconv] at ha ⊢
            obtain ⟨d, hd⟩ := reswitch_reads a.word hnc hmods (Dir.start fmt.next ap)
            have hlflag : d.lflag = BitVec.ofNat 32 (mods.count (chr 'l')) := by
              rw [hd.lflag]
              exact BitVec.zero_add _
            have hfmt : d.fmt = fmt.skip (mods.length + 2) := by
              rw [hd.fmt]
              exact Ptr.skip_next fmt (mods.length + 1)
            rw [← hlflag] at ha ⊢
            have hap : ap + mods.count (chr '*') = d.ap := hd.ap.symm
            rw [hap] at ha ⊢
            obtain ⟨cs, hcs⟩ := ih post.length (by omega) hpost d.fmt (d.ap + slots c d.lflag)
              (ha.mono fun x hx => List.mem_cons_of_mem _ hx) rfl
            refine ⟨convText a c d ++ cs, fun k s va h hva => ?_⟩
            obtain ⟨hdir, hrest⟩ := h.directive
            have hret := returns_conv (k := k) (s := s) hconv (d := d) hva.word
              (fun he => ha.err d.ap (he ▸ List.mem_cons_self))
              fun hs => ⟨ha.nul d.ap (hs ▸ List.mem_cons_self), hva.text d.ap (hs ▸ List.mem_cons_self)⟩
            rw [vprintfmt_directive hdir (hva.word ▸ hd) hret, feed_append]
            refine hcs k _ va ?_ ((hva.mono fun x hx => List.mem_cons_of_mem _ hx).feed _)
            rw [hfmt]
            exact hrest.feed _
          · rw [if_neg hconv] at ha ⊢
            have hc0' : c ≠ 0#8 := by
              rintro rfl
              exact hf' (List.mem_append_right mods List.mem_cons_self)
            obtain ⟨cs, hcs⟩ := ih post.length (by omega) hpost (fmt.skip (mods.length + 2))
              (ap + mods.count (chr '*')) ha rfl
            refine ⟨(chr '%' :: (mods ++ [c])).map int ++ cs, fun k s va h hva => ?_⟩
            obtain ⟨hdir, hrest⟩ := h.directive
            rw [vprintfmt_unknown hmods hnc hconv hc0' hdir, feed_append]
            exact hcs k _ va (hrest.feed _) (hva.feed _)
      · rw [requests, if_neg hp] at ha ⊢
        obtain ⟨cs, hcs⟩ := ih f.length (by omega) hf' fmt.next ap ha rfl
        refine ⟨int c :: cs, fun k s va h hva => ?_⟩
        rw [vprintfmt_char h.reads.head hp (Ne.symm hc0)]
        exact hcs k _ va ((Text.tail h).putch (int c)) (hva.feed [int c])

/-! ## The format as memory -/

/-- the sink where a read outside A is a fault -/
def Sink.only (k : Sink τ) (A : Word → Prop) [DecidablePred A] : Sink τ :=
  { k with read := fun s b => if A b then k.read s b else none }

theorem Text.only {p : Ptr} {l : List Byte} (h : Text k s p l) {A : Word → Prop} [DecidablePred A]
    (hA : ∀ i < l.length, ∀ b, p.skip i = .mem b → A b) : Text (k.only A) s p l := by
  intro cs i c hc
  have hread := h cs i c hc
  have hi := (List.getElem?_eq_some_iff.1 hc).1
  change (k.only A).reader (Jos.feed k s cs) (p.skip i) = some c
  cases hp : p.skip i with
  | mem b =>
    rw [hp] at hread
    change (if A b then k.read (Jos.feed k s cs) b else none) = some c
    rw [if_pos (hA i hi b hp)]
    exact hread
  | lit t j =>
    rw [hp] at hread
    exact hread

/-- **The formatter returns** on every format and for all arguments of the kinds requested. What it puts out is the same
when every byte but those of the format, from its first to its NUL, and of the strings is a fault. A directive that ends in
an unknown character is printed as its own text, and so is one that the NUL ends, and then the call returns. -/
theorem vprintfmt_returns (k : Sink τ) (s : τ) (fmt : Ptr) (f : List Byte) (hf : 0#8 ∉ f) (hfmt : Text k s fmt (f ++ [0#8]))
    (ap : ℕ) (a : Args) (ha : a.Proper (requests none f ap)) :
    (∃ cs,
      (∀ va, Passed k s va a (requests none f ap) → Returns (fun n => vprintfmt k n fmt va ap) s () (feed k s cs)) ∧
      ∀ (A : Word → Prop) [DecidablePred A], (∀ i ≤ f.length, ∀ b, fmt.skip i = .mem b → A b) → ∀ va,
        Passed (k.only A) s va a (requests none f ap) →
          Returns (fun n => vprintfmt (k.only A) n fmt va ap) s () (feed k s cs)) ∧
    (∀ pre mods c post, f = pre ++ chr '%' :: (mods ++ c :: post) → (∀ b ∈ mods, Modifier b) → ¬ Modifier c →
      c ∉ conversions → ∀ va ap' cs t,
        Returns (fun n => vprintfmt k n (fmt.skip pre.length) va ap') (feed k s cs) () t ↔
          Returns (fun n => vprintfmt k n (fmt.skip (pre.length + (mods.length + 2))) va (ap' + mods.count (chr '*')))
            (feed k s (cs ++ (chr '%' :: (mods ++ [c])).map int)) () t) ∧
    ∀ pre mods, f = pre ++ chr '%' :: mods → (∀ b ∈ mods, Modifier b) → ∀ va ap' cs,
      Returns (fun n => vprintfmt k n (fmt.skip pre.length) va ap') (feed k s cs) ()
        (feed k s (cs ++ (chr '%' :: mods).map int)) := by
  refine ⟨?_, ?_, ?_⟩
  · obtain ⟨cs, hcs⟩ := vprintfmt_total a hf fmt ap ha
    refine ⟨cs, fun va hva => hcs k s va hfmt hva, fun A _ hA va hva => ?_⟩
    refine hcs (k.only A) s va (hfmt.only fun i hi b hb => hA i ?_ b hb) hva
    rw [List.length_append] at hi
    exact Nat.le_of_lt_succ hi
  · rintro pre mods c post rfl hmods hc hconv va ap' cs t
    have hc0 : c ≠ 0#8 := by
      rintro rfl
      exact hf (by simp)
    rw [List.append_assoc] at hfmt
    obtain ⟨hdir, -⟩ := hfmt.right.directive
    rw [vprintfmt_unknown hmods hc hconv hc0 (hdir.feed cs), feed_append, Ptr.skip_skip]
  · rintro pre mods rfl hmods va ap' cs
    rw [List.append_assoc] at hfmt
    rw [feed_append]
    exact vprintfmt_cut hmods (hfmt.right.feed cs)

end Formats

/-- the format "%5q%s%-" at 0x1000 and the string "ab" at 0x2000 -/
def sampleMem : Bytes := fun b =>
  if b < 0x2000#32 then (str "%5q%s%-").getD (b - 0x1000#32).toNat 0#8 else (str "ab").getD (b - 0x2000#32).toNat 0#8

/-- the sample returns: an unknown directive, a string, and a directive that the NUL ends -/
theorem vprintfmt_returns_sample : 0#8 ∉ str "%5q%s%-" ∧
    ∃ cs, Returns (fun n => vprintfmt cprintfSink n (.mem 0x1000#32) (VaList.ofWords fun _ => 0x2000#32) 0)
      { mem := sampleMem, cnt := 0#32, out := [] } ()
      (feed cprintfSink { mem := sampleMem, cnt := 0#32, out := [] } cs) := by
  have hnul : 0#8 ∉ str "%5q%s%-" := by decide
  let s : Cprintf := { mem := sampleMem, cnt := 0#32, out := [] }
  have hfmt : Text cprintfSink s (.mem 0x1000#32) (str "%5q%s%-" ++ [0#8]) := Text.cprintf (by decide)
  let a : Args := ⟨fun _ => 0x2000#32, fun _ => str "ab"⟩
  have hproper : a.Proper (requests none (str "%5q%s%-") 0) := by
    refine ⟨fun i _ => ?_, fun i _ => ?_⟩ <;> exact of_decide_eq_true rfl
  obtain ⟨⟨cs, hcs, -⟩, -, -⟩ :=
    vprintfmt_returns cprintfSink s (.mem 0x1000#32) (str "%5q%s%-") hnul hfmt 0 a hproper
  have hab : Text cprintfSink s (.mem 0x2000#32) (str "ab" ++ [0#8]) := Text.cprintf (by decide)
  exact ⟨hnul, cs, hcs _ ⟨rfl, fun _ _ => hab⟩⟩

end Jos
