/-
The two front ends of the formatter: vcprintf (kern/printf.c) and vsnprintf (lib/printfmt.c).

Both call vprintfmt with their own putch. `out` is a ghost: the characters that putch was called with. Results:
- `silent_of_quiet`, `Silent.run`: which formats and arguments print nothing, read off the format alone;
- `fronts_agree`: vcprintf returns the number of characters it has printed for those only, because putch increments its
  pointer and not the counter (`fronts_differ`);
- `same_stream`: what vcprintf prints and what vsnprintf counts is the same, if the formatter reads nothing from the
  buffer;
- `vsnprintf_truncates`: what vsnprintf leaves in memory and returns; `vsnprintf_count_wraps`: from 2^31 characters on
  the count is negative.
-/
import Jos.Printf.Format

namespace Jos

open Jos.Lib

/-- memory, a byte at each address -/
abbrev Bytes := Word → Byte

/-! ## kern/printf.c -/

structure Cprintf where
  mem : Bytes
  cnt : Word
  /-- ghost: what has been passed to cputchar -/
  out : List Word

/-- `*cnt++` increments the parameter cnt and reads what it pointed to -/
def putch (ch : Word) (s : Cprintf) : Cprintf := { s with out := s.out ++ [ch] }

def cprintfSink : Sink Cprintf where
  read s a := some (s.mem a)
  putch := putch

def vcprintf (fuel : ℕ) (fmt : Ptr) (va : VaList) (m : Bytes) : Except Stop (Word × Cprintf) := do
  let r ← (vprintfmt cprintfSink fuel fmt va 0).run { mem := m, cnt := 0#32, out := [] }
  return (r.2.cnt, r.2)

/-! ## lib/printfmt.c -/

/-- struct sprintbuf, with the memory that it points to -/
structure Sprintbuf where
  mem : Bytes
  buf : Word
  ebuf : Word
  cnt : Word
  /-- ghost: what sprintputch has been called with -/
  out : List Word

def sprintputch (ch : Word) (b : Sprintbuf) : Sprintbuf :=
  let b := { b with cnt := b.cnt + 1#32, out := b.out ++ [ch] }
  if b.buf < b.ebuf then { b with mem := Function.update b.mem b.buf (ch.setWidth 8), buf := b.buf + 1#32 } else b

def sprintSink : Sink Sprintbuf where
  read b a := some (b.mem a)
  putch := sprintputch

def eInval : Word := 3

def sprintStart (buf n : Word) (m : Bytes) : Sprintbuf :=
  { mem := m, buf := buf, ebuf := buf + n - 1#32, cnt := 0#32, out := [] }

def vsnprintf (fuel : ℕ) (buf n : Word) (fmt : Ptr) (va : VaList) (m : Bytes) : Except Stop (Word × Sprintbuf) :=
  if buf = 0#32 ∨ n.slt 1#32 then .ok (-eInval, sprintStart buf n m)
  else do
    let r ← (vprintfmt sprintSink fuel fmt va 0).run (sprintStart buf n m)
    return (r.2.cnt, { r.2 with mem := Function.update r.2.mem r.2.buf 0#8 })

/-- the memory as the formatter reads it -/
def Bytes.reader (m : Bytes) : Reader
  | .mem a => some (m a)
  | .lit l i => litByte l i

/-- the object that vsnprintf is to fill -/
structure Buffer (buf n : Word) : Prop where
  ne : buf ≠ 0#32
  pos : 1 ≤ n.toInt
  fits : buf.toNat + n.toNat ≤ 2 ^ 32

/-! ## Silence -/

/-- the formats that print nothing: directives `%s` with a width of 0 or less, each for a string that is empty or cut to
nothing by a precision of 0 -/
inductive Silent (r : Reader) (va : VaList) : Ptr → ℕ → Prop
  | done {fmt : Ptr} {ap : ℕ} (h : r fmt = some 0#8) : Silent r va fmt ap
  | str {fmt : Ptr} {ap fuel : ℕ} {d : Dir} {c : Byte} (hp : r fmt = some (chr '%'))
      (hd : reswitch r va fuel (Dir.start fmt.next ap) = .ok (chr 's', d)) (hw : ¬ (0#32).slt d.width)
      (hc : r (strArg (va.str d.ap)) = some c) (h0 : c = 0#8 ∨ d.precision = 0#32)
      (hrest : Silent r va d.fmt (d.ap + 1)) : Silent r va fmt ap

section Rounds

variable {r : Reader}

theorem digits_rounds {n m : ℕ} (hnm : n ≤ m) {ch : Byte} {precision : Word} {fmt : Ptr} {a : Word × Ptr}
    (h : digits r n ch precision fmt = .ok a) : digits r m ch precision fmt = .ok a := by
  induction n generalizing m ch precision fmt with
  | zero => cases h
  | succ n ih =>
    obtain ⟨m, rfl⟩ : ∃ k, m = k + 1 := ⟨m - 1, by omega⟩
    rw [digits] at h ⊢
    obtain ⟨b, hb, h1⟩ := Prog.except_bind_ok.1 h
    refine Prog.except_bind_ok.2 ⟨b, hb, ?_⟩
    split_ifs at h1 ⊢
    · exact h1
    · exact ih (Nat.le_of_succ_le_succ hnm) h1

theorem reswitch_rounds {va : VaList} {n m : ℕ} (hnm : n ≤ m) {d : Dir} {a : Byte × Dir}
    (h : reswitch r va n d = .ok a) : reswitch r va m d = .ok a := by
  induction n generalizing m d with
  | zero => cases h
  | succ n ih =>
    obtain ⟨m, rfl⟩ : ∃ k, m = k + 1 := ⟨m - 1, by omega⟩
    have hle := Nat.le_of_succ_le_succ hnm
    rw [reswitch] at h ⊢
    obtain ⟨b, hb, h1⟩ := Prog.except_bind_ok.1 h
    clear h
    refine Prog.except_bind_ok.2 ⟨b, hb, ?_⟩
    split_ifs at h1 ⊢
    · exact ih hle h1
    · exact ih hle h1
    · obtain ⟨c, hc, h2⟩ := Prog.except_bind_ok.1 h1
      exact Prog.except_bind_ok.2 ⟨c, digits_rounds hle hc, ih hle h2⟩
    · exact ih hle h1
    · exact ih hle h1
    · exact ih hle h1
    · exact ih hle h1
    · exact h1

end Rounds

section Silence

variable {τ : Type} {k : Sink τ} {s : τ}

theorem run_scan {α : Type} {f : Reader → Except Stop α} {a : α} (h : f (k.reader s) = .ok a) :
    (scan k f).run s = .ok (a, s) :=
  (Prog.run_bind (Prog.get_ok.2 rfl)).trans (Prog.lift_ok.2 ⟨a, h, rfl⟩)

theorem scan_ok {α : Type} {f : Reader → Except Stop α} {a : α} {t : τ} (h : (scan k f).run s = .ok (a, t)) :
    f (k.reader s) = .ok a ∧ t = s := by
  obtain ⟨u, v, hu, hv⟩ := Prog.bind_ok.1 h
  obtain ⟨rfl, rfl⟩ := Prod.mk.inj (Prog.get_ok.1 hu)
  obtain ⟨b, hb, hr⟩ := Prog.lift_ok.1 hv
  obtain ⟨rfl, rfl⟩ := Prod.mk.inj hr
  exact ⟨hb, rfl⟩

theorem get_ok_iff {r : Reader} {p : Ptr} {b : Byte} : r.get p = .ok b ↔ r p = some b := by
  rw [Reader.get]
  cases r p with
  | none => exact ⟨fun h => (by cases h), fun h => (by cases h)⟩
  | some c => exact ⟨fun h => congrArg some (Except.ok.inj h), fun h => congrArg Except.ok (Option.some.inj h)⟩

theorem run_padLoop_none {c : Word} {fuel : ℕ} {width : Word} (h : ¬ (0#32).slt width) :
    (padLoop k c (fuel + 1) width).run s = .ok (width, s) := by
  rw [padLoop, if_neg h]
  rfl

theorem run_putString_none {altflag : Bool} {fuel : ℕ} {p : Ptr} {precision width : Word} {c : Byte}
    (hc : k.reader s p = some c) (h : c = 0#8 ∨ precision = 0#32) :
    (putString k altflag (fuel + 1) p precision width).run s = .ok (width, s) := by
  rw [putString, Prog.run_bind (run_scan (get_ok_iff.2 hc))]
  rcases h with rfl | rfl
  · rw [if_pos rfl]
    rfl
  · by_cases h0 : c = 0#8
    · rw [if_pos h0]
      rfl
    · rw [if_neg h0, if_neg (by decide)]
      rfl

/-- a silent format does nothing to any sink -/
theorem Silent.run {r : Reader} {va : VaList} {fmt : Ptr} {ap : ℕ} (h : Silent r va fmt ap) :
    ∃ N, ∀ fuel, N ≤ fuel → ∀ s, k.reader s = r → (vprintfmt k fuel fmt va ap).run s = .ok ((), s) := by
  induction h with
  | done h =>
    refine ⟨1, fun fuel hf s hr => ?_⟩
    obtain ⟨fuel, rfl⟩ : ∃ n, fuel = n + 1 := ⟨fuel - 1, by omega⟩
    rw [vprintfmt, Prog.run_bind (run_scan (get_ok_iff.2 (hr ▸ h))), if_neg (by decide), if_pos rfl]
    rfl
  | @str fmt ap n d c hp hd hw hc h0 _ ih =>
    obtain ⟨N, hN⟩ := ih
    refine ⟨max n (max N 1) + 1, fun fuel hf s hr => ?_⟩
    obtain ⟨fuel, rfl⟩ : ∃ n, fuel = n + 2 := ⟨fuel - 2, by omega⟩
    have hscan : reswitch (k.reader s) va (fuel + 1) (Dir.start fmt.next ap) = .ok (chr 's', d) :=
      reswitch_rounds (by omega) (hr ▸ hd)
    have hstring : (convString k (fuel + 1) d (va.str d.ap)).run s = .ok ((), s) := by
      have hpad : (padString k (fuel + 1) d (strArg (va.str d.ap))).run s = .ok (d.width, s) := by
        rw [padString, if_neg fun hw' => hw hw'.1]
        rfl
      rw [convString, Prog.run_bind hpad, Prog.run_bind (run_putString_none (hr ▸ hc) h0),
        Prog.run_bind (run_padLoop_none hw)]
      rfl
    have hconv : (conv k (fun fmt va => vprintfmt k (fuel + 1) fmt va 0) va (fuel + 1) (chr 's') d).run s =
        .ok ((d.fmt, d.ap + 1), s) := by
      rw [conv, if_neg (by decide), if_neg (by decide), if_pos rfl, Prog.run_bind hstring]
      rfl
    rw [vprintfmt, Prog.run_bind (run_scan (get_ok_iff.2 (hr ▸ hp))), if_pos rfl, Prog.run_bind (run_scan hscan),
      Prog.run_bind hconv]
    exact hN (fuel + 1) (by omega) s hr

/-! ### What prints something -/

variable {size : τ → ℕ}

/-- the sink counts its characters -/
def Counts (k : Sink τ) (size : τ → ℕ) : Prop := ∀ c s, size (k.putch c s) = size s + 1

theorem Counts.feed (h : Counts k size) (s : τ) (cs : List Word) : size (feed k s cs) = size s + cs.length := by
  induction cs generalizing s with
  | nil => rfl
  | cons c cs ih =>
    change size (Jos.feed k (k.putch c s) cs) = _
    rw [ih, h, List.length_cons]
    omega

/-- a program that puts out a character whenever it returns -/
def Loud {α : Type} (size : τ → ℕ) (x : M τ α) : Prop := ∀ s a t, x.run s = .ok (a, t) → size s < size t

theorem Feeds.le {α : Type} {x : M τ α} (h : Feeds k x) (hc : Counts k size) {s t : τ} {a : α}
    (hx : x.run s = .ok (a, t)) : size s ≤ size t := by
  obtain ⟨cs, rfl⟩ := h s a t hx
  rw [hc.feed]
  exact Nat.le_add_right _ _

/-- no more characters, no change -/
theorem Feeds.quiet {α : Type} {x : M τ α} (h : Feeds k x) (hc : Counts k size) {s t : τ} {a : α}
    (hx : x.run s = .ok (a, t)) (hs : size t ≤ size s) : t = s := by
  obtain ⟨cs, rfl⟩ := h s a t hx
  rw [hc.feed] at hs
  have hnil : cs = [] := List.eq_nil_of_length_eq_zero (by omega)
  rw [hnil]
  rfl

theorem loud_emit (hc : Counts k size) (c : Word) : Loud size (emit k c) := by
  intro s a t h
  obtain ⟨-, rfl⟩ := Prod.mk.inj (Prog.modify_ok.1 h)
  rw [hc]
  exact Nat.lt_succ_self _

theorem Loud.bind {α β : Type} {x : M τ α} {f : α → M τ β} (hx : Loud size x) (hc : Counts k size)
    (hf : ∀ a, Feeds k (f a)) : Loud size (x >>= f) := by
  intro s b t h
  obtain ⟨a, u, hu, ht⟩ := Prog.bind_ok.1 h
  exact lt_of_lt_of_le (hx s a u hu) ((hf a).le hc ht)

theorem Feeds.bind_loud {α β : Type} {x : M τ α} {f : α → M τ β} (hx : Feeds k x) (hc : Counts k size)
    (hf : ∀ a, Loud size (f a)) : Loud size (x >>= f) := by
  intro s b t h
  obtain ⟨a, u, hu, ht⟩ := Prog.bind_ok.1 h
  exact lt_of_le_of_lt (hx.le hc hu) (hf a u b t ht)

/-- a number has at least one digit -/
theorem loud_printnum (hc : Counts k size) (base : ℕ) (padc : Word) (fuel num : ℕ) (width : Word) :
    Loud size (printnum k base padc fuel num width) := by
  cases fuel with
  | zero => exact fun s a t h => absurd h Prog.throw_ok
  | succ fuel =>
    rw [printnum]
    split_ifs
    · exact (feeds_printnum base padc fuel _ _).bind_loud hc fun _ => loud_emit hc _
    · exact (feeds_padLoop padc fuel _).bind_loud hc fun _ => loud_emit hc _

theorem padLoop_quiet (hc : Counts k size) {c : Word} {fuel : ℕ} {width w : Word} {t : τ}
    (h : (padLoop k c fuel width).run s = .ok (w, t)) (hs : size t ≤ size s) : ¬ (0#32).slt width ∧ w = width := by
  cases fuel with
  | zero => exact absurd h Prog.throw_ok
  | succ fuel =>
    rw [padLoop] at h
    split_ifs at h with hw
    · have hloud := (loud_emit hc c).bind hc fun _ => feeds_padLoop c fuel (width - 1#32)
      exact absurd (hloud s w t h) (not_lt.2 hs)
    · exact ⟨hw, (Prod.mk.inj (Prog.pure_ok.1 h)).1⟩

theorem eq_zero_of_slt {w : Word} (h1 : w.slt 0#32 = false) (h2 : (w - 1#32).slt 0#32 = true) : w = 0#32 := by
  have := w.isLt
  rw [BitVec.slt_eq_decide, decide_eq_false_iff_not] at h1
  rw [BitVec.slt_eq_decide, decide_eq_true_iff] at h2
  rw [BitVec.toInt_eq_toNat_cond] at h1 h2
  apply BitVec.eq_of_toNat_eq
  simp at h1 h2 ⊢
  omega

theorem putString_quiet (hc : Counts k size) {altflag : Bool} {fuel : ℕ} {p : Ptr} {precision width w : Word} {t : τ}
    (h : (putString k altflag fuel p precision width).run s = .ok (w, t)) (hs : size t ≤ size s) :
    ∃ c, k.reader s p = some c ∧ (c = 0#8 ∨ precision = 0#32) ∧ w = width := by
  cases fuel with
  | zero => exact absurd h Prog.throw_ok
  | succ fuel =>
    rw [putString] at h
    obtain ⟨c, u, hu, h1⟩ := Prog.bind_ok.1 h
    obtain ⟨hget, rfl⟩ := scan_ok hu
    clear h hu
    refine ⟨c, get_ok_iff.1 hget, ?_⟩
    split_ifs at h1 with h0 hprec
    · exact ⟨Or.inl h0, (Prod.mk.inj (Prog.pure_ok.1 h1)).1⟩
    · have hloud := (loud_emit hc (shown altflag c)).bind hc fun _ =>
        feeds_putString altflag fuel p.next (counted precision) (width - 1#32)
      exact absurd (hloud u w t h1) (not_lt.2 hs)
    · refine ⟨Or.inr ?_, (Prod.mk.inj (Prog.pure_ok.1 h1)).1⟩
      -- not below 0, but below 0 after one decrement
      rw [allowed, Bool.or_eq_true, not_or, Bool.not_eq_true, Bool.not_eq_true, Bool.not_eq_false'] at hprec
      exact eq_zero_of_slt hprec.1 hprec.2

theorem convString_quiet (hc : Counts k size) {fuel : ℕ} {d : Dir} {p : Ptr} {t : τ}
    (h : (convString k fuel d p).run s = .ok ((), t)) (hs : size t ≤ size s) :
    ¬ (0#32).slt d.width ∧ ∃ c, k.reader s (strArg p) = some c ∧ (c = 0#8 ∨ d.precision = 0#32) := by
  obtain ⟨w1, s1, h1, hrest⟩ := Prog.bind_ok.1 h
  obtain ⟨w2, s2, h2, hrest⟩ := Prog.bind_ok.1 hrest
  obtain ⟨w3, s3, h3, hrest⟩ := Prog.bind_ok.1 hrest
  obtain ⟨-, rfl⟩ := Prod.mk.inj (Prog.pure_ok.1 hrest)
  clear h hrest
  have hle1 := (feeds_padString fuel d (strArg p)).le hc h1
  have hle2 := (feeds_putString d.altflag fuel (strArg p) d.precision w1).le hc h2
  have hle3 := (feeds_padLoop (int (chr ' ')) fuel w2).le hc h3
  obtain rfl := (feeds_padString fuel d (strArg p)).quiet hc h1 (by omega)
  obtain ⟨c, hread, hcase, rfl⟩ := putString_quiet hc h2 (by omega)
  obtain ⟨hw2, -⟩ := padLoop_quiet hc h3 (by omega)
  refine ⟨?_, c, hread, hcase⟩
  rw [padString] at h1
  split_ifs at h1 with hpad
  · -- the length of a string that is cut to nothing is 0
    obtain ⟨n, u, hu, h4⟩ := Prog.bind_ok.1 h1
    obtain ⟨hlen, rfl⟩ := scan_ok hu
    obtain ⟨hw4, -⟩ := padLoop_quiet hc h4 (le_refl _)
    have hn : n = 0#32 := by
      cases fuel with
      | zero => cases hlen
      | succ fuel =>
        rw [strnlen] at hlen
        rcases hcase with rfl | hprec
        · split_ifs at hlen
          · exact (Except.ok.inj hlen).symm
          · obtain ⟨b, hb, h5⟩ := Prog.except_bind_ok.1 hlen
            rw [get_ok_iff, hread] at hb
            rw [if_pos (Option.some.inj hb).symm] at h5
            exact (Except.ok.inj h5).symm
        · rw [if_pos hprec] at hlen
          exact (Except.ok.inj hlen).symm
    rw [hn, BitVec.sub_zero] at hw4
    exact absurd hpad.1 hw4
  · obtain ⟨rfl, -⟩ := Prod.mk.inj (Prog.pure_ok.1 h1)
    exact hw2

theorem errorString_cons {err : ℕ} {l : List Byte} (h : errorString err = some l) : ∃ c, l[0]? = some c ∧ c ≠ 0#8 := by
  have hall : ∀ i < 7, (errorString i).all (fun l => l[0]?.any (· ≠ 0#8)) = true := by decide
  by_cases hlt : err < 7
  · have herr := hall err hlt
    rw [h, Option.all_some, Option.any_eq_true_iff_get] at herr
    obtain ⟨hsome, hne⟩ := herr
    exact ⟨_, (Option.some_get hsome).symm, of_decide_eq_true hne⟩
  · rw [errorString, List.getD_eq_getElem?_getD, List.getElem?_eq_none (not_lt.1 hlt)] at h
    cases h

/-- the messages of `%e` are not silent -/
theorem not_silent_number (va : VaList) (ap : ℕ) : ¬ Silent (k.reader s) va (.lit (str "error %d") 0) ap := by
  intro h
  cases h with
  | done h => exact absurd (Option.some.inj h) (by decide)
  | str hp => exact absurd (Option.some.inj hp) (by decide)

theorem not_silent_message {l : List Byte} {c : Byte} (hl : l[0]? = some c) (hc : c ≠ 0#8) :
    ¬ Silent (k.reader s) ⟨fun _ => 0#32, fun _ => .lit l 0⟩ (.lit (str "%s") 0) 0 := by
  intro h
  cases h with
  | done h => exact absurd (Option.some.inj h) (by decide)
  | @str _ _ fuel d c' hp hd hw hread h0 =>
    cases fuel with
    | zero => cases hd
    | succ fuel =>
      obtain ⟨b, hb, h1⟩ := Prog.except_bind_ok.1 hd
      obtain rfl : chr 's' = b := Option.some.inj (get_ok_iff.1 hb)
      rw [if_neg (by decide), if_neg (by decide), if_neg (by decide), if_neg (by decide), if_neg (by decide),
        if_neg (by decide), if_neg (by decide)] at h1
      obtain ⟨-, rfl⟩ := Prod.mk.inj (Except.ok.inj h1)
      rcases h0 with rfl | h0
      · -- the string is the message itself
        obtain ⟨hlt, -⟩ := List.getElem?_eq_some_iff.1 hl
        have hread' : (l ++ [0#8])[0]? = some 0#8 := hread
        rw [List.getElem?_append_left hlt, hl] at hread'
        exact hc (Option.some.inj hread')
      · exact absurd h0 (by decide)

section Conversions

variable {nested : Ptr → VaList → M τ Unit}
  (hn : ∀ fmt va s t, (nested fmt va).run s = .ok ((), t) → size t ≤ size s → Silent (k.reader s) va fmt 0)

include hn in
theorem loud_convError (err : Word) : Loud size (convError nested err) := by
  have hnum : Loud size (nested (.lit (str "error %d") 0) (VaList.ofWords fun _ => err)) := by
    intro s a t h
    by_contra hle
    exact not_silent_number _ _ (hn _ _ s t h (not_lt.1 hle))
  intro s a t h
  rw [convError] at h
  split_ifs at h
  · exact hnum s a t h
  · exact absurd h Prog.throw_ok
  · cases herr : errorString err.toNat with
    | none =>
      rw [herr] at h
      exact hnum s a t h
    | some l =>
      rw [herr] at h
      obtain ⟨c, hl, hc⟩ := errorString_cons herr
      by_contra hle
      exact not_silent_message hl hc (hn _ _ s t h (not_lt.1 hle))

include hn in
/-- only `%s` can be silent -/
theorem conv_quiet (hc : Counts k size) {va : VaList} {fuel : ℕ} {ch : Byte} {d : Dir} {x : Ptr × ℕ} {t : τ}
    (h : (conv k nested va fuel ch d).run s = .ok (x, t)) (hs : size t ≤ size s) :
    ch = chr 's' ∧ x = (d.fmt, d.ap + 1) ∧ (convString k fuel d (va.str d.ap)).run s = .ok ((), t) := by
  by_cases hchar : ch = chr 's'
  · subst hchar
    rw [conv, if_neg (by decide), if_neg (by decide), if_pos rfl] at h
    obtain ⟨a, u, hu, h1⟩ := Prog.bind_ok.1 h
    obtain ⟨rfl, rfl⟩ := Prod.mk.inj (Prog.pure_ok.1 h1)
    exact ⟨rfl, rfl, hu⟩
  · have hpure : ∀ y : Ptr × ℕ, Feeds k (pure y : M τ (Ptr × ℕ)) := feeds_pure
    have hnumber : ∀ base num, Loud size (printnum k base d.padc fuel num d.width) := fun base num =>
      loud_printnum hc base d.padc fuel num d.width
    have hloud : Loud size (conv k nested va fuel ch d) := by
      rw [conv, if_neg hchar]
      split_ifs
      · exact (loud_emit hc _).bind hc fun _ => hpure _
      · exact (loud_convError hn _).bind hc fun _ => hpure _
      · refine Loud.bind ?_ hc fun _ => hpure _
        rw [convInt]
        split_ifs
        · exact (feeds_emit _).bind_loud hc fun _ => hnumber 10 _
        · exact hnumber 10 _
      · exact (hnumber 10 _).bind hc fun _ => hpure _
      · exact (hnumber 8 _).bind hc fun _ => hpure _
      · exact (feeds_emit _).bind_loud hc fun _ => (feeds_emit _).bind_loud hc fun _ =>
          (hnumber 16 _).bind hc fun _ => hpure _
      · exact (hnumber 16 _).bind hc fun _ => hpure _
      · exact (loud_emit hc _).bind hc fun _ => hpure _
      · refine (loud_emit hc _).bind hc ?_
        intro _
        exact (feeds_scan fun r => backscan r fuel d.fmt.prev).bind fun _ => hpure _
    exact absurd (hloud s x t h) (not_lt.2 hs)

end Conversions

/-- **What prints nothing is silent.** -/
theorem silent_of_quiet (hc : Counts k size) (fuel : ℕ) {fmt : Ptr} {va : VaList} {ap : ℕ} {t : τ}
    (h : (vprintfmt k fuel fmt va ap).run s = .ok ((), t)) (hs : size t ≤ size s) :
    Silent (k.reader s) va fmt ap := by
  induction fuel generalizing fmt va ap s t with
  | zero => exact absurd h Prog.throw_ok
  | succ fuel ih =>
    rw [vprintfmt] at h
    obtain ⟨ch, u, hu, h1⟩ := Prog.bind_ok.1 h
    obtain ⟨hch, rfl⟩ := scan_ok hu
    clear h hu
    rw [get_ok_iff] at hch
    by_cases hpct : ch = chr '%'
    · rw [if_pos hpct] at h1
      obtain ⟨⟨c, d⟩, v, hv, h2⟩ := Prog.bind_ok.1 h1
      obtain ⟨hd, rfl⟩ := scan_ok hv
      obtain ⟨x, w, hw, h3⟩ := Prog.bind_ok.1 h2
      have hwt := (vprintfmt_feeds fuel x.1 va x.2).le hc h3
      have hvw := (feeds_conv va fuel c d).le hc hw
      obtain ⟨rfl, rfl, hstring⟩ := conv_quiet (fun fmt va s t hrun hle => ih hrun hle) hc hw (by omega)
      obtain rfl := (feeds_conv va fuel (chr 's') d).quiet hc hw (by omega)
      obtain ⟨hwidth, c', hread, h0⟩ := convString_quiet hc hstring (le_refl _)
      exact Silent.str (hpct ▸ hch) hd hwidth hread h0 (ih h3 (by omega))
    · rw [if_neg hpct] at h1
      by_cases h0 : ch = 0#8
      · exact Silent.done (h0 ▸ hch)
      · rw [if_neg h0] at h1
        have hloud := (loud_emit hc (int ch)).bind hc fun _ => vprintfmt_feeds fuel fmt.next va ap
        exact absurd (hloud u () t h1) (not_lt.2 hs)

end Silence

/-! ## cprintf -/

section Count

variable {m : Bytes} {fmt : Ptr} {va : VaList}

theorem cprintf_reader (s : Cprintf) : cprintfSink.reader s = Bytes.reader s.mem := by
  funext p
  cases p <;> rfl

theorem sprint_reader (b : Sprintbuf) : sprintSink.reader b = Bytes.reader b.mem := by
  funext p
  cases p <;> rfl

theorem feed_cprintf (s : Cprintf) (cs : List Word) : feed cprintfSink s cs = { s with out := s.out ++ cs } := by
  induction cs generalizing s with
  | nil => rw [List.append_nil]; rfl
  | cons c cs ih =>
    change feed cprintfSink (putch c s) cs = _
    rw [ih, putch, List.append_assoc]
    rfl

theorem cprintf_counts : Counts cprintfSink fun s => s.out.length := fun c s => by
  change (s.out ++ [c]).length = _
  rw [List.length_append, List.length_singleton]

theorem vcprintf_ok {fuel : ℕ} {ret : Word} {s : Cprintf} : vcprintf fuel fmt va m = .ok (ret, s) ↔
    (vprintfmt cprintfSink fuel fmt va 0).run { mem := m, cnt := 0#32, out := [] } = .ok ((), s) ∧ ret = s.cnt := by
  rw [vcprintf, Prog.except_bind_ok]
  constructor
  · rintro ⟨⟨u, t⟩, hrun, h⟩
    obtain ⟨rfl, rfl⟩ := Prod.mk.inj (Except.ok.inj h)
    exact ⟨hrun, rfl⟩
  · rintro ⟨hrun, rfl⟩
    exact ⟨((), s), hrun, rfl⟩

/-- the counter stays 0 -/
theorem vcprintf_zero {fuel : ℕ} {ret : Word} {s : Cprintf} (h : vcprintf fuel fmt va m = .ok (ret, s)) : ret = 0#32 := by
  obtain ⟨hrun, rfl⟩ := vcprintf_ok.1 h
  obtain ⟨cs, rfl⟩ := vprintfmt_feeds fuel fmt va 0 _ _ _ hrun
  rw [feed_cprintf]

theorem Buffer.not_small {buf n : Word} (h : Buffer buf n) : ¬ (buf = 0#32 ∨ n.slt 1#32 = true) := by
  rintro (h0 | hlt)
  · exact h.ne h0
  · rw [BitVec.slt_eq_decide, decide_eq_true_iff] at hlt
    exact absurd h.pos (not_le.2 hlt)

theorem vsnprintf_ok {buf n : Word} (hb : Buffer buf n) {fuel : ℕ} {ret : Word} {b : Sprintbuf} :
    vsnprintf fuel buf n fmt va m = .ok (ret, b) ↔
      ∃ c, (vprintfmt sprintSink fuel fmt va 0).run (sprintStart buf n m) = .ok ((), c) ∧ ret = c.cnt ∧
        b = { c with mem := Function.update c.mem c.buf 0#8 } := by
  rw [vsnprintf, if_neg hb.not_small, Prog.except_bind_ok]
  constructor
  · rintro ⟨⟨u, c⟩, hrun, h⟩
    obtain ⟨rfl, rfl⟩ := Prod.mk.inj (Except.ok.inj h)
    exact ⟨c, hrun, rfl, rfl⟩
  · rintro ⟨c, hrun, rfl, rfl⟩
    exact ⟨((), c), hrun, rfl⟩

/-- vcprintf returns the number of characters it has passed to cputchar, and vsnprintf returns the same for every buffer -/
def FrontsAgree (m : Bytes) (fmt : Ptr) (va : VaList) : Prop :=
  ∃ fuel ret s, vcprintf fuel fmt va m = .ok (ret, s) ∧ ret.toInt = s.out.length ∧
    ∀ buf n, Buffer buf n → ∃ fuel ret' b, vsnprintf fuel buf n fmt va m = .ok (ret', b) ∧ ret' = ret

theorem frontsAgree_of_silent (h : Silent (Bytes.reader m) va fmt 0) : FrontsAgree m fmt va := by
  obtain ⟨N, hN⟩ := h.run (k := cprintfSink)
  obtain ⟨N', hN'⟩ := h.run (k := sprintSink)
  have hrun := hN N (le_refl _) { mem := m, cnt := 0#32, out := [] } (cprintf_reader _)
  refine ⟨N, 0#32, _, vcprintf_ok.2 ⟨hrun, rfl⟩, rfl, fun buf n hb => ?_⟩
  have hrun' := hN' N' (le_refl _) (sprintStart buf n m) (sprint_reader _)
  exact ⟨N', 0#32, _, (vsnprintf_ok hb).2 ⟨_, hrun', rfl, rfl⟩, rfl⟩

/-- **cprintf returns the number of characters printed exactly if it prints none.** -/
theorem fronts_agree (m : Bytes) (fmt : Ptr) (va : VaList) :
    FrontsAgree m fmt va ↔ Silent (Bytes.reader m) va fmt 0 := by
  refine ⟨?_, frontsAgree_of_silent⟩
  rintro ⟨fuel, ret, s, h, hret, -⟩
  obtain rfl := vcprintf_zero h
  have hnone : s.out.length = 0 := by
    have hzero : (0#32 : Word).toInt = 0 := rfl
    rw [hzero] at hret
    exact_mod_cast hret.symm
  have hsilent := silent_of_quiet cprintf_counts fuel (vcprintf_ok.1 h).1 (le_of_eq hnone)
  rwa [cprintf_reader] at hsilent

/-- cprintf("a") prints one character and returns 0; snprintf returns 1 -/
theorem fronts_differ : ∃ s b, vcprintf 3 (.lit (str "a") 0) (VaList.ofWords fun _ => 0#32) (fun _ => 0#8) = .ok (0#32, s) ∧
    s.out = [int (chr 'a')] ∧
    vsnprintf 3 0x1000#32 16#32 (.lit (str "a") 0) (VaList.ofWords fun _ => 0#32) (fun _ => 0#8) = .ok (1#32, b) :=
  ⟨_, _, rfl, rfl, rfl⟩

end Count

/-! ## snprintf -/

/-- how many of the characters fit, with room for the NUL -/
def kept (n : Word) (out : List Word) : ℕ := min out.length (n.toNat - 1)

/-- the buffer while it is filled: as many of the characters as fit, and nothing else written -/
structure Filled (m : Bytes) (buf n : Word) (b : Sprintbuf) : Prop where
  count : b.cnt = BitVec.ofNat 32 b.out.length
  next : b.buf = buf + BitVec.ofNat 32 (kept n b.out)
  last : b.ebuf = buf + n - 1#32
  bytes : ∀ i < kept n b.out, b.mem (buf + BitVec.ofNat 32 i) = (b.out.getD i 0#32).setWidth 8
  rest : ∀ a, (∀ i < kept n b.out, a ≠ buf + BitVec.ofNat 32 i) → b.mem a = m a

section Snprintf

variable {m : Bytes} {buf n : Word} {fmt : Ptr} {va : VaList}

theorem Buffer.size_pos (h : Buffer buf n) : 0 < n.toNat := by
  have hpos := h.pos
  rw [BitVec.toInt_eq_toNat_cond] at hpos
  split_ifs at hpos
  all_goals omega

theorem Buffer.byte_toNat (h : Buffer buf n) {i : ℕ} (hi : i < n.toNat) :
    (buf + BitVec.ofNat 32 i).toNat = buf.toNat + i := by
  have hfits := h.fits
  rw [BitVec.toNat_add, BitVec.toNat_ofNat]
  omega

theorem Buffer.byte_inj (h : Buffer buf n) {i j : ℕ} (hi : i < n.toNat) (hj : j < n.toNat)
    (heq : buf + BitVec.ofNat 32 i = buf + BitVec.ofNat 32 j) : i = j := by
  have := congrArg BitVec.toNat heq
  rw [h.byte_toNat hi, h.byte_toNat hj] at this
  omega

theorem Buffer.end_toNat (h : Buffer buf n) : (buf + n - 1#32).toNat = buf.toNat + (n.toNat - 1) := by
  have hpos := h.size_pos
  have hlast := h.byte_toNat (i := n.toNat - 1) (by omega)
  rw [← hlast]
  congr 1
  apply BitVec.eq_of_toNat_eq
  have hfits := h.fits
  rw [hlast, BitVec.toNat_sub, BitVec.toNat_add]
  simp
  omega

theorem Filled.start : Filled m buf n (sprintStart buf n m) where
  count := rfl
  next := by
    rw [kept, sprintStart]
    simp
  last := rfl
  bytes i hi := absurd hi (by rw [kept, sprintStart]; simp)
  rest a _ := rfl

/-- one call of sprintputch -/
theorem Filled.putch (hb : Buffer buf n) {b : Sprintbuf} (h : Filled m buf n b) (c : Word) :
    Filled m buf n (sprintputch c b) := by
  obtain ⟨hcnt, hbuf, hebuf, hbytes, hrest⟩ := h
  have hpos := hb.size_pos
  have hkept : kept n b.out < n.toNat := lt_of_le_of_lt (min_le_right _ _) (by omega)
  have hcnt' : b.cnt + 1#32 = BitVec.ofNat 32 (b.out ++ [c]).length := by
    rw [hcnt, List.length_append, List.length_singleton, BitVec.ofNat_add]
  have hget : ∀ i < b.out.length, (b.out ++ [c]).getD i 0#32 = b.out.getD i 0#32 := fun i hi => by
    rw [List.getD_eq_getElem?_getD, List.getElem?_append_left hi, List.getD_eq_getElem?_getD]
  have hlt : b.buf < b.ebuf ↔ b.out.length < n.toNat - 1 := by
    rw [BitVec.lt_def, hbuf, hebuf, hb.byte_toNat hkept, hb.end_toNat, kept]
    omega
  rw [sprintputch]
  by_cases hroom : b.out.length < n.toNat - 1
  · -- the character goes to the first free byte
    have hk : kept n b.out = b.out.length := min_eq_left (le_of_lt hroom)
    have hk' : kept n (b.out ++ [c]) = b.out.length + 1 := by
      rw [kept, List.length_append, List.length_singleton]
      exact min_eq_left hroom
    rw [hk] at hbuf hbytes hrest
    simp only [if_pos (hlt.2 hroom)]
    refine ⟨hcnt', ?_, hebuf, ?_, ?_⟩
    · simp only
      rw [hk', hbuf, BitVec.add_assoc, ← BitVec.ofNat_add]
    · intro i hi
      simp only at hi ⊢
      rw [hk'] at hi
      rcases Nat.lt_succ_iff_lt_or_eq.1 hi with hi | rfl
      · have hne : buf + BitVec.ofNat 32 i ≠ b.buf := by
          rw [hbuf]
          exact fun heq => absurd (hb.byte_inj (by omega) (by omega) heq) (Nat.ne_of_lt hi)
        rw [Function.update_of_ne hne, hbytes i hi, hget i hi]
      · rw [← hbuf, Function.update_self, List.getD_eq_getElem?_getD, List.getElem?_concat_length]
        rfl
    · intro a ha
      simp only at ha ⊢
      rw [hk'] at ha
      have hne : a ≠ b.buf := by
        rw [hbuf]
        exact ha _ (Nat.lt_succ_self _)
      rw [Function.update_of_ne hne]
      exact hrest a fun i hi => ha i (Nat.lt_succ_of_lt hi)
  · have hk : kept n b.out = n.toNat - 1 := min_eq_right (not_lt.1 hroom)
    have hk' : kept n (b.out ++ [c]) = n.toNat - 1 := by
      rw [kept, List.length_append]
      exact min_eq_right (le_trans (not_lt.1 hroom) (Nat.le_add_right _ _))
    simp only [if_neg fun h => hroom (hlt.1 h)]
    refine ⟨hcnt', ?_, hebuf, ?_, ?_⟩
    · simp only
      rw [hk', ← hk]
      exact hbuf
    · intro i hi
      simp only at hi ⊢
      rw [hk', ← hk] at hi
      rw [hbytes i hi, hget i (lt_of_lt_of_le hi (min_le_left _ _))]
    · intro a ha
      simp only at ha ⊢
      rw [hk', ← hk] at ha
      exact hrest a ha

theorem Filled.feed (hb : Buffer buf n) {b : Sprintbuf} (h : Filled m buf n b) (cs : List Word) :
    Filled m buf n (feed sprintSink b cs) := by
  induction cs generalizing b with
  | nil => exact h
  | cons c cs ih => exact ih (h.putch hb c)

/-- **snprintf is a truncating view of the output.** The characters are those sprintputch has been called with; the
buffer has as many of them as fit and a NUL, no other byte is written, and the number returned is their number as an
int, so that up to 2^31 - 1 characters it is at least n exactly if output was cut. -/
theorem vsnprintf_truncates (m : Bytes) (buf n : Word) (hb : Buffer buf n) (fuel : ℕ) (fmt : Ptr) (va : VaList)
    (ret : Word) (b : Sprintbuf) (h : vsnprintf fuel buf n fmt va m = .ok (ret, b)) :
    (∀ i < kept n b.out, b.mem (buf + BitVec.ofNat 32 i) = (b.out.getD i 0#32).setWidth 8) ∧
    b.mem (buf + BitVec.ofNat 32 (kept n b.out)) = 0#8 ∧
    (∀ a, (∀ i ≤ kept n b.out, a ≠ buf + BitVec.ofNat 32 i) → b.mem a = m a) ∧
    ret = BitVec.ofNat 32 b.out.length ∧
    (b.out.length < 2 ^ 31 → ret.toInt = b.out.length ∧ (n.toInt ≤ ret.toInt ↔ kept n b.out < b.out.length)) := by
  obtain ⟨c, hrun, rfl, rfl⟩ := (vsnprintf_ok hb).1 h
  obtain ⟨cs, rfl⟩ := vprintfmt_feeds fuel fmt va 0 _ _ _ hrun
  have hfilled : Filled m buf n (feed sprintSink (sprintStart buf n m) cs) := Filled.start.feed hb cs
  obtain ⟨hcnt, hbuf, -, hbytes, hrest⟩ := hfilled
  have hpos := hb.size_pos
  have hkept : ∀ l, kept n l < n.toNat := fun l => lt_of_le_of_lt (min_le_right _ _) (by omega)
  refine ⟨?_, ?_, ?_, hcnt, ?_⟩
  · intro i hi
    have hne : buf + BitVec.ofNat 32 i ≠ (feed sprintSink (sprintStart buf n m) cs).buf := by
      rw [hbuf]
      exact fun heq => absurd (hb.byte_inj (lt_trans hi (hkept _)) (hkept _) heq) (Nat.ne_of_lt hi)
    exact (Function.update_of_ne hne _ _).trans (hbytes i hi)
  · simp only
    rw [hbuf, Function.update_self]
  · intro a ha
    have hne : a ≠ (feed sprintSink (sprintStart buf n m) cs).buf := by
      rw [hbuf]
      exact ha _ (le_refl _)
    exact (Function.update_of_ne hne _ _).trans (hrest a fun i hi => ha i (le_of_lt hi))
  · intro hsmall
    simp only at hsmall ⊢
    rw [hcnt]
    have hn : n.toInt = n.toNat := by
      have := hb.pos
      rw [BitVec.toInt_eq_toNat_cond] at this ⊢
      split_ifs at this ⊢
      · rfl
      · omega
    have hret : (BitVec.ofNat 32 (feed sprintSink (sprintStart buf n m) cs).out.length).toInt =
        (feed sprintSink (sprintStart buf n m) cs).out.length := by
      rw [BitVec.toInt_eq_toNat_cond, BitVec.toNat_ofNat]
      split_ifs
      all_goals omega
    rw [hret, hn, kept]
    refine ⟨rfl, ?_⟩
    rw [Nat.cast_le, min_lt_iff]
    omega

/-- "ab" does not fit into two bytes -/
theorem vsnprintf_truncates_ab : Buffer 0x1000#32 2#32 ∧
    ∃ ret b, vsnprintf 4 0x1000#32 2#32 (.lit (str "ab") 0) (VaList.ofWords fun _ => 0#32) (fun _ => 0#8) = .ok (ret, b) ∧
      ret = BitVec.ofNat 32 b.out.length := by
  have hb : Buffer 0x1000#32 2#32 := ⟨by decide, by decide, by decide⟩
  obtain ⟨⟨ret, b⟩, h⟩ : ∃ x, vsnprintf 4 0x1000#32 2#32 (.lit (str "ab") 0) (VaList.ofWords fun _ => 0#32)
    (fun _ => 0#8) = .ok x := ⟨_, rfl⟩
  exact ⟨hb, ret, b, h, (vsnprintf_truncates _ _ _ hb 4 _ _ ret b h).2.2.2.1⟩

/-- cprintf where a read from the buffer is a fault -/
def offBuffer (buf n : Word) : Sink Cprintf :=
  { cprintfSink with read := fun s a => if (a - buf).toNat < n.toNat then none else some (s.mem a) }

theorem alike_fronts (hb : Buffer buf n) :
    Alike (offBuffer buf n) sprintSink fun s b => s.mem = m ∧ s.out = b.out ∧ Filled m buf n b where
  read s b h a v hv := by
    obtain ⟨hm, -, hf⟩ := h
    change (if (a - buf).toNat < n.toNat then none else some (s.mem a)) = some v at hv
    split_ifs at hv with hin
    -- what the buffer has got is not read
    have hpos := hb.size_pos
    have hmem : b.mem a = m a := hf.rest a fun i hi heq => hin (by
      have hlt : i < n.toNat := lt_of_lt_of_le hi (le_trans (min_le_right _ _) (Nat.sub_le _ _))
      rw [heq, BitVec.add_comm, BitVec.add_sub_cancel, BitVec.toNat_ofNat]
      exact lt_of_le_of_lt (Nat.mod_le _ _) hlt)
    rw [hm] at hv
    change some (b.mem a) = some v
    rw [hmem]
    exact hv
  putch c s b h := by
    obtain ⟨hm, hout, hf⟩ := h
    refine ⟨hm, ?_, hf.putch hb c⟩
    change s.out ++ [c] = (sprintputch c b).out
    rw [hout, sprintputch]
    split_ifs <;> rfl

/-- **One stream.** If the formatter reads nothing from the buffer, what cprintf prints is what snprintf counts. -/
theorem same_stream (hb : Buffer buf n) {fuel : ℕ} {s : Cprintf}
    (h : (vprintfmt (offBuffer buf n) fuel fmt va 0).run { mem := m, cnt := 0#32, out := [] } = .ok ((), s)) :
    vcprintf fuel fmt va m = .ok (0#32, s) ∧
      ∃ b, vsnprintf fuel buf n fmt va m = .ok (BitVec.ofNat 32 s.out.length, b) ∧ b.out = s.out := by
  have hsame : Alike (offBuffer buf n) cprintfSink fun s t => s = t := by
    refine ⟨fun s t hst a v hv => ?_, fun c s t hst => by rw [hst]; rfl⟩
    change (if (a - buf).toNat < n.toNat then none else some (s.mem a)) = some v at hv
    split_ifs at hv
    rw [← hst]
    exact hv
  obtain ⟨t, ht, rfl⟩ := sim_vprintfmt hsame fuel fmt va 0 _ _ rfl _ _ h
  have hv : vcprintf fuel fmt va m = .ok (s.cnt, s) := vcprintf_ok.2 ⟨ht, rfl⟩
  have hcnt := vcprintf_zero hv
  obtain ⟨c, hc, -, hout, hf⟩ := sim_vprintfmt (alike_fronts hb) fuel fmt va 0 _ (sprintStart buf n m)
    ⟨rfl, rfl, Filled.start⟩ _ _ h
  refine ⟨hcnt ▸ hv, _, (vsnprintf_ok hb).2 ⟨c, hc, ?_, rfl⟩, hout.symm⟩
  rw [hf.count, hout]

end Snprintf

/-! ## Counting past the largest int -/

section Wide

variable {τ : Type} {k : Sink τ}

theorem run_emit (s : τ) (c : Word) : (emit k c).run s = .ok ((), k.putch c s) := rfl

theorem feed_replicate_succ (s : τ) (c : Word) (n : ℕ) :
    feed k s (List.replicate (n + 1) c) = feed k (k.putch c s) (List.replicate n c) := rfl

theorem run_padLoop (c : Word) {n : ℕ} (hn : n < 2 ^ 31) {fuel : ℕ} (hf : n < fuel) (s : τ) :
    (padLoop k c fuel (BitVec.ofNat 32 n)).run s = .ok (0#32, feed k s (List.replicate n c)) := by
  induction n generalizing fuel s with
  | zero =>
    obtain ⟨fuel, rfl⟩ : ∃ f, fuel = f + 1 := ⟨fuel - 1, by omega⟩
    exact run_padLoop_none (by decide)
  | succ n ih =>
    obtain ⟨fuel, rfl⟩ : ∃ f, fuel = f + 1 := ⟨fuel - 1, by omega⟩
    have hslt : (0#32).slt (BitVec.ofNat 32 (n + 1)) = true := by
      have hint : (BitVec.ofNat 32 (n + 1)).toInt = n + 1 := by
        rw [BitVec.toInt_eq_toNat_cond, BitVec.toNat_ofNat, Nat.mod_eq_of_lt (by omega), if_pos (by omega)]
        rfl
      rw [BitVec.slt_eq_decide, decide_eq_true_iff, hint]
      exact Int.natCast_succ_pos n
    have hpred : BitVec.ofNat 32 (n + 1) - 1#32 = BitVec.ofNat 32 n := by
      rw [BitVec.ofNat_add, BitVec.add_sub_cancel]
    rw [padLoop, if_pos hslt, Prog.run_bind (run_emit s c), hpred, feed_replicate_succ]
    exact ih (by omega) (by omega) _

/-- `%*d!` with a width of n and 0: n - 1 spaces, the digit and '!' -/
def wideArgs (n : ℕ) : VaList := VaList.ofWords fun i => if i = 0 then BitVec.ofNat 32 n else 0#32

theorem run_wide {n : ℕ} (h0 : 0 < n) (hn : n < 2 ^ 31) (s : τ) :
    (vprintfmt k (n + 5) (.lit (str "%*d!") 0) (wideArgs n) 0).run s =
      .ok ((), feed k s (List.replicate (n - 1) (int (chr ' ')) ++ [int (chr '0'), int (chr '!')])) := by
  have hscan : reswitch (k.reader s) (wideArgs n) (n + 4) (Dir.start (.lit (str "%*d!") 1) 0) =
      .ok (chr 'd', { Dir.start (.lit (str "%*d!") 3) 1 with width := BitVec.ofNat 32 n }) := rfl
  have hnum : (printnum k 10 (int (chr ' ')) (n + 4) 0 (BitVec.ofNat 32 n)).run s =
      .ok ((), k.putch (int (chr '0')) (feed k s (List.replicate (n - 1) (int (chr ' '))))) := by
    have hpred : BitVec.ofNat 32 n - 1#32 = BitVec.ofNat 32 (n - 1) := by
      obtain ⟨j, rfl⟩ : ∃ j, n = j + 1 := ⟨n - 1, by omega⟩
      rw [BitVec.ofNat_add, BitVec.add_sub_cancel, Nat.add_sub_cancel]
    rw [printnum, if_neg (by decide), hpred, Prog.run_bind (run_padLoop _ (by omega) (by omega) s)]
    rfl
  have hconv : (conv k (fun fmt va => vprintfmt k (n + 4) fmt va 0) (wideArgs n) (n + 4) (chr 'd')
      { Dir.start (.lit (str "%*d!") 3) 1 with width := BitVec.ofNat 32 n }).run s =
      .ok ((.lit (str "%*d!") 3, 2), k.putch (int (chr '0')) (feed k s (List.replicate (n - 1) (int (chr ' '))))) := by
    rw [conv, if_neg (by decide), if_neg (by decide), if_neg (by decide), if_pos rfl]
    exact Prog.run_bind hnum
  have hpct : (scan k (·.get (.lit (str "%*d!") 0))).run s = .ok (chr '%', s) := run_scan rfl
  rw [vprintfmt, Prog.run_bind hpct, if_pos rfl, Prog.run_bind (run_scan hscan), Prog.run_bind hconv, feed_append]
  rfl

theorem sprint_counts : Counts sprintSink fun b => b.out.length := fun c b => by
  change (sprintputch c b).out.length = _
  rw [sprintputch]
  split_ifs <;> exact List.length_append

/-- a width of 2^31 - 1 and one more character: the count is the smallest int -/
theorem vsnprintf_count_wraps : ∃ fuel ret b,
    vsnprintf fuel 0x1000#32 16#32 (.lit (str "%*d!") 0) (wideArgs (2 ^ 31 - 1)) (fun _ => 0#8) = .ok (ret, b) ∧
      b.out.length = 2 ^ 31 ∧ ret.toInt = -2 ^ 31 := by
  have hb : Buffer 0x1000#32 16#32 := ⟨by decide, by decide, by decide⟩
  have hlen : ∀ n, 0 < n → (feed sprintSink (sprintStart 0x1000#32 16#32 fun _ => 0#8)
      (List.replicate (n - 1) (int (chr ' ')) ++ [int (chr '0'), int (chr '!')])).out.length = n + 1 := by
    intro n hn
    rw [sprint_counts.feed, List.length_append, List.length_replicate]
    simp [sprintStart]
    omega
  have hrun : ∀ n, 0 < n → n < 2 ^ 31 → ∃ fuel ret b,
      vsnprintf fuel 0x1000#32 16#32 (.lit (str "%*d!") 0) (wideArgs n) (fun _ => 0#8) = .ok (ret, b) ∧
        b.out.length = n + 1 ∧ ret = BitVec.ofNat 32 (n + 1) := by
    intro n h0 hn
    refine ⟨n + 5, _, _, (vsnprintf_ok hb).2 ⟨_, run_wide h0 hn _, rfl, rfl⟩, hlen n h0, ?_⟩
    rw [(Filled.start.feed hb _).count, hlen n h0]
  obtain ⟨fuel, ret, b, h, hout, rfl⟩ := hrun (2 ^ 31 - 1) (by decide) (by decide)
  exact ⟨fuel, _, b, h, hout, by decide⟩

end Wide

end Jos
