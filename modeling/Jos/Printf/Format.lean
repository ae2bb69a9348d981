/-
The formatter (lib/printfmt.c): printnum, vprintfmt and printfmt, over any output function.

A `Sink` is what the formatter is called with: the memory it reads the format and the strings from, and putch. The
characters go out one by one, so a sink may change the memory that is read next. A string literal of the source is a
pointer of its own kind; the va_list is its 4-byte slots. `fuel` bounds the rounds of every loop: a run that returns does
not depend on it. The scanning of a directive (the reswitch loop) reads and never puts out a character, and is a function
of the memory. Results:
- `sim_vprintfmt`: two sinks that read alike and keep a relation between their states keep it over any run;
- `vprintfmt_feeds`: what a run does to the sink is what putch does with a list of characters.
-/
import Jos.Lib.Sim
import Jos.Mmu

namespace Jos

open Jos.Lib

def chr (c : Char) : Byte := BitVec.ofNat 8 c.toNat
def str (s : String) : List Byte := s.toList.map chr

/-- a character as the int that putch takes -/
def int (c : Byte) : Word := c.setWidth 32

/-! ## Pointers and arguments -/

inductive Ptr where
  | mem (a : Word)
  /-- byte i of a string literal -/
  | lit (s : List Byte) (i : ℕ)
deriving DecidableEq, Repr

namespace Ptr

def null : Ptr := .mem 0#32

def next : Ptr → Ptr
  | .mem a => .mem (a + 1#32)
  | .lit s i => .lit s (i + 1)

def prev : Ptr → Ptr
  | .mem a => .mem (a - 1#32)
  | .lit s i => .lit s (i - 1)

end Ptr

/-- the slots of a va_list, each as an int and as a `char *` -/
structure VaList where
  word : ℕ → Word
  str : ℕ → Ptr

/-- the arguments that a caller has pushed -/
def VaList.ofWords (w : ℕ → Word) : VaList := ⟨w, fun i => .mem (w i)⟩

abbrev Reader := Ptr → Option Byte

def Reader.get (r : Reader) (p : Ptr) : Except Stop Byte :=
  match r p with
  | some b => .ok b
  | none => .error .fault

/-! ## Scanning -/

/-- `size_t` strnlen(s, size) of lib/string.c; n is the count so far -/
def strnlen (r : Reader) : ℕ → Ptr → Word → Word → Except Stop Word
  | 0, _, _, _ => .error .steps
  | fuel + 1, s, size, n => do
    if size = 0#32 then
      return n
    if (← r.get s) = 0#8 then
      return n
    strnlen r fuel s.next (size - 1#32) (n + 1#32)

structure Dir where
  fmt : Ptr
  /-- the next argument -/
  ap : ℕ
  padc : Word
  width : Word
  precision : Word
  lflag : Word
  altflag : Bool

def Dir.start (fmt : Ptr) (ap : ℕ) : Dir where
  fmt := fmt
  ap := ap
  padc := int (chr ' ')
  width := -1#32
  precision := -1#32
  lflag := 0#32
  altflag := false

/-- process_precision -/
def Dir.processPrecision (d : Dir) (precision : Word) : Dir :=
  if d.width.slt 0#32 then { d with width := precision, precision := -1#32 } else { d with precision := precision }

/-- `for (precision = 0; ; ++fmt)` -/
def digits (r : Reader) : ℕ → Byte → Word → Ptr → Except Stop (Word × Ptr)
  | 0, _, _, _ => .error .steps
  | fuel + 1, ch, precision, fmt => do
    let precision := precision * 10#32 + int ch - int (chr '0')
    let ch ← r.get fmt
    if ch < chr '0' ∨ chr '9' < ch then
      return (precision, fmt)
    digits r fuel ch precision fmt.next

/-- from reswitch to the character that is no flag, width or precision -/
def reswitch (r : Reader) (va : VaList) : ℕ → Dir → Except Stop (Byte × Dir)
  | 0, _ => .error .steps
  | fuel + 1, d => do
    let ch ← r.get d.fmt
    let d := { d with fmt := d.fmt.next }
    if ch = chr '-' then reswitch r va fuel { d with padc := int (chr '-') }
    else if ch = chr '0' then reswitch r va fuel { d with padc := int (chr '0') }
    else if chr '1' ≤ ch ∧ ch ≤ chr '9' then do
      let (precision, fmt) ← digits r fuel ch 0#32 d.fmt
      reswitch r va fuel ({ d with fmt := fmt }.processPrecision precision)
    else if ch = chr '*' then reswitch r va fuel ({ d with ap := d.ap + 1 }.processPrecision (va.word d.ap))
    else if ch = chr '.' then reswitch r va fuel (if d.width.slt 0#32 then { d with width := 0#32 } else d)
    else if ch = chr '#' then reswitch r va fuel { d with altflag := true }
    else if ch = chr 'l' then reswitch r va fuel { d with lflag := d.lflag + 1#32 }
    else return (ch, d)

/-- `for (fmt--; fmt[-1] != '%'; fmt--)`, after the first `fmt--` -/
def backscan (r : Reader) : ℕ → Ptr → Except Stop Ptr
  | 0, _ => .error .steps
  | fuel + 1, fmt => do
    if (← r.get fmt.prev) = chr '%' then
      return fmt
    backscan r fuel fmt.prev

def getuint (va : VaList) (ap : ℕ) (lflag : Word) : BitVec 64 × ℕ :=
  if (1#32).slt lflag then (va.word (ap + 1) ++ va.word ap, ap + 2) else ((va.word ap).setWidth 64, ap + 1)

def getint (va : VaList) (ap : ℕ) (lflag : Word) : BitVec 64 × ℕ :=
  if (1#32).slt lflag then (va.word (ap + 1) ++ va.word ap, ap + 2) else ((va.word ap).signExtend 64, ap + 1)

/-! ## inc/error.h -/

def maxerror : Word := 7

/-- error_string, none where it has NULL -/
def errorString (err : ℕ) : Option (List Byte) :=
  [none, some (str "unspecified error"), some (str "bad environment"), some (str "invalid parameter"),
    some (str "out of memory"), some (str "out of environments"), some (str "segmentation fault")].getD err none

/-! ## Output -/

structure Sink (τ : Type) where
  /-- memory, none where it cannot be read -/
  read : τ → Word → Option Byte
  putch : Word → τ → τ

/-- a literal ends with a NUL -/
def litByte (l : List Byte) (i : ℕ) : Option Byte := (l ++ [0#8])[i]?

/-- what the formatter can read -/
def Sink.reader {τ : Type} (k : Sink τ) (s : τ) : Reader
  | .mem a => k.read s a
  | .lit l i => litByte l i

/-- the sink after the characters cs -/
def feed {τ : Type} (k : Sink τ) (s : τ) (cs : List Word) : τ := cs.foldl (fun s c => k.putch c s) s

abbrev M (τ : Type) := StateT τ (Except Stop)

section Engine

variable {τ : Type} (k : Sink τ)

def emit (c : Word) : M τ Unit := modify (k.putch c)

/-- a part that only reads -/
def scan {α : Type} (f : Reader → Except Stop α) : M τ α := do StateT.lift (f (k.reader (← get)))

/-- `for (; width > 0; width--) putch(c)`; the result is the width after it -/
def padLoop (c : Word) : ℕ → Word → M τ Word
  | 0, _ => throw .steps
  | fuel + 1, width => do
    if (0#32).slt width then do
      emit k c
      padLoop c fuel (width - 1#32)
    else return width

def digitChar (i : ℕ) : Word := int ((str "0123456789abcdef").getD i 0#8)

def printnum (base : ℕ) (padc : Word) : ℕ → ℕ → Word → M τ Unit
  | 0, _, _ => throw .steps
  | fuel + 1, num, width => do
    if base ≤ num then printnum base padc fuel (num / base) (width - 1#32)
    else do
      let _ ← padLoop k padc fuel (width - 1#32)
    emit k (digitChar (num % base))

/-- the character that `%s` puts out for c; char is signed -/
def shown (altflag : Bool) (c : Byte) : Word :=
  let ch : Word := c.signExtend 32
  if altflag ∧ (ch.slt (int (chr ' ')) ∨ (int (chr '~')).slt ch) then int (chr '?') else ch

/-- `precision < 0 || --precision >= 0` -/
def allowed (precision : Word) : Bool := precision.slt 0#32 || !(precision - 1#32).slt 0#32

/-- precision after that test -/
def counted (precision : Word) : Word := if precision.slt 0#32 then precision else precision - 1#32

/-- `for (; (ch = *p++) != '\0' && (precision < 0 || --precision >= 0); width--)`; the result is the width after it -/
def putString (altflag : Bool) : ℕ → Ptr → Word → Word → M τ Word
  | 0, _, _, _ => throw .steps
  | fuel + 1, p, precision, width => do
    let c ← scan k (·.get p)
    if c = 0#8 then return width
    else if allowed precision then do
      emit k (shown altflag c)
      putString altflag fuel p.next (counted precision) (width - 1#32)
    else return width

/-- `if (width > 0 && padc != '-')`; the result is the width after it -/
def padString (fuel : ℕ) (d : Dir) (p : Ptr) : M τ Word :=
  if (0#32).slt d.width ∧ d.padc ≠ int (chr '-') then do
    padLoop k d.padc fuel (d.width - (← scan k fun r => strnlen r fuel p d.precision 0#32))
  else return d.width

/-- the string a `%s` prints -/
def strArg (p : Ptr) : Ptr := if p = Ptr.null then .lit (str "(null)") 0 else p

/-- case 's' -/
def convString (fuel : ℕ) (d : Dir) (p : Ptr) : M τ Unit := do
  let width ← padString k fuel d (strArg p)
  let width ← putString k d.altflag fuel (strArg p) d.precision width
  let _ ← padLoop k (int (chr ' ')) fuel width

/-- `if (err < 0) err = -err` -/
def errNumber (err : Word) : Word := if err.slt 0#32 then -err else err

/-- case 'e', from the number on; the nested call of printfmt is given its arguments -/
def convError (nested : Ptr → VaList → M τ Unit) (err : Word) : M τ Unit :=
  if maxerror.sle err then nested (.lit (str "error %d") 0) (VaList.ofWords fun _ => err)
  else if err.slt 0#32 then throw .fault
  else
    match errorString err.toNat with
    | none => nested (.lit (str "error %d") 0) (VaList.ofWords fun _ => err)
    | some p => nested (.lit (str "%s") 0) ⟨fun _ => 0#32, fun _ => .lit p 0⟩

/-- case 'd' -/
def convInt (fuel : ℕ) (d : Dir) (num : BitVec 64) : M τ Unit :=
  if num.slt 0#64 then do
    emit k (int (chr '-'))
    printnum k 10 d.padc fuel (-num).toNat d.width
  else printnum k 10 d.padc fuel num.toNat d.width

/-- the conversion; the result is where the format goes on, and the next argument -/
def conv (nested : Ptr → VaList → M τ Unit) (va : VaList) (fuel : ℕ) (ch : Byte) (d : Dir) : M τ (Ptr × ℕ) :=
  if ch = chr 'c' then do
    emit k (va.word d.ap)
    return (d.fmt, d.ap + 1)
  else if ch = chr 'e' then do
    convError nested (errNumber (va.word d.ap))
    return (d.fmt, d.ap + 1)
  else if ch = chr 's' then do
    convString k fuel d (va.str d.ap)
    return (d.fmt, d.ap + 1)
  else if ch = chr 'd' then do
    convInt k fuel d (getint va d.ap d.lflag).1
    return (d.fmt, (getint va d.ap d.lflag).2)
  else if ch = chr 'u' then do
    printnum k 10 d.padc fuel (getuint va d.ap d.lflag).1.toNat d.width
    return (d.fmt, (getuint va d.ap d.lflag).2)
  else if ch = chr 'o' then do
    printnum k 8 d.padc fuel (getuint va d.ap d.lflag).1.toNat d.width
    return (d.fmt, (getuint va d.ap d.lflag).2)
  else if ch = chr 'p' then do
    emit k (int (chr '0'))
    emit k (int (chr 'x'))
    printnum k 16 d.padc fuel (va.word d.ap).toNat d.width
    return (d.fmt, d.ap + 1)
  else if ch = chr 'x' then do
    printnum k 16 d.padc fuel (getuint va d.ap d.lflag).1.toNat d.width
    return (d.fmt, (getuint va d.ap d.lflag).2)
  else if ch = chr '%' then do
    emit k (int ch)
    return (d.fmt, d.ap)
  else do
    emit k (int (chr '%'))
    return (← scan k fun r => backscan r fuel d.fmt.prev, d.ap)

def vprintfmt : ℕ → Ptr → VaList → ℕ → M τ Unit
  | 0, _, _, _ => throw .steps
  | fuel + 1, fmt, va, ap => do
    let ch ← scan k (·.get fmt)
    if ch = chr '%' then do
      let (ch, d) ← scan k fun r => reswitch r va fuel (Dir.start fmt.next ap)
      let (fmt, ap) ← conv k (fun fmt va => vprintfmt fuel fmt va 0) va fuel ch d
      vprintfmt fuel fmt va ap
    else if ch = 0#8 then return ()
    else do
      emit k (int ch)
      vprintfmt fuel fmt.next va ap

/-- printfmt is vprintfmt on its own arguments -/
def printfmt (fuel : ℕ) (fmt : Ptr) (va : VaList) : M τ Unit := vprintfmt k fuel fmt va 0

end Engine

/-! ## Two sinks -/

/-- whatever the first can read, the second reads too -/
def Reader.Le (r r' : Reader) : Prop := ∀ p b, r p = some b → r' p = some b

section Monotone

variable {r r' : Reader}

theorem get_mono (h : r.Le r') {p : Ptr} {b : Byte} (hg : r.get p = .ok b) : r'.get p = .ok b := by
  rw [Reader.get] at hg ⊢
  cases hp : r p with
  | none => rw [hp] at hg; cases hg
  | some c =>
    rw [hp] at hg
    rw [h p c hp]
    exact hg

theorem strnlen_mono (h : r.Le r') (fuel : ℕ) {s : Ptr} {size n m : Word} (hr : strnlen r fuel s size n = .ok m) :
    strnlen r' fuel s size n = .ok m := by
  induction fuel generalizing s size n with
  | zero => cases hr
  | succ fuel ih =>
    rw [strnlen] at hr ⊢
    split_ifs at hr ⊢ with h0
    · exact hr
    · obtain ⟨b, hb, h1⟩ := Prog.except_bind_ok.1 hr
      rw [get_mono h hb]
      change (if b = 0#8 then _ else _) = _
      split_ifs at h1 ⊢
      · exact h1
      · exact ih h1

theorem digits_mono (h : r.Le r') (fuel : ℕ) {ch : Byte} {precision : Word} {fmt : Ptr} {a : Word × Ptr}
    (hr : digits r fuel ch precision fmt = .ok a) : digits r' fuel ch precision fmt = .ok a := by
  induction fuel generalizing ch precision fmt with
  | zero => cases hr
  | succ fuel ih =>
    rw [digits] at hr ⊢
    obtain ⟨b, hb, h1⟩ := Prog.except_bind_ok.1 hr
    refine Prog.except_bind_ok.2 ⟨b, get_mono h hb, ?_⟩
    split_ifs at h1 ⊢
    · exact h1
    · exact ih h1

theorem backscan_mono (h : r.Le r') (fuel : ℕ) {fmt a : Ptr} (hr : backscan r fuel fmt = .ok a) :
    backscan r' fuel fmt = .ok a := by
  induction fuel generalizing fmt with
  | zero => cases hr
  | succ fuel ih =>
    rw [backscan] at hr ⊢
    obtain ⟨b, hb, h1⟩ := Prog.except_bind_ok.1 hr
    refine Prog.except_bind_ok.2 ⟨b, get_mono h hb, ?_⟩
    split_ifs at h1 ⊢
    · exact h1
    · exact ih h1

theorem reswitch_mono (h : r.Le r') {va : VaList} (fuel : ℕ) {d : Dir} {a : Byte × Dir}
    (hr : reswitch r va fuel d = .ok a) : reswitch r' va fuel d = .ok a := by
  induction fuel generalizing d with
  | zero => cases hr
  | succ fuel ih =>
    rw [reswitch] at hr ⊢
    obtain ⟨b, hb, h1⟩ := Prog.except_bind_ok.1 hr
    clear hr
    refine Prog.except_bind_ok.2 ⟨b, get_mono h hb, ?_⟩
    split_ifs at h1 ⊢
    · exact ih h1
    · exact ih h1
    · obtain ⟨c, hc, h2⟩ := Prog.except_bind_ok.1 h1
      exact Prog.except_bind_ok.2 ⟨c, digits_mono h fuel hc, ih h2⟩
    · exact ih h1
    · exact ih h1
    · exact ih h1
    · exact ih h1
    · exact h1

end Monotone

section TwoSinks

variable {σ τ : Type} {k : Sink σ} {k' : Sink τ} {R : σ → τ → Prop}

/-- related sinks read the same, as far as the first can read, and stay related when both get a character -/
structure Alike (k : Sink σ) (k' : Sink τ) (R : σ → τ → Prop) : Prop where
  read : ∀ s t, R s t → ∀ a b, k.read s a = some b → k'.read t a = some b
  putch : ∀ c s t, R s t → R (k.putch c s) (k'.putch c t)

theorem Alike.reader (h : Alike k k' R) {s : σ} {t : τ} (hst : R s t) : (k.reader s).Le (k'.reader t) := by
  intro p b hb
  cases p with
  | mem a => exact h.read s t hst a b hb
  | lit l i => exact hb

theorem sim_emit (h : Alike k k' R) (c : Word) : Sim R (emit k c) (emit k' c) := Sim.step fun s t => h.putch c s t

theorem sim_scan (h : Alike k k' R) {α : Type} {f : Reader → Except Stop α}
    (hf : ∀ {r r' : Reader}, r.Le r' → ∀ {a}, f r = .ok a → f r' = .ok a) : Sim R (scan k f) (scan k' f) :=
  Sim.look fun _ _ hst _ ha => hf (h.reader hst) ha

theorem sim_padLoop (h : Alike k k' R) (c : Word) (fuel : ℕ) (width : Word) :
    Sim R (padLoop k c fuel width) (padLoop k' c fuel width) := by
  induction fuel generalizing width with
  | zero => exact Sim.throw
  | succ fuel ih => exact Sim.ite (fun _ => (sim_emit h c).bind fun _ => ih _) fun _ => Sim.pure _

theorem sim_printnum (h : Alike k k' R) (base : ℕ) (padc : Word) (fuel num : ℕ) (width : Word) :
    Sim R (printnum k base padc fuel num width) (printnum k' base padc fuel num width) := by
  induction fuel generalizing num width with
  | zero => exact Sim.throw
  | succ fuel ih =>
    refine Sim.ite (fun _ => ?_) fun _ => ?_
    · exact (ih _ _).bind fun _ => sim_emit h _
    · exact (sim_padLoop h padc fuel _).bind fun _ => sim_emit h _

theorem sim_putString (h : Alike k k' R) (altflag : Bool) (fuel : ℕ) (p : Ptr) (precision width : Word) :
    Sim R (putString k altflag fuel p precision width) (putString k' altflag fuel p precision width) := by
  induction fuel generalizing p precision width with
  | zero => exact Sim.throw
  | succ fuel ih =>
    refine (sim_scan h fun hr => get_mono hr).bind fun c => Sim.ite (fun _ => Sim.pure _) fun _ => ?_
    exact Sim.ite (fun _ => (sim_emit h _).bind fun _ => ih _ _ _) fun _ => Sim.pure _

theorem sim_padString (h : Alike k k' R) (fuel : ℕ) (d : Dir) (p : Ptr) :
    Sim R (padString k fuel d p) (padString k' fuel d p) :=
  Sim.ite (fun _ => (sim_scan h fun hr => strnlen_mono hr fuel).bind fun _ => sim_padLoop h _ _ _) fun _ => Sim.pure _

theorem sim_convString (h : Alike k k' R) (fuel : ℕ) (d : Dir) (p : Ptr) :
    Sim R (convString k fuel d p) (convString k' fuel d p) :=
  (sim_padString h fuel d _).bind fun _ => (sim_putString h _ _ _ _ _).bind fun _ =>
    (sim_padLoop h _ _ _).bind fun _ => Sim.pure ()

theorem sim_convError {nested : Ptr → VaList → M σ Unit} {nested' : Ptr → VaList → M τ Unit}
    (hn : ∀ fmt va, Sim R (nested fmt va) (nested' fmt va)) (err : Word) :
    Sim R (convError nested err) (convError nested' err) := by
  refine Sim.ite (fun _ => hn _ _) fun _ => Sim.ite (fun _ => Sim.throw) fun _ => ?_
  cases errorString err.toNat with
  | none => exact hn _ _
  | some p => exact hn _ _

theorem sim_convInt (h : Alike k k' R) (fuel : ℕ) (d : Dir) (num : BitVec 64) :
    Sim R (convInt k fuel d num) (convInt k' fuel d num) :=
  Sim.ite (fun _ => (sim_emit h _).bind fun _ => sim_printnum h _ _ _ _ _) fun _ => sim_printnum h _ _ _ _ _

/-- one case for each conversion -/
theorem sim_conv (h : Alike k k' R) {nested : Ptr → VaList → M σ Unit} {nested' : Ptr → VaList → M τ Unit}
    (hn : ∀ fmt va, Sim R (nested fmt va) (nested' fmt va)) (va : VaList) (fuel : ℕ) (ch : Byte) (d : Dir) :
    Sim R (conv k nested va fuel ch d) (conv k' nested' va fuel ch d) := by
  refine Sim.ite (fun _ => (sim_emit h _).bind fun _ => Sim.pure _) fun _ => ?_
  refine Sim.ite (fun _ => (sim_convError hn _).bind fun _ => Sim.pure _) fun _ => ?_
  refine Sim.ite (fun _ => (sim_convString h _ _ _).bind fun _ => Sim.pure _) fun _ => ?_
  refine Sim.ite (fun _ => (sim_convInt h _ _ _).bind fun _ => Sim.pure _) fun _ => ?_
  refine Sim.ite (fun _ => (sim_printnum h _ _ _ _ _).bind fun _ => Sim.pure _) fun _ => ?_
  refine Sim.ite (fun _ => (sim_printnum h _ _ _ _ _).bind fun _ => Sim.pure _) fun _ => ?_
  refine Sim.ite (fun _ => ?_) fun _ => ?_
  · exact (sim_emit h _).bind fun _ => (sim_emit h _).bind fun _ =>
      (sim_printnum h _ _ _ _ _).bind fun _ => Sim.pure _
  refine Sim.ite (fun _ => (sim_printnum h _ _ _ _ _).bind fun _ => Sim.pure _) fun _ => ?_
  refine Sim.ite (fun _ => (sim_emit h _).bind fun _ => Sim.pure _) fun _ => ?_
  exact (sim_emit h _).bind fun _ => (sim_scan h fun hr => backscan_mono hr fuel).bind fun _ => Sim.pure _

/-- **Two runs of the formatter.** Whatever it prints, sinks that start alike end alike. -/
theorem sim_vprintfmt (h : Alike k k' R) (fuel : ℕ) (fmt : Ptr) (va : VaList) (ap : ℕ) :
    Sim R (vprintfmt k fuel fmt va ap) (vprintfmt k' fuel fmt va ap) := by
  induction fuel generalizing fmt va ap with
  | zero => exact Sim.throw
  | succ fuel ih =>
    refine (sim_scan h fun hr => get_mono hr).bind fun ch => Sim.ite (fun _ => ?_) fun _ => ?_
    · refine (sim_scan h fun hr => reswitch_mono hr fuel).bind fun x => ?_
      exact (sim_conv h (fun fmt va => ih fmt va 0) va fuel x.1 x.2).bind fun y => ih _ _ _
    · exact Sim.ite (fun _ => Sim.pure _) fun _ => (sim_emit h _).bind fun _ => ih _ _ _

end TwoSinks

/-! ## One sink -/

section OneSink

variable {τ : Type} {k : Sink τ}

theorem feed_append (s : τ) (cs ds : List Word) : feed k s (cs ++ ds) = feed k (feed k s cs) ds := List.foldl_append

/-- the relation of a run with itself: the sink has got some characters since s₀ -/
theorem alike_feed (s₀ : τ) : Alike k k fun s t => s = t ∧ ∃ cs, t = feed k s₀ cs where
  read s t h a b hb := by
    obtain ⟨rfl, -⟩ := h
    exact hb
  putch c s t h := by
    obtain ⟨rfl, cs, rfl⟩ := h
    exact ⟨rfl, cs ++ [c], (feed_append s₀ cs [c]).symm⟩

/-- a program that does nothing to the sink but put out characters -/
def Feeds {α : Type} (k : Sink τ) (x : M τ α) : Prop :=
  ∀ s a t, x.run s = .ok (a, t) → ∃ cs, t = feed k s cs

theorem feeds_of_sim {α : Type} {x : M τ α} (h : ∀ s₀, Sim (fun s t => s = t ∧ ∃ cs, t = feed k s₀ cs) x x) :
    Feeds k x := by
  intro s a t hx
  obtain ⟨t', ht', rfl, cs, rfl⟩ := h s s s ⟨rfl, [], rfl⟩ a t hx
  exact ⟨cs, rfl⟩

/-- **A run of the formatter is a list of calls of putch.** -/
theorem vprintfmt_feeds (fuel : ℕ) (fmt : Ptr) (va : VaList) (ap : ℕ) : Feeds k (vprintfmt k fuel fmt va ap) :=
  feeds_of_sim fun s₀ => sim_vprintfmt (alike_feed s₀) fuel fmt va ap

theorem feeds_padLoop (c : Word) (fuel : ℕ) (width : Word) : Feeds k (padLoop k c fuel width) :=
  feeds_of_sim fun s₀ => sim_padLoop (alike_feed s₀) c fuel width

theorem feeds_printnum (base : ℕ) (padc : Word) (fuel num : ℕ) (width : Word) :
    Feeds k (printnum k base padc fuel num width) :=
  feeds_of_sim fun s₀ => sim_printnum (alike_feed s₀) base padc fuel num width

theorem feeds_padString (fuel : ℕ) (d : Dir) (p : Ptr) : Feeds k (padString k fuel d p) :=
  feeds_of_sim fun s₀ => sim_padString (alike_feed s₀) fuel d p

theorem feeds_putString (altflag : Bool) (fuel : ℕ) (p : Ptr) (precision width : Word) :
    Feeds k (putString k altflag fuel p precision width) :=
  feeds_of_sim fun s₀ => sim_putString (alike_feed s₀) altflag fuel p precision width

theorem feeds_conv (va : VaList) (fuel : ℕ) (ch : Byte) (d : Dir) :
    Feeds k (conv k (fun fmt va => vprintfmt k fuel fmt va 0) va fuel ch d) :=
  feeds_of_sim fun s₀ => sim_conv (alike_feed s₀)
    (fun fmt va => sim_vprintfmt (alike_feed s₀) fuel fmt va 0) va fuel ch d

theorem feeds_emit (c : Word) : Feeds k (emit k c) := feeds_of_sim fun s₀ => sim_emit (alike_feed s₀) c

theorem feeds_pure {α : Type} (a : α) : Feeds k (pure a : M τ α) := feeds_of_sim fun _ => Sim.pure a

theorem feeds_scan {α : Type} (f : Reader → Except Stop α) : Feeds k (scan k f) :=
  feeds_of_sim fun _ => Sim.look fun s t h a ha => by rwa [← h.1]

theorem Feeds.bind {α β : Type} {x : M τ α} {f : α → M τ β} (hx : Feeds k x) (hf : ∀ a, Feeds k (f a)) :
    Feeds k (x >>= f) := by
  intro s b t h
  obtain ⟨a, u, hxu, hfu⟩ := Prog.bind_ok.1 h
  obtain ⟨cs, rfl⟩ := hx s a u hxu
  obtain ⟨ds, rfl⟩ := hf a _ b t hfu
  exact ⟨cs ++ ds, (feed_append s cs ds).symm⟩

end OneSink

end Jos
