/-
The line editor (lib/readline.c), over the text screen.

The input is the stream of characters that getchar returns; a line is read when '\n' or '\r' comes, and the loop goes on
where the stream ends. `keep` is what one character does to the line. Results:
- `readlineRound_on`, `readlineRound_end`: one round of the loop;
- `readlineStream_line`: a call, up to any point of its first line: the line, the screen and the input that is left;
- `readline_shows`: the cells in front of the cursor are the buffer, at every point of the loop;
- `readline_edits`: the line is that of the edit fold exactly if every DEL that has been typed on an empty line has been
  erased again (`readline_inserts`).
-/
import Jos.Printf.Cprintf

namespace Jos

open Jos.Lib

/-! ## lib/readline.c -/

/-- BUFLEN -/
def bufLen : ℕ := 1024

/-- iscons of kern/console.c -/
def iscons : Word := 1#32

structure Line where
  mem : Bytes
  scr : Crt
  i : ℕ

/-- a round of the loop: it goes on, or readline returns a pointer -/
inductive Reading where
  | on (s : Line)
  | done (s : Line) (ret : Word)

/-- `if (echoing) cputchar(c)` -/
def echo (c : Word) (scr : Crt) : Crt := if iscons ≠ 0#32 then consPutc c scr else scr

def readlineRound (fuel : ℕ) (buf c : Word) (s : Line) : Except Stop Reading :=
  if c.slt 0#32 then do
    let r ← vcprintf fuel (.lit (str "read error: %e\n") 0) (VaList.ofWords fun _ => c) s.mem
    return .done { s with scr := cputchars s.scr r.2.out } 0#32
  else if (c = 0x08#32 ∨ c = 0x7F#32) ∧ 0 < s.i then .ok (.on { s with scr := echo 0x08#32 s.scr, i := s.i - 1 })
  else if (0x20#32).sle c ∧ s.i < bufLen - 1 then
    .ok (.on
      { mem := Function.update s.mem (buf + BitVec.ofNat 32 s.i) (c.setWidth 8)
        scr := echo c s.scr
        i := s.i + 1 })
  else if c = 0x0A#32 ∨ c = 0x0D#32 then
    .ok (.done
      { s with
        mem := Function.update s.mem (buf + BitVec.ofNat 32 s.i) 0#8
        scr := echo 0x0A#32 s.scr } buf)
  else .ok (.on s)

/-- `while (1)`, as far as there is input, and the input that it has not read -/
def readlineLoop (fuel : ℕ) (buf : Word) : List Word → Line → Except Stop (Reading × List Word)
  | [], s => .ok (.on s, [])
  | c :: cs, s => do
    match ← readlineRound fuel buf c s with
    | .on s => readlineLoop fuel buf cs s
    | .done s ret => return (.done s ret, cs)

/-- `if (prompt != NULL)` -/
def showPrompt (fuel : ℕ) (prompt : Ptr) (m : Bytes) (scr : Crt) : Except Stop Crt :=
  if prompt = Ptr.null then .ok scr
  else do
    let r ← vcprintf fuel (.lit (str "%s") 0) ⟨fun _ => 0#32, fun _ => prompt⟩ m
    return cputchars scr r.2.out

/-- readline on a stream of characters, with those that it has not read -/
def readlineStream (fuel : ℕ) (buf : Word) (prompt : Ptr) (m : Bytes) (scr : Crt) (input : List Word) :
    Except Stop (Reading × List Word) := do
  let scr ← showPrompt fuel prompt m scr
  readlineLoop fuel buf input { mem := m, scr := scr, i := 0 }

def readline (fuel : ℕ) (buf : Word) (prompt : Ptr) (m : Bytes) (scr : Crt) (input : List Word) : Except Stop Reading := do
  return (← readlineStream fuel buf prompt m scr input).1

/-! ## The screen in flat positions -/

section Flat

variable {s : Crt}

theorem consPutc_visible {t : Term} (h : Visible s t) (c : Word) : Visible (consPutc c s) (t.putc c) := by
  rw [consPutc]
  exact cgaPutc_visible ((((h.outb _ _).outb _ _).outb _ _).outb _ _) c

theorem cputchars_visible {t : Term} (h : Visible s t) (cs : List Word) : Visible (cputchars s cs) (t.puts cs) := by
  induction cs generalizing s t with
  | nil => exact h
  | cons c cs ih => exact ih (consPutc_visible h c)

theorem cputchars_append (scr : Crt) (cs ds : List Word) : cputchars scr (cs ++ ds) = cputchars (cputchars scr cs) ds :=
  List.foldl_append

/-- a character is written to the cell of the cursor; what is in front of the new cursor was d cells further on, where d is
0 or a row -/
theorem consPutc_cell (hpos : s.pos.toNat < crtSize) {c : Word} (hc : Plain c) :
    ∃ d, (d = 0 ∨ d = crtCols ∧ s.pos.toNat + 1 = crtSize) ∧ (consPutc c s).pos.toNat + d = s.pos.toNat + 1 ∧
      ∀ k, k < (consPutc c s).pos.toNat →
        (consPutc c s).buf k = Function.update s.buf s.pos.toNat ((withAttr c).setWidth 16) (k + d) := by
  have hadd : (s.pos + 1#16).toNat = s.pos.toNat + 1 := by
    rw [BitVec.toNat_add]
    simp only [crtSize, crtRows, crtCols] at hpos
    simp
    omega
  let u := (lptPutc c (serialPutc c s)).putCell (withAttr c)
  have hcall : consPutc c s = u.scroll.showCursor := by
    rw [consPutc, cgaPutc_plain hc]
  have hupos : u.pos = s.pos + 1#16 := rfl
  have hubuf : u.buf = Function.update s.buf s.pos.toNat ((withAttr c).setWidth 16) := rfl
  by_cases hend : crtSize ≤ u.pos.toNat
  · -- the last cell: every row goes up
    have hlast : s.pos.toNat + 1 = crtSize := by
      rw [hupos, hadd] at hend
      omega
    have hmoved : (u.moveUp.clearFrom crtCols).pos = u.pos := pos_clearFrom crtCols
    have hle : BitVec.ofNat 16 crtCols ≤ u.pos := by
      rw [BitVec.le_def]
      exact le_trans (by decide) hend
    have hscroll : u.scroll.pos.toNat = crtSize - crtCols := by
      rw [Crt.scroll, if_pos hend]
      change ((u.moveUp.clearFrom crtCols).pos - BitVec.ofNat 16 crtCols).toNat = _
      rw [hmoved, BitVec.toNat_sub_of_le hle, hupos, hadd, hlast]
      rfl
    have hnew : (consPutc c s).pos.toNat = crtSize - crtCols := by
      rw [hcall, Crt.showCursor_pos]
      exact hscroll
    refine ⟨crtCols, Or.inr ⟨rfl, hlast⟩, ?_, ?_⟩
    · rw [hnew, hlast]
      rfl
    · intro k hk
      rw [hnew] at hk
      rw [hcall, Crt.showCursor_buf, ← hubuf, Crt.scroll, if_pos hend]
      change (u.moveUp.clearFrom crtCols).buf k = _
      rw [buf_clearFrom, if_neg (by omega), Crt.moveUp]
      exact if_pos hk
  · have hscroll : u.scroll = u := if_neg hend
    have hnew : (consPutc c s).pos.toNat = s.pos.toNat + 1 := by
      rw [hcall, Crt.showCursor_pos, hscroll, hupos, hadd]
    refine ⟨0, Or.inl rfl, hnew, fun k _ => ?_⟩
    rw [hcall, Crt.showCursor_buf, hscroll, ← hubuf]
    rfl

/-- '\b': the cursor goes back, and the cells in front of it stay as they are -/
theorem consPutc_back (h0 : 0 < s.pos.toNat) (hpos : s.pos.toNat < crtSize) :
    (consPutc 0x08#32 s).pos.toNat + 1 = s.pos.toNat ∧
      ∀ k, k < (consPutc 0x08#32 s).pos.toNat → (consPutc 0x08#32 s).buf k = s.buf k := by
  have hsub : (s.pos - 1#16).toNat = s.pos.toNat - 1 := BitVec.toNat_sub_of_le (show (1#16).toNat ≤ s.pos.toNat from h0)
  let u := (lptPutc 0x08#32 (serialPutc 0x08#32 s)).backspace (withAttr 0x08#32)
  have hcall : consPutc 0x08#32 s = u.scroll.showCursor := by
    rw [consPutc, cgaPutc, if_pos (by decide)]
  have hback : u = ((lptPutc 0x08#32 (serialPutc 0x08#32 s)).setPos (s.pos - 1#16)).store (s.pos - 1#16).toNat
      (((withAttr 0x08#32 &&& ~~~0xFF#32) ||| 0x20#32).setWidth 16) := if_pos h0
  have hscroll : u.scroll = u := by
    refine if_neg ?_
    rw [hback]
    change ¬ crtSize ≤ (s.pos - 1#16).toNat
    omega
  have hnew : (consPutc 0x08#32 s).pos = s.pos - 1#16 := by
    rw [hcall, hscroll, hback]
    rfl
  rw [hnew, hsub]
  refine ⟨by omega, fun k hk => ?_⟩
  have hne : k ≠ (s.pos - 1#16).toNat := by omega
  rw [hcall, hscroll, hback]
  exact Function.update_of_ne hne _ _

end Flat

/-! ## One round -/

/-- the characters that end a line -/
def EndOfLine (c : Byte) : Prop := c = chr '\n' ∨ c = chr '\r'

instance : DecidablePred EndOfLine := fun c => inferInstanceAs (Decidable (c = chr '\n' ∨ c = chr '\r'))

/-- the characters that erase -/
def Erase (c : Byte) : Prop := c = 0x08#8 ∨ c = 0x7F#8

instance : DecidablePred Erase := fun c => inferInstanceAs (Decidable (c = 0x08#8 ∨ c = 0x7F#8))

/-- what a character that does not end the line does to it -/
def keep (l : List Byte) (c : Byte) : List Byte :=
  if Erase c ∧ 0 < l.length then l.dropLast
  else if 0x20#8 ≤ c ∧ l.length < bufLen - 1 then l ++ [c]
  else l

/-- what is echoed for a character, when the line l has been typed -/
def echoOf (l : List Byte) (c : Byte) : List Word :=
  if Erase c ∧ 0 < l.length then [0x08#32] else if 0x20#8 ≤ c ∧ l.length < bufLen - 1 then [int c] else []

def echoes : List Byte → List Byte → List Word
  | _, [] => []
  | l, c :: cs => echoOf l c ++ echoes (keep l c) cs

/-- the line l is in the buffer, and on the screen in front of the cursor -/
structure Holds (m : Bytes) (buf : Word) (s : Line) (l : List Byte) : Prop where
  len : s.i = l.length
  room : l.length ≤ bufLen - 1
  print : ∀ c ∈ l, 0x20#8 ≤ c
  held : ∀ j c, l[j]? = some c → s.mem (buf + BitVec.ofNat 32 j) = c
  rest : ∀ a, (∀ j < bufLen, a ≠ buf + BitVec.ofNat 32 j) → s.mem a = m a
  screen : ∃ t, Visible s.scr t
  fits : l.length ≤ s.scr.pos.toNat
  shown : ∀ j c, l[j]? = some c → (s.scr.buf (s.scr.pos.toNat - l.length + j)).setWidth 8 = c

/-- the string l stands at buf, and no other byte has been written -/
structure Returned (m : Bytes) (buf : Word) (mem : Bytes) (l : List Byte) : Prop where
  text : Reads (Bytes.reader mem) (.mem buf) (l ++ [0#8])
  nul : 0#8 ∉ l
  rest : ∀ a, (∀ j < bufLen, a ≠ buf + BitVec.ofNat 32 j) → mem a = m a

section Rounds

variable {m : Bytes} {buf : Word} {s : Line} {l : List Byte} {c : Byte}

theorem plain_print (h : 0x20#8 ≤ c) : Plain (int c) := by
  have hall : ∀ c : Byte, 0x20#8 ≤ c → Plain (int c) := by decide
  exact hall c h

theorem cell_print (c : Byte) : ((withAttr (int c)).setWidth 16).setWidth 8 = c := by
  revert c
  decide

theorem int_eq {c : Byte} {d : Word} (hd : d.toNat < 256) : int c = d ↔ c = d.setWidth 8 := by
  constructor
  · rintro rfl
    rw [int, BitVec.setWidth_setWidth_of_le c (by decide), BitVec.setWidth_eq]
  · rintro rfl
    apply BitVec.eq_of_toNat_eq
    rw [int, BitVec.toNat_setWidth, BitVec.toNat_setWidth]
    omega

theorem erase_int : (int c = 0x08#32 ∨ int c = 0x7F#32) ↔ Erase c := by
  rw [int_eq (by decide), int_eq (by decide)]
  rfl

theorem end_int : (int c = 0x0A#32 ∨ int c = 0x0D#32) ↔ EndOfLine c := by
  rw [int_eq (by decide), int_eq (by decide)]
  rfl

theorem print_int (c : Byte) : (0x20#32).sle (int c) ↔ 0x20#8 ≤ c := by
  revert c
  decide

theorem nonneg_int (c : Byte) : ¬ (int c).slt 0#32 := by
  revert c
  decide

theorem echo_eq (c : Word) (scr : Crt) : echo c scr = consPutc c scr := if_pos (by decide)

theorem Holds.erase (h : Holds m buf s l) (hl : 0 < l.length) :
    Holds m buf { s with scr := echo 0x08#32 s.scr, i := s.i - 1 } l.dropLast := by
  obtain ⟨t, ht⟩ := h.screen
  have hfits := h.fits
  obtain ⟨hpos, hcells⟩ := consPutc_back (lt_of_lt_of_le hl hfits) ht.lt_size
  have hlen : l.dropLast.length = l.length - 1 := List.length_dropLast
  have hget : ∀ {j c}, l.dropLast[j]? = some c → j < l.length - 1 ∧ l[j]? = some c := by
    intro j c hj
    have hlt := (List.getElem?_eq_some_iff.1 hj).1
    rw [hlen] at hlt
    rw [List.getElem?_dropLast, if_pos hlt] at hj
    exact ⟨hlt, hj⟩
  rw [echo_eq]
  refine ⟨?_, ?_, ?_, ?_, h.rest, ⟨_, consPutc_visible ht _⟩, ?_, ?_⟩
  · rw [hlen, ← h.len]
  · exact le_trans (hlen.trans_le (Nat.sub_le _ _)) h.room
  · intro c hc
    exact h.print c (List.mem_of_mem_dropLast hc)
  · intro j c hj
    exact h.held j c (hget hj).2
  · change l.dropLast.length ≤ (consPutc 0x08#32 s.scr).pos.toNat
    omega
  · intro j c hj
    obtain ⟨hlt, hj'⟩ := hget hj
    change ((consPutc 0x08#32 s.scr).buf ((consPutc 0x08#32 s.scr).pos.toNat - l.dropLast.length + j)).setWidth 8 = c
    have hidx : (consPutc 0x08#32 s.scr).pos.toNat - l.dropLast.length + j = s.scr.pos.toNat - l.length + j := by omega
    rw [hcells _ (by omega), hidx]
    exact h.shown j c hj'

theorem Holds.append (h : Holds m buf s l) (hc : 0x20#8 ≤ c) (hl : l.length < bufLen - 1) :
    Holds m buf
      { mem := Function.update s.mem (buf + BitVec.ofNat 32 s.i) ((int c).setWidth 8)
        scr := echo (int c) s.scr
        i := s.i + 1 } (l ++ [c]) := by
  obtain ⟨t, ht⟩ := h.screen
  have hsize := ht.lt_size
  have hfits := h.fits
  have hbuf : bufLen = 1024 := rfl
  obtain ⟨d, hd, hpos, hcells⟩ := consPutc_cell hsize (plain_print hc)
  have hlen : (l ++ [c]).length = l.length + 1 := List.length_append
  have hget : ∀ {j b}, (l ++ [c])[j]? = some b → (j < l.length ∧ l[j]? = some b) ∨ (j = l.length ∧ b = c) := by
    intro j b hj
    have hlt := (List.getElem?_eq_some_iff.1 hj).1
    rw [hlen] at hlt
    rcases Nat.lt_succ_iff_lt_or_eq.1 hlt with hlt | rfl
    · rw [List.getElem?_append_left hlt] at hj
      exact Or.inl ⟨hlt, hj⟩
    · rw [List.getElem?_concat_length] at hj
      exact Or.inr ⟨rfl, (Option.some.inj hj).symm⟩
  have hbyte : (int c).setWidth 8 = c := by
    rw [int, BitVec.setWidth_setWidth_of_le c (by decide), BitVec.setWidth_eq]
  -- after a scroll too the line is on the screen: it is shorter than what is left of it
  have hfits' : l.length + 1 ≤ (consPutc (int c) s.scr).pos.toNat := by
    rcases hd with rfl | ⟨rfl, hlast⟩
    · omega
    · simp only [crtSize, crtRows, crtCols] at hlast hpos
      omega
  rw [echo_eq, h.len, hbyte]
  refine ⟨by rw [hlen], by rw [hlen]; omega, ?_, ?_, ?_, ⟨_, consPutc_visible ht _⟩, by rw [hlen]; exact hfits', ?_⟩
  · intro b hb
    rcases List.mem_append.1 hb with hb | hb
    · exact h.print b hb
    · exact List.mem_singleton.1 hb ▸ hc
  · intro j b hj
    rcases hget hj with ⟨hlt, hj⟩ | ⟨rfl, rfl⟩
    · have hne : buf + BitVec.ofNat 32 j ≠ buf + BitVec.ofNat 32 l.length := fun heq =>
        absurd (offset_inj (by omega) (by omega) heq) (Nat.ne_of_lt hlt)
      exact (Function.update_of_ne hne _ _).trans (h.held j b hj)
    · exact Function.update_self ..
  · intro a ha
    exact (Function.update_of_ne (ha _ (by omega)) _ _).trans (h.rest a ha)
  · intro j b hj
    change ((consPutc (int c) s.scr).buf ((consPutc (int c) s.scr).pos.toNat - (l ++ [c]).length + j)).setWidth 8 = b
    have hle : j ≤ l.length := by
      rcases hget hj with ⟨hlt, -⟩ | ⟨rfl, -⟩
      · exact le_of_lt hlt
      · exact le_refl _
    have hidx : (consPutc (int c) s.scr).pos.toNat - (l ++ [c]).length + j + d = s.scr.pos.toNat - l.length + j := by
      rw [hlen]
      omega
    rw [hcells _ (by rw [hlen]; omega), hidx]
    rcases hget hj with ⟨hlt, hj⟩ | ⟨rfl, rfl⟩
    · rw [Function.update_of_ne (by omega)]
      exact h.shown j b hj
    · have hcursor : s.scr.pos.toNat - l.length + l.length = s.scr.pos.toNat := Nat.sub_add_cancel hfits
      rw [hcursor, Function.update_self]
      exact cell_print _

theorem Holds.start {scr : Crt} {t : Term} (h : Visible scr t) (m : Bytes) (buf : Word) :
    Holds m buf { mem := m, scr := scr, i := 0 } [] where
  len := rfl
  room := Nat.zero_le _
  print c hc := absurd hc List.not_mem_nil
  held j c hj := by cases hj
  rest a _ := rfl
  screen := ⟨t, h⟩
  fits := Nat.zero_le _
  shown j c hj := by cases hj

theorem Holds.returned (h : Holds m buf s l) :
    Returned m buf (Function.update s.mem (buf + BitVec.ofNat 32 l.length) 0#8) l := by
  have hroom := h.room
  have hbuf : bufLen = 1024 := rfl
  have htext : Reads (Bytes.reader s.mem) (.mem buf) l := fun i c hc => congrArg some (h.held i c hc)
  refine ⟨htext.store (by omega) 0#8, fun h0 => absurd (h.print _ h0) (by decide), fun a ha => ?_⟩
  rw [Function.update_of_ne (ha _ (by omega))]
  exact h.rest a ha

/-- **One round**: a character that does not end the line, and its echo. -/
theorem readlineRound_on (h : Holds m buf s l) (hc : ¬ EndOfLine c) :
    ∃ s', (∀ fuel, readlineRound fuel buf (int c) s = .ok (.on s')) ∧ Holds m buf s' (keep l c) ∧
      s'.scr = cputchars s.scr (echoOf l c) := by
  have hround : ∀ fuel, readlineRound fuel buf (int c) s =
      if Erase c ∧ 0 < l.length then .ok (.on { s with scr := echo 0x08#32 s.scr, i := s.i - 1 })
      else if 0x20#8 ≤ c ∧ l.length < bufLen - 1 then
        .ok (.on { mem := Function.update s.mem (buf + BitVec.ofNat 32 s.i) ((int c).setWidth 8)
                   scr := echo (int c) s.scr
                   i := s.i + 1 })
      else .ok (.on s) := by
    intro fuel
    rw [readlineRound, if_neg (nonneg_int c), ← h.len]
    simp only [erase_int, print_int, end_int, if_neg hc]
  by_cases herase : Erase c ∧ 0 < l.length
  · have hkeep : keep l c = l.dropLast := if_pos herase
    have hecho : echoOf l c = [0x08#32] := if_pos herase
    rw [hkeep, hecho]
    exact ⟨_, fun fuel => (hround fuel).trans (if_pos herase), h.erase herase.2, echo_eq _ _⟩
  · by_cases hprint : 0x20#8 ≤ c ∧ l.length < bufLen - 1
    · have hkeep : keep l c = l ++ [c] := (if_neg herase).trans (if_pos hprint)
      have hecho : echoOf l c = [int c] := (if_neg herase).trans (if_pos hprint)
      rw [hkeep, hecho]
      exact ⟨_, fun fuel => (hround fuel).trans ((if_neg herase).trans (if_pos hprint)),
        h.append hprint.1 hprint.2, echo_eq _ _⟩
    · have hkeep : keep l c = l := (if_neg herase).trans (if_neg hprint)
      have hecho : echoOf l c = [] := (if_neg herase).trans (if_neg hprint)
      rw [hkeep, hecho]
      exact ⟨s, fun fuel => (hround fuel).trans ((if_neg herase).trans (if_neg hprint)), h, rfl⟩

/-- the line ends: a NUL behind it, and the buffer is returned -/
theorem readlineRound_end (h : Holds m buf s l) (hc : EndOfLine c) :
    ∃ s', (∀ fuel, readlineRound fuel buf (int c) s = .ok (.done s' buf)) ∧ Returned m buf s'.mem l ∧
      s'.scr = cputchars s.scr [int (chr '\n')] := by
  have herase : ¬ Erase c := by
    rcases hc with rfl | rfl <;> decide
  have hprint : ¬ 0x20#8 ≤ c := by
    rcases hc with rfl | rfl <;> decide
  refine ⟨{ s with mem := Function.update s.mem (buf + BitVec.ofNat 32 s.i) 0#8, scr := echo 0x0A#32 s.scr }, ?_, ?_, echo_eq _ _⟩
  · intro fuel
    rw [readlineRound, if_neg (nonneg_int c)]
    simp only [erase_int, print_int, end_int]
    rw [if_neg fun h => herase h.1, if_neg fun h => hprint h.1, if_pos hc]
  · change Returned m buf (Function.update s.mem (buf + BitVec.ofNat 32 s.i) 0#8) l
    rw [h.len]
    exact h.returned

end Rounds

/-! ## The whole loop -/

section Runs

variable {m : Bytes} {buf : Word} {s s' : Line} {l : List Byte} {fuel : ℕ}

/-- **The loop** goes on while no character ends the line. -/
theorem readlineLoop_on (h : Holds m buf s l) {cs : List Byte} (hcs : ∀ c ∈ cs, ¬ EndOfLine c) :
    ∃ s', Holds m buf s' (cs.foldl keep l) ∧ s'.scr = cputchars s.scr (echoes l cs) ∧
      ∀ fuel rest, readlineLoop fuel buf (cs.map int ++ rest) s = readlineLoop fuel buf rest s' := by
  induction cs generalizing s l with
  | nil => exact ⟨s, h, rfl, fun fuel rest => rfl⟩
  | cons c cs ih =>
    obtain ⟨u, hu, hkeep, hscr⟩ := readlineRound_on h (hcs c List.mem_cons_self)
    obtain ⟨s', hholds, hscr', hrun⟩ := ih hkeep fun x hx => hcs x (List.mem_cons_of_mem c hx)
    refine ⟨s', hholds, ?_, fun fuel rest => ?_⟩
    · rw [hscr', hscr, echoes, cputchars_append]
    · rw [List.map_cons, List.cons_append, readlineLoop, hu fuel]
      exact hrun fuel rest

theorem readlineLoop_end (h : Holds m buf s l) {c : Byte} (hc : EndOfLine c) :
    ∃ s', Returned m buf s'.mem l ∧ s'.scr = cputchars s.scr [int (chr '\n')] ∧
      ∀ fuel rest, readlineLoop fuel buf (int c :: rest) s = .ok (.done s' buf, rest) := by
  obtain ⟨s', hs', hret, hscr⟩ := readlineRound_end h hc
  refine ⟨s', hret, hscr, fun fuel rest => ?_⟩
  rw [readlineLoop, hs' fuel]
  rfl

/-- the prompt is NULL or a string -/
def IsPrompt (m : Bytes) (prompt : Ptr) (text : List Byte) : Prop :=
  prompt = Ptr.null ∨ 0#8 ∉ text ∧ Reads (Bytes.reader m) prompt (text ++ [0#8])

def promptText (prompt : Ptr) (text : List Byte) : List Word := if prompt = Ptr.null then [] else dataText text

theorem showPrompt_prints {prompt : Ptr} {text : List Byte} (h : IsPrompt m prompt text) :
    ∃ N, ∀ fuel, N ≤ fuel → ∀ scr, showPrompt fuel prompt m scr = .ok (cputchars scr (promptText prompt text)) := by
  by_cases hnull : prompt = Ptr.null
  · refine ⟨0, fun fuel _ scr => ?_⟩
    rw [showPrompt, promptText, if_pos hnull, if_pos hnull]
    rfl
  · obtain ⟨h0, htext⟩ := h.resolve_left hnull
    obtain ⟨N, hN⟩ := cprintf_string h0 m ⟨fun _ => 0#32, fun _ => prompt⟩ fun a ha => by
      change Text cprintfSink a (strArg prompt) _
      rw [strArg, if_neg hnull]
      exact Text.string htext a ha
    refine ⟨N, fun fuel hfuel scr => ?_⟩
    rw [showPrompt, promptText, if_neg hnull, if_neg hnull, hN fuel hfuel]
    rfl

/-- **A call**, up to any point of the line: the line and the screen, and what is left of the input. -/
theorem readlineStream_line {prompt : Ptr} {text : List Byte} (h : IsPrompt m prompt text) (buf : Word) {scr : Crt} {t : Term}
    (hscr : Visible scr t) : ∃ N, ∀ typed : List Byte, (∀ c ∈ typed, ¬ EndOfLine c) →
      ∃ s, Holds m buf s (typed.foldl keep []) ∧ s.scr = cputchars scr (promptText prompt text ++ echoes [] typed) ∧
        ∀ fuel, N ≤ fuel → ∀ rest,
          readlineStream fuel buf prompt m scr (typed.map int ++ rest) = readlineLoop fuel buf rest s := by
  obtain ⟨N, hprompt⟩ := showPrompt_prints h
  have hshown := cputchars_visible hscr (promptText prompt text)
  refine ⟨N, fun typed htyped => ?_⟩
  obtain ⟨s, hs, hsscr, hrun⟩ := readlineLoop_on (Holds.start hshown m buf) htyped
  refine ⟨s, hs, hsscr.trans (cputchars_append _ _ _).symm, fun fuel hfuel rest => ?_⟩
  rw [readlineStream, hprompt fuel hfuel]
  exact hrun fuel rest

/-- a call of readline: the cursor is on the screen, and the prompt is NULL or a string -/
structure Callable (m : Bytes) (scr : Crt) (prompt : Ptr) (text : List Byte) : Prop where
  cursor : scr.pos.toNat < crtSize
  start : scr.writes = []
  prompt : IsPrompt m prompt text

/-- the cells in front of the cursor are the buffer, and no other byte has been written -/
structure OnScreen (m : Bytes) (buf : Word) (s : Line) : Prop where
  room : s.i ≤ bufLen - 1
  cursor : s.scr.pos.toNat < crtSize
  fits : s.i ≤ s.scr.pos.toNat
  cells : ∀ j < s.i, (s.scr.buf (s.scr.pos.toNat - s.i + j)).setWidth 8 = s.mem (buf + BitVec.ofNat 32 j)
  rest : ∀ a, (∀ j < bufLen, a ≠ buf + BitVec.ofNat 32 j) → s.mem a = m a

theorem Holds.onScreen (h : Holds m buf s l) : OnScreen m buf s := by
  obtain ⟨t, ht⟩ := h.screen
  refine ⟨h.len ▸ h.room, ht.lt_size, h.len ▸ h.fits, fun j hj => ?_, h.rest⟩
  rw [h.len] at hj ⊢
  rw [h.shown j _ (List.getElem?_eq_getElem hj), h.held j _ (List.getElem?_eq_getElem hj)]

/-- **A call**, up to the end of the input and behind it. -/
theorem readline_holds {scr : Crt} {prompt : Ptr} {text : List Byte} (h : Callable m scr prompt text) (buf : Word) :
    ∃ N, ∀ fuel, N ≤ fuel → ∀ input : List Byte, (∀ c ∈ input, ¬ EndOfLine c) →
      ∃ s, readline fuel buf prompt m scr (input.map int) = .ok (.on s) ∧ Holds m buf s (input.foldl keep []) ∧
        ∀ c more, EndOfLine c →
          ∃ s', readline fuel buf prompt m scr ((input ++ c :: more).map int) = .ok (.done s' buf) ∧
            Returned m buf s'.mem (input.foldl keep []) := by
  obtain ⟨N, hN⟩ := readlineStream_line h.prompt buf (start_visible h.cursor h.start)
  refine ⟨N, fun fuel hfuel input hinput => ?_⟩
  obtain ⟨s, hholds, -, hcall⟩ := hN input hinput
  refine ⟨s, ?_, hholds, fun c more hc => ?_⟩
  · rw [readline, ← List.append_nil (input.map int), hcall fuel hfuel]
    rfl
  · obtain ⟨s', hret, -, hend⟩ := readlineLoop_end hholds hc
    refine ⟨s', ?_, hret⟩
    rw [readline, List.map_append, List.map_cons, hcall fuel hfuel, hend fuel]
    rfl

/-- **What readline shows is what it returns.** At every point of the loop the cells in front of the cursor are the
buffer; when the line ends the buffer is returned, with the same text and a NUL behind it. -/
theorem readline_shows (m : Bytes) (buf : Word) (scr : Crt) (prompt : Ptr) (text : List Byte)
    (h : Callable m scr prompt text) : ∃ N, ∀ fuel, N ≤ fuel → ∀ input : List Byte, (∀ c ∈ input, ¬ EndOfLine c) →
      ∃ s, readline fuel buf prompt m scr (input.map int) = .ok (.on s) ∧ OnScreen m buf s ∧
        ∀ c more, EndOfLine c → ∃ s' l, readline fuel buf prompt m scr ((input ++ c :: more).map int) = .ok (.done s' buf) ∧
          Returned m buf s'.mem l ∧ l.length = s.i ∧
          ∀ j b, l[j]? = some b → (s.scr.buf (s.scr.pos.toNat - s.i + j)).setWidth 8 = b := by
  obtain ⟨N, hN⟩ := readline_holds h buf
  refine ⟨N, fun fuel hfuel input hinput => ?_⟩
  obtain ⟨s, hs, hholds, hend⟩ := hN fuel hfuel input hinput
  refine ⟨s, hs, hholds.onScreen, fun c more hc => ?_⟩
  obtain ⟨s', hs', hret⟩ := hend c more hc
  refine ⟨s', input.foldl keep [], hs', hret, hholds.len.symm, fun j b hj => ?_⟩
  rw [hholds.len]
  exact hholds.shown j b hj

/-- typing on a screen whose cursor is in its last cell -/
theorem readline_shows_lastCell : ∃ N, ∀ fuel, N ≤ fuel →
    ∃ s, readline fuel 0x1000#32 Ptr.null (fun _ => 0#8) lastCell ((str "ab").map int) = .ok (.on s) ∧
      OnScreen (fun _ => 0#8) 0x1000#32 s := by
  obtain ⟨N, hN⟩ := readline_shows (fun _ => 0#8) 0x1000#32 lastCell Ptr.null [] ⟨by decide, rfl, Or.inl rfl⟩
  refine ⟨N, fun fuel hfuel => ?_⟩
  obtain ⟨s, hs, hscreen, -⟩ := hN fuel hfuel (str "ab") (by decide)
  exact ⟨s, hs, hscreen⟩

end Runs

/-! ## The edit fold -/

/-- '\b' and DEL delete the last character if there is one, and what is printable is appended while there is room -/
def edit (l : List Byte) (c : Byte) : List Byte :=
  if Erase c then l.dropLast
  else if 0x20#8 ≤ c ∧ l.length < bufLen - 1 then l ++ [c]
  else l

def edited (input : List Byte) : List Byte := input.foldl edit []

/-- a DEL that was typed on an empty line: whether it is in the line, with room for the next character or without -/
inductive Stray where
  | none
  | held
  | full
deriving DecidableEq, Repr

/-- it is inserted on an empty line of the fold, erased together with the last character, and takes the room of one -/
def Stray.step (n : ℕ) (c : Byte) : Stray → Stray
  | none => if c = 0x7F#8 ∧ n = 0 then held else none
  | held => if Erase c then (if n = 0 then none else held) else if 0x20#8 ≤ c ∧ n = bufLen - 2 then full else held
  | full => if Erase c ∧ n = 1 then none else full

/-- the stray DEL after an input -/
def stray (input : List Byte) : Stray :=
  (input.foldl (fun p c => (p.1.step p.2.length c, edit p.2 c)) (Stray.none, ([] : List Byte))).1

/-- the line that is kept, beside the line of the fold -/
def Beside (l e : List Byte) : Stray → Prop
  | .none => l = e
  | .held => (∃ t, l = 0x7F#8 :: t) ∧ l.length = e.length + 1
  | .full => (∃ t, l = 0x7F#8 :: t) ∧ l.length = e.length

section Fold

variable {l e : List Byte} {x : Stray}

theorem keep_length (l : List Byte) (c : Byte) (h : l.length ≤ bufLen - 1) : (keep l c).length ≤ bufLen - 1 := by
  rw [keep]
  split_ifs with h1 h2
  · rw [List.length_dropLast]
    omega
  · rw [List.length_append, List.length_singleton]
    omega
  · exact h

/-- no erasing character is in the line of the fold -/
theorem edit_clean (h : ∀ c ∈ e, ¬ Erase c) (c : Byte) : ∀ x ∈ edit e c, ¬ Erase x := by
  intro x hx
  rw [edit] at hx
  split_ifs at hx with herase hprint
  · exact h x (List.mem_of_mem_dropLast hx)
  · rcases List.mem_append.1 hx with hx | hx
    · exact h x hx
    · rw [List.mem_singleton.1 hx]
      exact herase
  · exact h x hx

theorem dropLast_cons {a : Byte} {t : List Byte} (h : 1 < (a :: t).length) : ∃ u, (a :: t).dropLast = a :: u := by
  cases t with
  | nil => exact absurd h (lt_irrefl 1)
  | cons b t => exact ⟨_, rfl⟩

theorem keep_erase {c : Byte} (hc : Erase c) (hl : 0 < l.length) : keep l c = l.dropLast := if_pos ⟨hc, hl⟩

theorem keep_char {c : Byte} (hc : ¬ Erase c) :
    keep l c = if 0x20#8 ≤ c ∧ l.length < bufLen - 1 then l ++ [c] else l := if_neg fun h => hc h.1

theorem edit_erase {c : Byte} (hc : Erase c) : edit e c = e.dropLast := if_pos hc

theorem edit_char {c : Byte} (hc : ¬ Erase c) :
    edit e c = if 0x20#8 ≤ c ∧ e.length < bufLen - 1 then e ++ [c] else e := if_neg hc

theorem dropLast_nil {l : List Byte} (h : l.length ≤ 1) : l.dropLast = [] :=
  List.eq_nil_of_length_eq_zero (by rw [List.length_dropLast]; omega)

/-- **One character**, by the kind of stray DEL. -/
theorem Beside.step (h : Beside l e x) (hl : l.length ≤ bufLen - 1) (c : Byte) :
    Beside (keep l c) (edit e c) (x.step e.length c) := by
  have hbuf : bufLen = 1024 := rfl
  have hdel : Erase 0x7F#8 := Or.inr rfl
  cases x with
  | none =>
    have hsame : l = e := h
    subst hsame
    rw [Stray.step]
    by_cases hstray : c = 0x7F#8 ∧ l.length = 0
    · -- DEL is printable, and the branch that erases asks for a character
      obtain ⟨rfl, h0⟩ := hstray
      obtain rfl := List.eq_nil_of_length_eq_zero h0
      rw [if_pos ⟨rfl, rfl⟩, edit_erase hdel]
      exact ⟨⟨[], by decide⟩, by decide⟩
    · rw [if_neg hstray]
      change keep l c = edit l c
      by_cases hc : Erase c
      · by_cases h0 : 0 < l.length
        · rw [keep_erase hc h0, edit_erase hc]
        · have hback : c = 0x08#8 := hc.resolve_right fun h => hstray ⟨h, by omega⟩
          obtain rfl := List.eq_nil_of_length_eq_zero (by omega : l.length = 0)
          rw [hback]
          decide
      · rw [keep_char hc, edit_char hc]
  | held =>
    obtain ⟨⟨t, rfl⟩, hlen⟩ := h
    have hpos : 0 < (0x7F#8 :: t).length := Nat.succ_pos t.length
    rw [Stray.step]
    by_cases hc : Erase c
    · rw [if_pos hc, keep_erase hc hpos, edit_erase hc]
      by_cases h0 : e.length = 0
      · rw [if_pos h0]
        change (0x7F#8 :: t).dropLast = e.dropLast
        rw [dropLast_nil (by omega), dropLast_nil (by omega)]
      · rw [if_neg h0]
        refine ⟨dropLast_cons (by omega), ?_⟩
        rw [List.length_dropLast, List.length_dropLast]
        omega
    · rw [if_neg hc, keep_char hc, edit_char hc]
      by_cases hprint : 0x20#8 ≤ c
      · by_cases hfull : e.length = bufLen - 2
        · have hkeep : ¬ (0x20#8 ≤ c ∧ (0x7F#8 :: t).length < bufLen - 1) := fun h => by omega
          have hedit : 0x20#8 ≤ c ∧ e.length < bufLen - 1 := ⟨hprint, by omega⟩
          rw [if_neg hkeep, if_pos hedit, if_pos ⟨hprint, hfull⟩]
          refine ⟨⟨t, rfl⟩, ?_⟩
          rw [List.length_append, hlen]
          rfl
        · have hkeep : 0x20#8 ≤ c ∧ (0x7F#8 :: t).length < bufLen - 1 := ⟨hprint, by omega⟩
          have hedit : 0x20#8 ≤ c ∧ e.length < bufLen - 1 := ⟨hprint, by omega⟩
          rw [if_pos hkeep, if_pos hedit, if_neg fun h => hfull h.2]
          refine ⟨⟨t ++ [c], rfl⟩, ?_⟩
          rw [List.length_append, List.length_append, hlen]
          rfl
      · rw [if_neg fun h => hprint h.1, if_neg fun h => hprint h.1, if_neg fun h => hprint h.1]
        exact ⟨⟨t, rfl⟩, hlen⟩
  | full =>
    obtain ⟨⟨t, rfl⟩, hlen⟩ := h
    have hpos : 0 < (0x7F#8 :: t).length := Nat.succ_pos t.length
    rw [Stray.step]
    by_cases hc : Erase c
    · rw [keep_erase hc hpos, edit_erase hc]
      by_cases h1 : e.length = 1
      · rw [if_pos ⟨hc, h1⟩]
        change (0x7F#8 :: t).dropLast = e.dropLast
        rw [dropLast_nil (by omega), dropLast_nil (by omega)]
      · rw [List.length_cons] at hlen
        rw [if_neg fun h => h1 h.2]
        refine ⟨dropLast_cons (by rw [List.length_cons]; omega), ?_⟩
        rw [List.length_dropLast, List.length_dropLast, List.length_cons]
        omega
    · rw [if_neg fun h => hc h.1, keep_char hc, edit_char hc, hlen]
      split_ifs with hprint
      · refine ⟨⟨t ++ [c], rfl⟩, ?_⟩
        rw [List.length_append, List.length_append, hlen]
      · exact ⟨⟨t, rfl⟩, hlen⟩

/-- **Any input**: the line that is kept is beside the line of the fold. -/
theorem keep_beside (input : List Byte) : Beside (input.foldl keep []) (edited input) (stray input) := by
  have hrun : ∀ (cs l e : List Byte) (x : Stray), Beside l e x → l.length ≤ bufLen - 1 →
      Beside (cs.foldl keep l) (cs.foldl edit e)
        (cs.foldl (fun p c => (p.1.step p.2.length c, edit p.2 c)) (x, e)).1 := by
    intro cs
    induction cs with
    | nil => exact fun l e x h _ => h
    | cons c cs ih => exact fun l e x h hl => ih _ _ _ (h.step hl c) (keep_length l c hl)
  exact hrun input [] [] .none rfl (Nat.zero_le _)

theorem edited_clean (input : List Byte) : ∀ c ∈ edited input, ¬ Erase c := by
  have hrun : ∀ cs e : List Byte, (∀ c ∈ e, ¬ Erase c) → ∀ c ∈ cs.foldl edit e, ¬ Erase c := by
    intro cs
    induction cs with
    | nil => exact fun e h => h
    | cons c cs ih => exact fun e h => ih _ (edit_clean h c)
  exact hrun input [] fun c hc => absurd hc List.not_mem_nil

/-- the lines are the same exactly if there is no stray DEL -/
theorem Beside.eq_iff (h : Beside l e x) (he : ∀ c ∈ e, ¬ Erase c) : l = e ↔ x = .none := by
  have hdel : Erase 0x7F#8 := Or.inr rfl
  cases x with
  | none => exact iff_of_true h rfl
  | held =>
    obtain ⟨⟨t, rfl⟩, -⟩ := h
    refine iff_of_false ?_ (by decide)
    rintro rfl
    exact he _ List.mem_cons_self hdel
  | full =>
    obtain ⟨⟨t, rfl⟩, -⟩ := h
    refine iff_of_false ?_ (by decide)
    rintro rfl
    exact he _ List.mem_cons_self hdel

end Fold

/-- **The edit fold.** The line that is returned is that of the edit fold, without an erasing character, exactly if every
DEL that was typed on an empty line has been erased again. -/
theorem readline_edits (m : Bytes) (buf : Word) (scr : Crt) (prompt : Ptr) (text : List Byte)
    (h : Callable m scr prompt text) : ∃ N, ∀ fuel, N ≤ fuel → ∀ input : List Byte, (∀ c ∈ input, ¬ EndOfLine c) →
      ∀ c more, EndOfLine c → ∃ s l,
        readline fuel buf prompt m scr ((input ++ c :: more).map int) = .ok (.done s buf) ∧ Returned m buf s.mem l ∧
        ((l = edited input ∧ ∀ x ∈ l, ¬ Erase x) ↔ stray input = .none) := by
  obtain ⟨N, hN⟩ := readline_holds h buf
  refine ⟨N, fun fuel hfuel input hinput c more hc => ?_⟩
  obtain ⟨s, -, -, hend⟩ := hN fuel hfuel input hinput
  obtain ⟨s', hs', hret⟩ := hend c more hc
  refine ⟨s', input.foldl keep [], hs', hret, ?_⟩
  rw [← (keep_beside input).eq_iff (edited_clean input)]
  constructor
  · exact And.left
  · intro heq
    refine ⟨heq, ?_⟩
    rw [heq]
    exact edited_clean input

/-- "ab", erased to "a" -/
theorem readline_edits_ab : ∃ N, ∀ fuel, N ≤ fuel → ∃ s l,
    readline fuel 0x1000#32 Ptr.null (fun _ => 0#8) lastCell ((str "ab\x08\n").map int) = .ok (.done s 0x1000#32) ∧
      Returned (fun _ => 0#8) 0x1000#32 s.mem l ∧ l = str "a" := by
  obtain ⟨N, hN⟩ := readline_edits (fun _ => 0#8) 0x1000#32 lastCell Ptr.null [] ⟨by decide, rfl, Or.inl rfl⟩
  refine ⟨N, fun fuel hfuel => ?_⟩
  obtain ⟨s, l, hs, hret, hiff⟩ := hN fuel hfuel (str "ab\x08") (by decide) (chr '\n') [] (Or.inl rfl)
  have hinput : str "ab\x08\n" = str "ab\x08" ++ chr '\n' :: [] := by decide
  rw [hinput]
  refine ⟨s, l, hs, hret, (hiff.2 (by decide)).1.trans ?_⟩
  decide

/-- DEL and the end of the line: DEL is returned, and the fold has an empty line -/
theorem readline_inserts : ∃ s, readline 0 0x1000#32 Ptr.null (fun _ => 0#8) lastCell [0x7F#32, 0x0A#32] =
      .ok (.done s 0x1000#32) ∧ s.mem 0x1000#32 = 0x7F#8 ∧ s.mem 0x1001#32 = 0#8 ∧ edited [0x7F#8] = [] := by
  refine ⟨_, rfl, rfl, rfl, rfl⟩

end Jos
