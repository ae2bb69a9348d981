/-
The text screen of kern/console.c: cga_putc and cons_putc, against an unbounded terminal.

`Crt` is the screen memory, the 16-bit cursor crt_pos and what goes out to the ports; `writes` is a ghost that records the
index of every store to crt_buf. `Term` is a terminal without a lower end: rows, a cursor, and the window of 25 rows that is
visible. cga_putc moves a flat position and scrolls the memory, the terminal moves a row and a column and shifts its
window. Results:
- `scroll_visible`: scrolling the memory is shifting the window;
- `plain_visible`, `tab_visible`: one call, without and with the five nested calls of a tab;
- `cgaPutc_visible`: one call of cga_putc is one step of the terminal;
- `screen_simulates`: every sequence of calls.
-/
import Jos.Mmu

namespace Jos

/-! ## kern/console.h -/

def crtRows : ℕ := 25
def crtCols : ℕ := 80
def crtSize : ℕ := crtRows * crtCols

structure Crt where
  /-- the words from crt_buf on -/
  buf : ℕ → BitVec 16
  /-- crt_pos -/
  pos : BitVec 16
  addr6845 : Word
  outs : List (Word × BitVec 8)
  /-- ghost: the indices of the stores to crt_buf -/
  writes : List ℕ

namespace Crt

def outb (s : Crt) (port : Word) (v : BitVec 8) : Crt := { s with outs := s.outs ++ [(port, v)] }

/-- `crt_buf[i] = v` -/
def store (s : Crt) (i : ℕ) (v : BitVec 16) : Crt :=
  { s with buf := Function.update s.buf i v, writes := s.writes ++ [i] }

def setPos (s : Crt) (p : BitVec 16) : Crt := { s with pos := p }

/-- `memmove(crt_buf, crt_buf + CRT_COLS, (CRT_SIZE - CRT_COLS) * sizeof(uint16_t))` -/
def moveUp (s : Crt) : Crt :=
  { s with
    buf := fun i => if i < crtSize - crtCols then s.buf (i + crtCols) else s.buf i
    writes := s.writes ++ List.range (crtSize - crtCols) }

/-- `for (i = CRT_SIZE - CRT_COLS; i < CRT_SIZE; i++) crt_buf[i] = 0x0700 | ' '`, n rounds of it -/
def clearFrom (s : Crt) : ℕ → Crt
  | 0 => s
  | n + 1 => (s.clearFrom n).store (crtSize - crtCols + n) 0x0720#16

/-- `if (crt_pos >= CRT_SIZE)` -/
def scroll (s : Crt) : Crt :=
  if crtSize ≤ s.pos.toNat then
    let t := s.moveUp.clearFrom crtCols
    t.setPos (t.pos - BitVec.ofNat 16 crtCols)
  else s

/-- move that little blinky thing -/
def showCursor (s : Crt) : Crt :=
  (((s.outb s.addr6845 14#8).outb (s.addr6845 + 1#32) ((s.pos >>> 8).setWidth 8)).outb s.addr6845 15#8).outb
    (s.addr6845 + 1#32) (s.pos.setWidth 8)

@[simp] theorem showCursor_pos (s : Crt) : s.showCursor.pos = s.pos := rfl
@[simp] theorem showCursor_buf (s : Crt) : s.showCursor.buf = s.buf := rfl

/-- case '\b' -/
def backspace (s : Crt) (c : Word) : Crt :=
  if 0 < s.pos.toNat then
    let s := s.setPos (s.pos - 1#16)
    s.store s.pos.toNat (((c &&& ~~~0xFF#32) ||| 0x20#32).setWidth 16)
  else s

/-- case '\r', into which case '\n' falls -/
def lineStart (s : Crt) : Crt := s.setPos (s.pos - s.pos % BitVec.ofNat 16 crtCols)

/-- case '\n' -/
def newline (s : Crt) : Crt := (s.setPos (s.pos + BitVec.ofNat 16 crtCols)).lineStart

/-- `crt_buf[crt_pos++] = c` -/
def putCell (s : Crt) (c : Word) : Crt := (s.store s.pos.toNat (c.setWidth 16)).setPos (s.pos + 1#16)

end Crt

/-- serial_putc, without the wait for COM_LSR_TXRDY -/
def serialPutc (c : Word) (s : Crt) : Crt := s.outb 0x3F8 (c.setWidth 8)

/-- lpt_putc, without the wait -/
def lptPutc (c : Word) (s : Crt) : Crt :=
  ((s.outb 0x378 (c.setWidth 8)).outb 0x37A 0x0D#8).outb 0x37A 0x08#8

/-- if no attribute given, then use black on white -/
def withAttr (c : Word) : Word := if c &&& ~~~0xFF#32 = 0#32 then c ||| 0x0700#32 else c

mutual

def cgaPutc (c : Word) (s : Crt) : Crt :=
  if withAttr c &&& 0xFF#32 = 0x08#32 then (s.backspace (withAttr c)).scroll.showCursor
  else if withAttr c &&& 0xFF#32 = 0x0A#32 then s.newline.scroll.showCursor
  else if withAttr c &&& 0xFF#32 = 0x0D#32 then s.lineStart.scroll.showCursor
  else if withAttr c &&& 0xFF#32 = 0x09#32 then
    (consPutc 0x20#32 (consPutc 0x20#32 (consPutc 0x20#32 (consPutc 0x20#32 (consPutc 0x20#32 s))))).scroll.showCursor
  else (s.putCell (withAttr c)).scroll.showCursor
termination_by if withAttr c &&& 0xFF#32 = 0x09#32 then 2 else 0
decreasing_by
  all_goals
    have hsp : ¬ withAttr 0x20#32 &&& 0xFF#32 = 0x09#32 := by decide
    rename_i htab
    rw [if_neg hsp, if_pos htab]
    decide

def consPutc (c : Word) (s : Crt) : Crt := cgaPutc c (lptPutc c (serialPutc c s))
termination_by (if withAttr c &&& 0xFF#32 = 0x09#32 then 2 else 0) + 1
decreasing_by exact Nat.lt_succ_self _

end

/-- a sequence of calls -/
def cgaPuts (s : Crt) (cs : List Word) : Crt := cs.foldl (fun s c => cgaPutc c s) s

/-! ## The terminal -/

/-- black on white -/
def blankCell : BitVec 16 := 0x0720#16

structure Term where
  /-- all rows there have been and will be -/
  rows : ℕ → ℕ → BitVec 16
  /-- first row of the visible window -/
  top : ℕ
  row : ℕ
  col : ℕ

namespace Term

/-- the window moves down one row when the cursor has left it -/
def follow (t : Term) : Term := if t.row = t.top + crtRows then { t with top := t.top + 1 } else t

def write (t : Term) (v : BitVec 16) : Term :=
  { t with rows := Function.update t.rows t.row (Function.update (t.rows t.row) t.col v) }

def advance (t : Term) : Term :=
  if t.col + 1 = crtCols then { t with row := t.row + 1, col := 0 } else { t with col := t.col + 1 }

def back (t : Term) (v : BitVec 16) : Term :=
  if t.col ≠ 0 then { t with col := t.col - 1 }.write v
  else if t.row ≠ t.top then { t with row := t.row - 1, col := crtCols - 1 }.write v
  else t

def put (t : Term) (v : BitVec 16) : Term := (t.write v).advance.follow

/-- one character -/
def putc (t : Term) (c : Word) : Term :=
  if c &&& 0xFF#32 = 0x08#32 then t.back (((withAttr c &&& ~~~0xFF#32) ||| 0x20#32).setWidth 16)
  else if c &&& 0xFF#32 = 0x0A#32 then { t with row := t.row + 1, col := 0 }.follow
  else if c &&& 0xFF#32 = 0x0D#32 then { t with col := 0 }
  else if c &&& 0xFF#32 = 0x09#32 then (List.replicate 5 blankCell).foldl put t
  else t.put ((withAttr c).setWidth 16)

def puts (t : Term) (cs : List Word) : Term := cs.foldl putc t

end Term

/-- the terminal that shows a screen: nothing above it, blank rows below -/
def Crt.term (s : Crt) : Term where
  rows := fun r c => if r < crtRows then s.buf (r * crtCols + c) else blankCell
  top := 0
  row := s.pos.toNat / crtCols
  col := s.pos.toNat % crtCols

/-- the four bytes that put the blinking cursor at crt_pos -/
def Crt.cursorOuts (s : Crt) : List (Word × BitVec 8) :=
  [(s.addr6845, 14#8), (s.addr6845 + 1#32, (s.pos >>> 8).setWidth 8), (s.addr6845, 15#8),
    (s.addr6845 + 1#32, s.pos.setWidth 8)]

/-- the screen memory is the window; the cursor may have left it at the bottom -/
structure Frame (s : Crt) (t : Term) : Prop where
  pos : s.pos.toNat = (t.row - t.top) * crtCols + t.col
  top : t.top ≤ t.row
  bottom : t.row ≤ t.top + crtRows
  col : t.col < crtCols
  cells : ∀ r < crtRows, ∀ c < crtCols, s.buf (r * crtCols + c) = t.rows (t.top + r) c
  blank : ∀ r, t.top + crtRows ≤ r → ∀ c, t.rows r c = blankCell
  inside : ∀ i ∈ s.writes, i < crtSize

/-- the screen shows the window and the cursor in it -/
def Visible (s : Crt) (t : Term) : Prop := Frame s t ∧ t.row < t.top + crtRows

section Simulation

variable {s : Crt} {t : Term}

theorem Frame.lt_size_iff (h : Frame s t) : s.pos.toNat < crtSize ↔ t.row < t.top + crtRows := by
  obtain ⟨hp, ht, hb, hc, -, -, -⟩ := h
  simp only [crtSize, crtRows, crtCols] at *
  omega

theorem Visible.lt_size (h : Visible s t) : s.pos.toNat < crtSize := h.1.lt_size_iff.2 h.2

/-! ### Scrolling -/

theorem buf_clearFrom (n i : ℕ) : (s.clearFrom n).buf i =
    if crtSize - crtCols ≤ i ∧ i < crtSize - crtCols + n then blankCell else s.buf i := by
  induction n with
  | zero => rw [Crt.clearFrom, if_neg (by omega)]
  | succ n ih =>
    by_cases hi : i = crtSize - crtCols + n
    · subst hi
      rw [if_pos ⟨by omega, by omega⟩]
      exact Function.update_self ..
    · rw [Crt.clearFrom, Crt.store]
      simp only [Function.update_of_ne hi, ih]
      exact if_congr (by omega) rfl rfl

theorem pos_clearFrom (n : ℕ) : (s.clearFrom n).pos = s.pos := by
  induction n with
  | zero => rfl
  | succ n ih => exact ih

theorem mem_writes_clearFrom {n i : ℕ} (h : i ∈ (s.clearFrom n).writes) :
    i ∈ s.writes ∨ i < crtSize - crtCols + n := by
  induction n with
  | zero => exact Or.inl h
  | succ n ih =>
    rcases List.mem_append.1 h with h | h
    · rcases ih h with h | h
      · exact Or.inl h
      · exact Or.inr (by omega)
    · obtain rfl := List.mem_singleton.1 h
      exact Or.inr (by omega)

/-- **Scrolling the memory is shifting the window.** One scroll is enough. -/
theorem scroll_visible (h : Frame s t) : Visible s.scroll t.follow := by
  by_cases hrow : t.row = t.top + crtRows
  · have hge : crtSize ≤ s.pos.toNat := not_lt.1 fun hlt => absurd (h.lt_size_iff.1 hlt) (by omega)
    obtain ⟨hp, ht, hb, hc, hcells, hblank, hin⟩ := h
    rw [Crt.scroll, if_pos hge, Term.follow, if_pos hrow]
    refine ⟨⟨?_, ?_, ?_, hc, ?_, fun r hr c => hblank r (by simp only at hr; omega) c, ?_⟩, ?_⟩
    · have hpos : (s.moveUp.clearFrom crtCols).pos = s.pos := pos_clearFrom crtCols
      have hle : BitVec.ofNat 16 crtCols ≤ s.pos := by
        rw [BitVec.le_def]
        exact le_trans (by decide) hge
      simp only [Crt.setPos, hpos]
      rw [BitVec.toNat_sub_of_le hle, hp, hrow, show (BitVec.ofNat 16 crtCols).toNat = crtCols from rfl]
      simp only [crtRows, crtCols] at *
      omega
    · change t.top + 1 ≤ t.row
      rw [hrow, crtRows]
      omega
    · change t.row ≤ t.top + 1 + crtRows
      omega
    · intro r hr c hcol
      simp only [Crt.setPos]
      rw [buf_clearFrom]
      by_cases hlast : r + 1 = crtRows
      · rw [if_pos (by simp only [crtSize, crtRows, crtCols] at *; omega)]
        exact (hblank _ (show t.top + crtRows ≤ t.top + 1 + r by omega) c).symm
      · rw [if_neg (by simp only [crtSize, crtRows, crtCols] at *; omega)]
        have hlt : r * crtCols + c < crtSize - crtCols := by
          simp only [crtSize, crtRows, crtCols] at *
          omega
        have hup : s.moveUp.buf (r * crtCols + c) = s.buf ((r + 1) * crtCols + c) := by
          rw [Crt.moveUp]
          simp only [if_pos hlt]
          congr 1
          simp only [crtCols]
          omega
        rw [hup, hcells (r + 1) (by omega) c hcol, Nat.add_comm r 1, ← Nat.add_assoc]
    · intro i hi
      rcases mem_writes_clearFrom hi with hi | hi
      · rcases List.mem_append.1 hi with hi | hi
        · exact hin i hi
        · exact lt_of_lt_of_le (List.mem_range.1 hi) (Nat.sub_le _ _)
      · exact lt_of_lt_of_le hi (by decide)
    · change t.row < t.top + 1 + crtRows
      omega
  · have hlt : t.row < t.top + crtRows := lt_of_le_of_ne h.bottom hrow
    rw [Crt.scroll, if_neg (not_le.2 (h.lt_size_iff.2 hlt)), Term.follow, if_neg hrow]
    exact ⟨h, hlt⟩

/-! ### One call -/

theorem Frame.outb (h : Frame s t) (port : Word) (v : BitVec 8) : Frame (s.outb port v) t :=
  ⟨h.pos, h.top, h.bottom, h.col, h.cells, h.blank, h.inside⟩

theorem Visible.outb (h : Visible s t) (port : Word) (v : BitVec 8) : Visible (s.outb port v) t := ⟨h.1.outb port v, h.2⟩

theorem Visible.showCursor (h : Visible s t) : Visible s.showCursor t := (((h.outb _ _).outb _ _).outb _ _).outb _ _

/-- the cursor moves and nothing is written -/
theorem Frame.setPos (h : Frame s t) {p : BitVec 16} {row col : ℕ} (hp : p.toNat = (row - t.top) * crtCols + col)
    (ht : t.top ≤ row) (hb : row ≤ t.top + crtRows) (hc : col < crtCols) :
    Frame (s.setPos p) { t with row := row, col := col } :=
  ⟨hp, ht, hb, hc, h.cells, h.blank, h.inside⟩

/-- a character goes to the cursor cell -/
theorem Visible.store (h : Visible s t) (v : BitVec 16) : Visible (s.store s.pos.toNat v) (t.write v) := by
  have hlt := h.lt_size
  obtain ⟨⟨hp, ht, hb, hc, hcells, hblank, hin⟩, hrow⟩ := h
  refine ⟨⟨hp, ht, hb, hc, ?_, ?_, ?_⟩, hrow⟩
  · -- the flat index is the cursor's exactly in the cursor's row and column
    intro r hr c hcol
    have hidx : r * crtCols + c = s.pos.toNat ↔ t.top + r = t.row ∧ c = t.col := by
      rw [hp]
      simp only [crtCols] at *
      omega
    simp only [Crt.store, Term.write]
    by_cases hr' : t.top + r = t.row
    · rw [hr', Function.update_self]
      by_cases hc' : c = t.col
      · rw [hidx.2 ⟨hr', hc'⟩, hc', Function.update_self, Function.update_self]
      · rw [Function.update_of_ne hc', Function.update_of_ne fun h => hc' (hidx.1 h).2, hcells r hr c hcol, hr']
    · rw [Function.update_of_ne hr', Function.update_of_ne fun h => hr' (hidx.1 h).1, hcells r hr c hcol]
  · intro r hr c
    have hne : r ≠ t.row := fun h => absurd hrow (not_lt.2 (h ▸ hr))
    simp only [Term.write]
    rw [Function.update_of_ne hne]
    exact hblank r hr c
  · intro i hi
    rcases List.mem_append.1 hi with hi | hi
    · exact hin i hi
    · obtain rfl := List.mem_singleton.1 hi
      exact hlt

/-- default: the cell is written and the cursor advances, out of the window if it must -/
theorem Visible.putCell (h : Visible s t) (c : Word) :
    Frame (s.putCell c) (t.write (c.setWidth 16)).advance := by
  have hlt := h.lt_size
  obtain ⟨hf, hrow⟩ := h.store (c.setWidth 16)
  have hpos : (s.pos + 1#16).toNat = s.pos.toNat + 1 := by
    rw [BitVec.toNat_add]
    simp only [crtSize, crtRows, crtCols] at hlt
    simp
    omega
  have hp : s.pos.toNat = (t.row - t.top) * crtCols + t.col := hf.pos
  have htop : t.top ≤ t.row := hf.top
  have hcol : t.col < crtCols := hf.col
  rw [Crt.putCell, Term.advance]
  split_ifs with hend
  · refine hf.setPos ?_ (le_trans htop (Nat.le_succ _)) hrow (by decide)
    change t.col + 1 = crtCols at hend
    change (s.pos + 1#16).toNat = (t.row + 1 - t.top) * crtCols + 0
    rw [hpos, hp, Nat.sub_add_comm htop, Nat.succ_mul]
    omega
  · refine hf.setPos ?_ htop (le_of_lt hrow) (lt_of_le_of_ne hcol hend)
    change (s.pos + 1#16).toNat = (t.row - t.top) * crtCols + (t.col + 1)
    omega

/-- case '\r' -/
theorem Frame.lineStart (h : Frame s t) : Frame s.lineStart { t with col := 0 } := by
  refine h.setPos ?_ h.top h.bottom (by decide)
  have hmod : (s.pos % BitVec.ofNat 16 crtCols).toNat = t.col := by
    rw [BitVec.toNat_umod, show (BitVec.ofNat 16 crtCols).toNat = crtCols from rfl, h.pos, Nat.mul_comm,
      Nat.mul_add_mod, Nat.mod_eq_of_lt h.col]
  have hp := h.pos
  have hle : s.pos % BitVec.ofNat 16 crtCols ≤ s.pos := by
    rw [BitVec.le_def, hmod]
    omega
  rw [BitVec.toNat_sub_of_le hle, hmod]
  omega

/-- case '\n', out of the window on the last row -/
theorem Visible.newline (h : Visible s t) : Frame s.newline { t with row := t.row + 1, col := 0 } := by
  have hlt := h.lt_size
  obtain ⟨hf, hrow⟩ := h
  have hpos : (s.pos + BitVec.ofNat 16 crtCols).toNat = s.pos.toNat + crtCols := by
    rw [BitVec.toNat_add]
    simp only [crtSize, crtRows, crtCols] at hlt ⊢
    simp
    omega
  have hdown : Frame (s.setPos (s.pos + BitVec.ofNat 16 crtCols)) { t with row := t.row + 1, col := t.col } := by
    refine hf.setPos ?_ (le_trans hf.top (Nat.le_succ _)) hrow hf.col
    rw [hpos, hf.pos, Nat.sub_add_comm hf.top, Nat.succ_mul]
    omega
  exact hdown.lineStart

/-- case '\b' -/
theorem Visible.backspace (h : Visible s t) (c : Word) :
    Visible (s.backspace c) (t.back (((c &&& ~~~0xFF#32) ||| 0x20#32).setWidth 16)) := by
  obtain ⟨hf, hrow⟩ := h
  obtain ⟨hp, htop, hcol⟩ := And.intro hf.pos (And.intro hf.top hf.col)
  have hpos : 0 < s.pos.toNat → (s.pos - 1#16).toNat = s.pos.toNat - 1 := by
    intro h0
    exact BitVec.toNat_sub_of_le (show (1#16).toNat ≤ s.pos.toNat from h0)
  rw [Crt.backspace, Term.back]
  by_cases hc0 : t.col = 0
  · by_cases hr0 : t.row = t.top
    · rw [if_neg (not_not.2 hc0), if_neg (not_not.2 hr0), if_neg (by rw [hp, hr0, hc0]; simp)]
      exact ⟨hf, hrow⟩
    · -- the cursor goes back to the end of the row above
      have h0 : 0 < s.pos.toNat := by
        rw [hp]
        exact Nat.add_pos_left (Nat.mul_pos (by omega) (by decide)) _
      rw [if_neg (not_not.2 hc0), if_pos hr0, if_pos h0]
      have hleft : Visible (s.setPos (s.pos - 1#16)) { t with row := t.row - 1, col := crtCols - 1 } := by
        refine ⟨hf.setPos ?_ (by omega) (le_trans (Nat.sub_le _ _) (le_of_lt hrow)) (by decide), ?_⟩
        · obtain ⟨k, hk⟩ : ∃ k, t.row = t.top + k + 1 := ⟨t.row - t.top - 1, by omega⟩
          rw [hpos h0, hp, hc0, hk]
          simp only [crtCols]
          omega
        · change t.row - 1 < t.top + crtRows
          omega
      exact hleft.store _
  · have h0 : 0 < s.pos.toNat := by omega
    rw [if_pos hc0, if_pos h0]
    have hleft : Visible (s.setPos (s.pos - 1#16)) { t with row := t.row, col := t.col - 1 } := by
      refine ⟨hf.setPos ?_ htop (le_of_lt hrow) (by omega), hrow⟩
      rw [hpos h0]
      omega
    exact hleft.store _

/-- no scroll while the cursor is in the window -/
theorem Visible.scroll (h : Visible s t) : s.scroll = s := if_neg (not_le.2 h.lt_size)

theorem withAttr_char (c : Word) : withAttr c &&& 0xFF#32 = c &&& 0xFF#32 := by
  rw [withAttr]
  split_ifs
  · have hattr : (0x0700#32 : Word) &&& 0xFF#32 = 0#32 := by decide
    rw [BitVec.and_comm, BitVec.and_or_distrib_left, BitVec.and_comm 0xFF#32 0x0700#32, hattr, BitVec.or_zero,
      BitVec.and_comm]
  · rfl

/-- the characters that are written to a cell -/
def Plain (c : Word) : Prop := c &&& 0xFF#32 ∉ [0x08#32, 0x0A#32, 0x0D#32, 0x09#32]

instance : DecidablePred Plain := fun c =>
  inferInstanceAs (Decidable (c &&& 0xFF#32 ∉ [0x08#32, 0x0A#32, 0x0D#32, 0x09#32]))

theorem cgaPutc_plain {c : Word} (hc : Plain c) (s : Crt) :
    cgaPutc c s = (s.putCell (withAttr c)).scroll.showCursor := by
  have hne : ∀ d ∈ [0x08#32, 0x0A#32, 0x0D#32, 0x09#32], ¬ c &&& 0xFF#32 = d := by
    rintro d hd rfl
    exact hc hd
  rw [cgaPutc, withAttr_char, if_neg (hne _ (by decide)), if_neg (hne _ (by decide)), if_neg (hne _ (by decide)),
    if_neg (hne _ (by decide))]

/-- a call without a tab -/
theorem plain_visible (h : Visible s t) {c : Word} (htab : c &&& 0xFF#32 ≠ 0x09#32) : Visible (cgaPutc c s) (t.putc c) := by
  rw [cgaPutc, Term.putc, withAttr_char]
  by_cases hb : c &&& 0xFF#32 = 0x08#32
  · have hback := h.backspace (withAttr c)
    rw [if_pos hb, if_pos hb, hback.scroll]
    exact hback.showCursor
  rw [if_neg hb, if_neg hb]
  by_cases hn : c &&& 0xFF#32 = 0x0A#32
  · rw [if_pos hn, if_pos hn]
    exact (scroll_visible h.newline).showCursor
  rw [if_neg hn, if_neg hn]
  by_cases hr : c &&& 0xFF#32 = 0x0D#32
  · have hstart : Visible s.lineStart { t with col := 0 } := ⟨h.1.lineStart, h.2⟩
    rw [if_pos hr, if_pos hr, hstart.scroll]
    exact hstart.showCursor
  rw [if_neg hr, if_neg hr, if_neg htab, if_neg htab]
  exact (scroll_visible (h.putCell (withAttr c))).showCursor

/-- cons_putc(' ') -/
theorem space_visible (h : Visible s t) : Visible (consPutc 0x20#32 s) (t.put blankCell) := by
  have hout : Visible (lptPutc 0x20#32 (serialPutc 0x20#32 s)) t := (((h.outb _ _).outb _ _).outb _ _).outb _ _
  have hcell : t.putc 0x20#32 = t.put blankCell := by
    rw [Term.putc, if_neg (by decide), if_neg (by decide), if_neg (by decide), if_neg (by decide)]
    rfl
  rw [consPutc, ← hcell]
  exact plain_visible hout (by decide)

theorem putc_tab {c : Word} (htab : c &&& 0xFF#32 = 0x09#32) : t.putc c =
    ((((t.put blankCell).put blankCell).put blankCell).put blankCell).put blankCell := by
  have hne : ∀ d : Word, d ≠ 0x09#32 → ¬ c &&& 0xFF#32 = d := fun d hd heq => hd (heq.symm.trans htab)
  rw [Term.putc, if_neg (hne _ (by decide)), if_neg (hne _ (by decide)), if_neg (hne _ (by decide)), if_pos htab]
  simp only [List.replicate, List.foldl]

/-- a call with a tab: five calls of cons_putc and one more test for a scroll, which never scrolls -/
theorem tab_visible (h : Visible s t) {c : Word} (htab : c &&& 0xFF#32 = 0x09#32) : Visible (cgaPutc c s) (t.putc c) := by
  have h5 := space_visible (space_visible (space_visible (space_visible (space_visible h))))
  have hne : ∀ d : Word, d ≠ 0x09#32 → ¬ c &&& 0xFF#32 = d := fun d hd heq => hd (heq.symm.trans htab)
  rw [putc_tab htab, cgaPutc, withAttr_char, if_neg (hne _ (by decide)), if_neg (hne _ (by decide)),
    if_neg (hne _ (by decide)), if_pos htab, h5.scroll]
  exact h5.showCursor

/-- **One call of cga_putc is one step of the terminal.** -/
theorem cgaPutc_visible (h : Visible s t) (c : Word) : Visible (cgaPutc c s) (t.putc c) := by
  by_cases htab : c &&& 0xFF#32 = 0x09#32
  · exact tab_visible h htab
  · exact plain_visible h htab

/-- the cursor registers get the position after the call -/
theorem cgaPutc_cursor (c : Word) (s : Crt) : ∃ o, (cgaPutc c s).outs = o ++ (cgaPutc c s).cursorOuts := by
  obtain ⟨u, hu⟩ : ∃ u : Crt, cgaPutc c s = u.showCursor := by
    rw [cgaPutc]
    split_ifs <;> exact ⟨_, rfl⟩
  refine ⟨u.outs, ?_⟩
  rw [hu]
  simp [Crt.showCursor, Crt.outb, Crt.cursorOuts]

theorem cgaPuts_visible (h : Visible s t) (cs : List Word) : Visible (cgaPuts s cs) (t.puts cs) := by
  induction cs generalizing s t with
  | nil => exact h
  | cons c cs ih => exact ih (cgaPutc_visible h c)

theorem start_visible (hpos : s.pos.toNat < crtSize) (hw : s.writes = []) : Visible s s.term := by
  have hdiv := Nat.div_add_mod' s.pos.toNat crtCols
  have hrow : s.pos.toNat / crtCols < crtRows := Nat.div_lt_of_lt_mul (by rwa [Nat.mul_comm])
  refine ⟨⟨hdiv.symm, Nat.zero_le _, ?_, Nat.mod_lt _ (by decide), ?_, ?_, ?_⟩, ?_⟩
  · exact le_trans (le_of_lt hrow) (Nat.le_add_left _ _)
  · intro r hr c _
    change _ = if 0 + r < crtRows then s.buf ((0 + r) * crtCols + c) else blankCell
    rw [Nat.zero_add, if_pos hr]
  · intro r hr c
    change (if r < crtRows then _ else _) = _
    rw [if_neg (not_lt.2 (le_trans (Nat.le_add_left _ _) hr))]
  · rw [hw]
    exact fun i hi => absurd hi List.not_mem_nil
  · exact lt_of_lt_of_le hrow (Nat.le_add_left _ _)

end Simulation

/-- **The text screen is the window of an unbounded terminal.** From every screen with the cursor inside and after every
sequence of calls: crt_pos is inside and every store to crt_buf was; the cells are the visible rows, the position is the
terminal's cursor in the window, and the last bytes sent to the ports put the blinking cursor there. -/
theorem screen_simulates (s : Crt) (hpos : s.pos.toNat < crtSize) (hw : s.writes = []) (cs : List Word) :
    (cgaPuts s cs).pos.toNat < crtSize ∧
    (∀ i ∈ (cgaPuts s cs).writes, i < crtSize) ∧
    (∀ r < crtRows, ∀ c < crtCols,
      (cgaPuts s cs).buf (r * crtCols + c) = (s.term.puts cs).rows ((s.term.puts cs).top + r) c) ∧
    (s.term.puts cs).top ≤ (s.term.puts cs).row ∧
    (cgaPuts s cs).pos.toNat =
      ((s.term.puts cs).row - (s.term.puts cs).top) * crtCols + (s.term.puts cs).col ∧
    (s.term.puts cs).col < crtCols ∧
    (cs ≠ [] → ∃ o, (cgaPuts s cs).outs = o ++ (cgaPuts s cs).cursorOuts) := by
  have h := cgaPuts_visible (start_visible hpos hw) cs
  refine ⟨h.lt_size, h.1.inside, h.1.cells, h.1.top, h.1.pos, h.1.col, fun hne => ?_⟩
  obtain ⟨cs, c, rfl⟩ := List.eq_nil_or_concat cs |>.resolve_left hne
  rw [List.concat_eq_append, cgaPuts, List.foldl_append]
  exact cgaPutc_cursor c _

/-- a full screen of '*' with the cursor in its last cell -/
def lastCell : Crt :=
  { buf := fun _ => 0x072A#16, pos := 1999#16, addr6845 := 0x3D4#32, outs := [], writes := [] }

theorem screen_simulates_lastCell :
    lastCell.pos.toNat < crtSize ∧ lastCell.writes = [] ∧
    (cgaPuts lastCell [0x41#32, 0x09#32, 0x08#32]).pos.toNat < crtSize :=
  ⟨by decide, rfl, (screen_simulates lastCell (by decide) rfl [0x41#32, 0x09#32, 0x08#32]).1⟩

end Jos
