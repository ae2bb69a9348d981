/-
Console output at the devices: serial_init, cga_init and cons_init of kern/console.c, and what the bytes that cons_putc
sends to the ports come to.

`Ports` is what the three devices make of them: a serial port whose first two registers are the divisor latch while DLAB is
set, a printer that takes a byte when the strobe line goes up, and the index and data registers of the text screen's
controller. Results:
- `putc_devices`: a call of cons_putc sends the character, and five spaces behind a tab, and moves the cursor;
- `init_ready`: what cons_init makes of the ports;
- `console_devices`: from cons_init on both lines carry the text that is printed, and the screen shows it.
-/
import Jos.Console.Readline
import Jos.Printf.Texts

namespace Jos

open Jos.Lib

/-! ## The devices -/

structure Uart where
  lcr : BitVec 8
  dll : BitVec 8
  dlm : BitVec 8
  ier : BitVec 8
  fcr : BitVec 8
  mcr : BitVec 8
  /-- the bytes on the line -/
  sent : List (BitVec 8)

/-- Divisor latch access bit -/
def Uart.dlab (u : Uart) : Bool := u.lcr.getLsbD 7

def Uart.out (u : Uart) (reg : ℕ) (v : BitVec 8) : Uart :=
  match reg with
  | 0 => if u.dlab then { u with dll := v } else { u with sent := u.sent ++ [v] }
  | 1 => if u.dlab then { u with dlm := v } else { u with ier := v }
  | 2 => { u with fcr := v }
  | 3 => { u with lcr := v }
  | 4 => { u with mcr := v }
  | _ => u

structure Printer where
  data : BitVec 8
  control : BitVec 8
  printed : List (BitVec 8)

/-- the strobe line -/
def Printer.strobe (p : Printer) : Bool := p.control.getLsbD 0

def Printer.out (p : Printer) (reg : ℕ) (v : BitVec 8) : Printer :=
  match reg with
  | 0 => { p with data := v }
  | 2 => { p with control := v, printed := if v.getLsbD 0 ∧ ¬ p.strobe then p.printed ++ [p.data] else p.printed }
  | _ => p

/-- the 6845 -/
structure Crtc where
  index : BitVec 8
  regs : BitVec 8 → BitVec 8

def Crtc.out (r : Crtc) (reg : ℕ) (v : BitVec 8) : Crtc :=
  match reg with
  | 0 => { r with index := v }
  | _ => { r with regs := Function.update r.regs r.index v }

/-- the position in registers 14 and 15 -/
def Crtc.cursor (r : Crtc) : BitVec 16 := ((r.regs 14#8).setWidth 16 <<< 8) ||| (r.regs 15#8).setWidth 16

structure Ports where
  uart : Uart
  printer : Printer
  crtc : Crtc

/-- outb, with the 6845 at the given address -/
def Ports.outb (base : Word) (h : Ports) (w : Word × BitVec 8) : Ports :=
  if w.1 = 0x3F8#32 ∨ w.1 = 0x3F9#32 ∨ w.1 = 0x3FA#32 ∨ w.1 = 0x3FB#32 ∨ w.1 = 0x3FC#32 then
    { h with uart := h.uart.out (w.1 - 0x3F8#32).toNat w.2 }
  else if w.1 = 0x378#32 ∨ w.1 = 0x379#32 ∨ w.1 = 0x37A#32 then
    { h with printer := h.printer.out (w.1 - 0x378#32).toNat w.2 }
  else if w.1 = base ∨ w.1 = base + 1#32 then { h with crtc := h.crtc.out (w.1 - base).toNat w.2 }
  else h

/-- the devices after the bytes that have been sent -/
def Crt.ports (s : Crt) (h : Ports) : Ports := s.outs.foldl (Ports.outb s.addr6845) h

/-! ## kern/console.c -/

/-- `CGA_BASE`, `MONO_BASE` -/
def cgaBase : Word := 0x3D4
def monoBase : Word := 0x3B4

/-- the adapter that is there: a store to CGA_BUF is read back or not -/
structure Display where
  cga : Bool
  /-- the words at CGA_BUF or MONO_BUF -/
  cells : ℕ → BitVec 16
  crtc : Crtc

/-- the word at CGA_BUF is put back -/
def cgaInit (d : Display) : Crt :=
  let s : Crt :=
    if d.cga then
      { buf := Function.update (Function.update d.cells 0 0xA55A#16) 0 (d.cells 0)
        pos := 0#16, addr6845 := cgaBase, outs := [], writes := [] }
    else { buf := d.cells, pos := 0#16, addr6845 := monoBase, outs := [], writes := [] }
  -- Extract cursor location
  let pos := (d.crtc.regs 14#8).setWidth 32 <<< 8
  let pos := pos ||| ((d.crtc.regs 15#8).setWidth 32 : Word)
  ((s.outb s.addr6845 14#8).outb s.addr6845 15#8).setPos (pos.setWidth 16)

/-- lsr is what inb(COM1+COM_LSR) returns -/
def serialInit (lsr : BitVec 8) (s : Crt) : Crt × Bool :=
  -- Turn off the FIFO
  let s := s.outb (0x3F8 + 2) 0#8
  -- Set speed; requires DLAB latch
  let s := s.outb (0x3F8 + 3) 0x80#8
  let s := s.outb (0x3F8 + 0) (BitVec.ofNat 8 (115200 / 9600))
  let s := s.outb (0x3F8 + 1) 0#8
  -- 8 data bits, 1 stop bit, parity off; turn off DLAB latch
  let s := s.outb (0x3F8 + 3) (0x03#8 &&& ~~~0x80#8)
  -- No modem controls
  let s := s.outb (0x3F8 + 4) 0#8
  -- Enable rcv interrupts
  let s := s.outb (0x3F8 + 1) 0x01#8
  (s, lsr ≠ 0xFF#8)

/-- cons_init; kbd_init does nothing -/
def consInit (fuel : ℕ) (d : Display) (lsr : BitVec 8) (m : Bytes) : Except Stop (Crt × Bool) := do
  let (s, serialExists) := serialInit lsr (cgaInit d)
  if serialExists then return (s, serialExists)
  else
    let r ← vcprintf fuel (.lit (str "Serial port does not exist!\n") 0) (VaList.ofWords fun _ => 0#32) m
    return (cputchars s r.2.out, serialExists)

/-! ## What is sent -/

/-- the bytes of a character; cga_putc sends five spaces for a tab -/
def lineBytes (c : Word) : List (BitVec 8) := c.setWidth 8 :: if c &&& 0xFF#32 = 0x09#32 then List.replicate 5 0x20#8 else []

/-- 9600 baud, 8 data bits, 1 stop bit, no FIFO, interrupts on receipt -/
structure Nine600 (u : Uart) : Prop where
  divisor : u.dll = 12#8 ∧ u.dlm = 0#8
  format : u.lcr = 3#8
  fifo : u.fcr = 0#8
  modem : u.mcr = 0#8
  interrupt : u.ier = 1#8

/-- the devices are set up, and l has gone over both lines since h -/
structure Sent (h : Ports) (s : Crt) (l : List (BitVec 8)) : Prop where
  addr : s.addr6845 = cgaBase ∨ s.addr6845 = monoBase
  settings : Nine600 (s.ports h).uart
  sent : (s.ports h).uart.sent = h.uart.sent ++ l
  strobe : (s.ports h).printer.strobe = false
  printed : (s.ports h).printer.printed = h.printer.printed ++ l

section Devices

variable {s t : Crt} {h : Ports} {l : List (BitVec 8)} {base : Word}

theorem ports_outb (s : Crt) (h : Ports) (port : Word) (v : BitVec 8) :
    (s.outb port v).ports h = (s.ports h).outb s.addr6845 (port, v) := by
  rw [Crt.ports, Crt.outb, Crt.ports, List.foldl_append]
  rfl

theorem outb_uart (h : Ports) {reg : Word} (hreg : reg ∈ [0x3F8#32, 0x3F9#32, 0x3FA#32, 0x3FB#32, 0x3FC#32]) (v : BitVec 8) :
    h.outb base (reg, v) = { h with uart := h.uart.out (reg - 0x3F8#32).toNat v } := by
  simp only [List.mem_cons, List.not_mem_nil, or_false] at hreg
  exact if_pos hreg

theorem outb_lpt (h : Ports) {reg : Word} (hreg : reg = 0x378#32 ∨ reg = 0x37A#32) (v : BitVec 8) :
    h.outb base (reg, v) = { h with printer := h.printer.out (reg - 0x378#32).toNat v } := by
  rcases hreg with rfl | rfl
  · simp [Ports.outb]
  · simp [Ports.outb]

/-- the index register and the data register -/
theorem outb_crtc (h : Ports) (hbase : base = cgaBase ∨ base = monoBase) (v : BitVec 8) :
    h.outb base (base, v) = { h with crtc := { h.crtc with index := v } } ∧
      h.outb base (base + 1#32, v) = { h with crtc := { h.crtc with regs := Function.update h.crtc.regs h.crtc.index v } } := by
  rcases hbase with rfl | rfl
  · simp [Ports.outb, Crtc.out, cgaBase]
  · simp [Ports.outb, Crtc.out, monoBase]

/-- the screen memory and crt_pos are not at the ports -/
theorem Sent.screen (hs : Sent h s l) (houts : t.outs = s.outs) (haddr : t.addr6845 = s.addr6845) : Sent h t l := by
  have hports : t.ports h = s.ports h := by
    rw [Crt.ports, Crt.ports, houts, haddr]
  obtain ⟨h1, h2, h3, h4, h5⟩ := hs
  rw [← haddr] at h1
  rw [← hports] at h2 h3 h4 h5
  exact ⟨h1, h2, h3, h4, h5⟩

/-- serial_putc and lpt_putc: the transmit register, and the printer's data between two strobes -/
theorem ports_byte (c : Word) (s : Crt) (h : Ports) : (lptPutc c (serialPutc c s)).ports h =
    { s.ports h with
      uart := (s.ports h).uart.out 0 (c.setWidth 8)
      printer := (((s.ports h).printer.out 0 (c.setWidth 8)).out 2 0x0D#8).out 2 0x08#8 } := by
  rw [lptPutc, ports_outb, ports_outb, ports_outb, serialPutc, ports_outb]
  change ((((s.ports h).outb s.addr6845 (0x3F8#32, _)).outb s.addr6845 (0x378#32, _)).outb s.addr6845 (0x37A#32, _)).outb
    s.addr6845 (0x37A#32, _) = _
  rw [outb_uart _ List.mem_cons_self, outb_lpt _ (Or.inl rfl), outb_lpt _ (Or.inr rfl), outb_lpt _ (Or.inr rfl)]
  rfl

/-- the printer takes the byte when the strobe goes up, and it comes down again -/
theorem strobe_byte {p : Printer} (hlow : p.strobe = false) (v : BitVec 8) :
    (((p.out 0 v).out 2 0x0D#8).out 2 0x08#8).printed = p.printed ++ [v] ∧
      (((p.out 0 v).out 2 0x0D#8).out 2 0x08#8).strobe = false := by
  constructor
  · simpa [Printer.out, Printer.strobe] using hlow
  · simp [Printer.out, Printer.strobe]

/-- a byte goes out on both lines -/
theorem Sent.byte (hs : Sent h s l) (c : Word) : Sent h (lptPutc c (serialPutc c s)) (l ++ [c.setWidth 8]) := by
  have hports := ports_byte c s h
  have hdlab : (s.ports h).uart.dlab = false := by
    rw [Uart.dlab, hs.settings.format]
    rfl
  have huart : (s.ports h).uart.out 0 (c.setWidth 8) =
      { (s.ports h).uart with sent := (s.ports h).uart.sent ++ [c.setWidth 8] } := by
    change (if (s.ports h).uart.dlab = true then _ else _) = _
    rw [hdlab, if_neg Bool.false_ne_true]
  obtain ⟨hprinted, hlow⟩ := strobe_byte hs.strobe (c.setWidth 8)
  rw [huart] at hports
  refine ⟨hs.addr, ?_, ?_, ?_, ?_⟩
  · rw [hports]
    exact ⟨hs.settings.divisor, hs.settings.format, hs.settings.fifo, hs.settings.modem, hs.settings.interrupt⟩
  · rw [hports]
    calc (s.ports h).uart.sent ++ [c.setWidth 8] = (h.uart.sent ++ l) ++ [c.setWidth 8] := by rw [hs.sent]
      _ = h.uart.sent ++ (l ++ [c.setWidth 8]) := List.append_assoc ..
  · rw [hports]
    exact hlow
  · rw [hports]
    calc _ = (s.ports h).printer.printed ++ [c.setWidth 8] := hprinted
      _ = (h.printer.printed ++ l) ++ [c.setWidth 8] := by rw [hs.printed]
      _ = h.printer.printed ++ (l ++ [c.setWidth 8]) := List.append_assoc ..

/-- the four bytes for the cursor -/
theorem ports_showCursor (hbase : s.addr6845 = cgaBase ∨ s.addr6845 = monoBase) (h : Ports) : s.showCursor.ports h =
    { s.ports h with
      crtc :=
        { index := 15#8
          regs := Function.update (Function.update (s.ports h).crtc.regs 14#8 ((s.pos >>> 8).setWidth 8)) 15#8
            (s.pos.setWidth 8) } } := by
  rw [Crt.showCursor, ports_outb, ports_outb, ports_outb, ports_outb]
  change ((((s.ports h).outb s.addr6845 (s.addr6845, _)).outb s.addr6845 (s.addr6845 + 1#32, _)).outb s.addr6845
    (s.addr6845, _)).outb s.addr6845 (s.addr6845 + 1#32, _) = _
  rw [(outb_crtc _ hbase _).1, (outb_crtc _ hbase _).2, (outb_crtc _ hbase _).1, (outb_crtc _ hbase _).2]

/-- the two halves of a position -/
theorem halves_join (p : BitVec 16) : (((p >>> 8).setWidth 8).setWidth 16 <<< 8 ||| (p.setWidth 8).setWidth 16 : BitVec 16) = p := by
  ext i hi
  simp
  by_cases h8 : i < 8
  · simp [h8, BitVec.getLsbD_eq_getElem hi]
  · have h16 : i - 8 < 8 ∧ 8 + (i - 8) = i := ⟨by omega, by omega⟩
    simp [h8, h16.1, h16.2, BitVec.getLsbD_eq_getElem hi]

theorem Sent.showCursor (hs : Sent h s l) : Sent h s.showCursor l ∧ (s.showCursor.ports h).crtc.cursor = s.pos := by
  have hports := ports_showCursor hs.addr h
  refine ⟨⟨hs.addr, ?_, ?_, ?_, ?_⟩, ?_⟩
  · rw [hports]; exact hs.settings
  · rw [hports]; exact hs.sent
  · rw [hports]; exact hs.strobe
  · rw [hports]; exact hs.printed
  · rw [hports]
    calc Crtc.cursor _ = (((s.pos >>> 8).setWidth 8).setWidth 16 <<< 8 ||| (s.pos.setWidth 8).setWidth 16 : BitVec 16) := by
          simp [Crtc.cursor, Function.update_of_ne]
      _ = s.pos := halves_join s.pos

/-! ### One character -/

theorem clearFrom_ports (s : Crt) (n : ℕ) : (s.clearFrom n).outs = s.outs ∧ (s.clearFrom n).addr6845 = s.addr6845 := by
  induction n with
  | zero => exact ⟨rfl, rfl⟩
  | succ n ih => exact ih

theorem scroll_ports (s : Crt) : s.scroll.outs = s.outs ∧ s.scroll.addr6845 = s.addr6845 := by
  obtain ⟨houts, haddr⟩ := clearFrom_ports s.moveUp crtCols
  rw [Crt.scroll]
  split_ifs
  · simp only [Crt.setPos, houts, haddr]
    exact ⟨rfl, rfl⟩
  · exact ⟨rfl, rfl⟩

theorem Sent.scroll (hs : Sent h s l) : Sent h s.scroll l := hs.screen (scroll_ports s).1 (scroll_ports s).2

/-- cga_putc sends nothing but the cursor, except for a tab -/
theorem cgaPutc_ports (s : Crt) {c : Word} (htab : ¬ c &&& 0xFF#32 = 0x09#32) :
    ∃ u : Crt, cgaPutc c s = u.scroll.showCursor ∧ u.outs = s.outs ∧ u.addr6845 = s.addr6845 := by
  rw [cgaPutc, withAttr_char, if_neg htab]
  split_ifs
  · refine ⟨_, rfl, ?_⟩
    rw [Crt.backspace]
    split_ifs <;> exact ⟨rfl, rfl⟩
  · exact ⟨_, rfl, rfl, rfl⟩
  · exact ⟨_, rfl, rfl, rfl⟩
  · exact ⟨_, rfl, rfl, rfl⟩

/-- the cursor is where the screen has it -/
def Blinks (h : Ports) (s : Crt) : Prop := (s.ports h).crtc.cursor = s.pos

theorem plain_devices (hs : Sent h s l) {c : Word} (htab : ¬ c &&& 0xFF#32 = 0x09#32) :
    Sent h (consPutc c s) (l ++ [c.setWidth 8]) ∧ Blinks h (consPutc c s) := by
  obtain ⟨u, hu, houts, haddr⟩ := cgaPutc_ports (lptPutc c (serialPutc c s)) htab
  rw [consPutc, hu]
  exact ((hs.byte c).screen houts haddr).scroll.showCursor

theorem space_devices (hs : Sent h s l) : Sent h (consPutc 0x20#32 s) (l ++ [0x20#8]) := (plain_devices hs (by decide)).1

theorem tab_devices (hs : Sent h s l) {c : Word} (htab : c &&& 0xFF#32 = 0x09#32) :
    Sent h (consPutc c s) (l ++ c.setWidth 8 :: List.replicate 5 0x20#8) ∧ Blinks h (consPutc c s) := by
  have h5 := space_devices (space_devices (space_devices (space_devices (space_devices (hs.byte c)))))
  have hne : ∀ d : Word, d ≠ 0x09#32 → ¬ c &&& 0xFF#32 = d := fun d hd heq => hd (heq.symm.trans htab)
  rw [consPutc, cgaPutc, withAttr_char, if_neg (hne _ (by decide)), if_neg (hne _ (by decide)),
    if_neg (hne _ (by decide)), if_pos htab]
  simp only [List.append_assoc, List.cons_append, List.nil_append] at h5
  exact h5.scroll.showCursor

/-- **One character on the three devices.** -/
theorem putc_devices (hs : Sent h s l) (c : Word) :
    Sent h (consPutc c s) (l ++ lineBytes c) ∧ Blinks h (consPutc c s) := by
  rw [lineBytes]
  split_ifs with htab
  · exact tab_devices hs htab
  · exact plain_devices hs htab

/-- a text, from a screen that has its cursor where crt_pos says -/
theorem text_devices (hs : Sent h s l) (hc : Blinks h s) (cs : List Word) :
    Sent h (cputchars s cs) (l ++ cs.flatMap lineBytes) ∧ Blinks h (cputchars s cs) := by
  induction cs generalizing s l with
  | nil =>
    rw [List.flatMap_nil, List.append_nil]
    exact ⟨hs, hc⟩
  | cons c cs ih =>
    obtain ⟨hsent, hblinks⟩ := putc_devices hs c
    rw [List.flatMap_cons, ← List.append_assoc]
    exact ih hsent hblinks

/-! ### cons_init -/

theorem cgaInit_addr (d : Display) : (cgaInit d).addr6845 = cgaBase ∨ (cgaInit d).addr6845 = monoBase := by
  rw [cgaInit]
  split_ifs
  · exact Or.inl rfl
  · exact Or.inr rfl

/-- the probe leaves the screen memory as it was -/
theorem cgaInit_buf (d : Display) : (cgaInit d).buf = d.cells := by
  rw [cgaInit]
  split_ifs
  · change Function.update (Function.update d.cells 0 0xA55A#16) 0 (d.cells 0) = d.cells
    rw [Function.update_idem, Function.update_eq_self]
  · rfl

/-- the position that the controller has -/
theorem cgaInit_pos (d : Display) : (cgaInit d).pos = d.crtc.cursor := by
  have hjoin : ∀ a b : BitVec 8, ((a.setWidth 32 <<< 8 ||| b.setWidth 32 : Word)).setWidth 16 =
      (a.setWidth 16 <<< 8 ||| b.setWidth 16 : BitVec 16) := by
    intro a b
    ext i
    simp
  rw [cgaInit]
  split_ifs
  · exact hjoin _ _
  · exact hjoin _ _

theorem cgaInit_ports (d : Display) (h : Ports) :
    (cgaInit d).ports h = { h with crtc := { h.crtc with index := 15#8 } } := by
  rw [cgaInit]
  split_ifs
  · simp [Crt.ports, Crt.outb, Crt.setPos, Ports.outb, Crtc.out, cgaBase]
  · simp [Crt.ports, Crt.outb, Crt.setPos, Ports.outb, Crtc.out, monoBase]

theorem serialInit_ports (lsr : BitVec 8) (s : Crt) (h : Ports) : (serialInit lsr s).1.ports h =
    { s.ports h with uart := ⟨3#8, 12#8, 0#8, 1#8, 0#8, 0#8, (s.ports h).uart.sent⟩ } := by
  simp only [serialInit, ports_outb]
  simp [Ports.outb, Uart.out, Uart.dlab]

/-- the devices are ready, and nothing has been sent -/
theorem init_ready (d : Display) (lsr : BitVec 8) (hcrtc : h.crtc = d.crtc) (hlow : h.printer.strobe = false) :
    Sent h (serialInit lsr (cgaInit d)).1 [] ∧ Blinks h (serialInit lsr (cgaInit d)).1 := by
  have hports := serialInit_ports lsr (cgaInit d) h
  rw [cgaInit_ports] at hports
  refine ⟨⟨cgaInit_addr d, ?_, ?_, ?_, ?_⟩, ?_⟩
  · rw [hports]
    exact ⟨⟨rfl, rfl⟩, rfl, rfl, rfl, rfl⟩
  · rw [hports, List.append_nil]
  · rw [hports]
    exact hlow
  · rw [hports, List.append_nil]
  · rw [Blinks, hports]
    calc _ = d.crtc.cursor := congrArg Crtc.cursor hcrtc
      _ = (cgaInit d).pos := (cgaInit_pos d).symm

theorem init_visible (d : Display) (lsr : BitVec 8) (hpos : d.crtc.cursor.toNat < crtSize) :
    Visible (serialInit lsr (cgaInit d)).1 (cgaInit d).term := by
  have hin : (cgaInit d).pos.toNat < crtSize := by rwa [cgaInit_pos]
  have hw : (cgaInit d).writes = [] := by
    rw [cgaInit]
    split_ifs <;> rfl
  have hscr := start_visible hin hw
  exact ((((((hscr.outb _ _).outb _ _).outb _ _).outb _ _).outb _ _).outb _ _).outb _ _

/-- the display that a screen leaves behind -/
def Display.left (d : Display) (h : Ports) (s : Crt) : Display := { d with cells := s.buf, crtc := (s.ports h).crtc }

/-- what cons_init prints where there is no serial port -/
def noPort (lsr : BitVec 8) : List Word := if lsr = 0xFF#8 then (str "Serial port does not exist!\n").map int else []

theorem consInit_prints (d : Display) (lsr : BitVec 8) (m : Bytes) : ∃ N, ∀ fuel, N ≤ fuel →
    consInit fuel d lsr m = .ok (cputchars (serialInit lsr (cgaInit d)).1 (noPort lsr), decide (lsr ≠ 0xFF#8)) := by
  obtain ⟨N, hN⟩ := literal_prints (f := str "Serial port does not exist!\n") (by decide) (by decide) (VaList.ofWords fun _ => 0#32) m
  refine ⟨N, fun fuel hfuel => ?_⟩
  change (if (serialInit lsr (cgaInit d)).2 then _ else _) = _
  by_cases hlsr : lsr = 0xFF#8
  · have hnone : (serialInit lsr (cgaInit d)).2 = false := decide_eq_false (not_not.2 hlsr)
    rw [hnone, if_neg Bool.false_ne_true, hN fuel hfuel, noPort, if_pos hlsr, decide_eq_false (not_not.2 hlsr)]
    rfl
  · have hthere : (serialInit lsr (cgaInit d)).2 = true := decide_eq_true hlsr
    rw [hthere, if_pos rfl, noPort, if_neg hlsr, decide_eq_true hlsr]
    rfl

/-- **The console on its three devices.** From cons_init on, whatever the devices held: a serial port that is there runs at
9600 baud and carries every text that is printed, a byte a character with five spaces behind a tab; the printer prints the
same bytes, behind the complaint about a missing port; the blinking cursor is at crt_pos, the screen shows the text from where
the cursor was found, and cga_init would find it there again. -/
theorem console_devices (d : Display) (lsr : BitVec 8) (m : Bytes) (h : Ports) (hcrtc : h.crtc = d.crtc)
    (hlow : h.printer.strobe = false) (hpos : d.crtc.cursor.toNat < crtSize) :
    ∃ N s, (∀ fuel, N ≤ fuel → consInit fuel d lsr m = .ok (s, decide (lsr ≠ 0xFF#8))) ∧ ∀ cs,
      (lsr ≠ 0xFF#8 → Nine600 ((cputchars s cs).ports h).uart ∧
        ((cputchars s cs).ports h).uart.sent = h.uart.sent ++ cs.flatMap lineBytes) ∧
      ((cputchars s cs).ports h).printer.printed = h.printer.printed ++ (noPort lsr ++ cs).flatMap lineBytes ∧
      ((cputchars s cs).ports h).crtc.cursor = (cputchars s cs).pos ∧
      Visible (cputchars s cs) ((cgaInit d).term.puts (noPort lsr ++ cs)) ∧
      (cgaInit (d.left h (cputchars s cs))).buf = (cputchars s cs).buf ∧
      (cgaInit (d.left h (cputchars s cs))).pos = (cputchars s cs).pos := by
  obtain ⟨N, hN⟩ := consInit_prints d lsr m
  obtain ⟨hready, hblinks⟩ := init_ready d lsr hcrtc hlow
  refine ⟨N, _, hN, fun cs => ?_⟩
  have hall : cputchars (cputchars (serialInit lsr (cgaInit d)).1 (noPort lsr)) cs =
      cputchars (serialInit lsr (cgaInit d)).1 (noPort lsr ++ cs) := List.foldl_append.symm
  obtain ⟨hsent, hcursor⟩ := text_devices hready hblinks (noPort lsr ++ cs)
  rw [hall]
  refine ⟨fun hlsr => ⟨hsent.settings, ?_⟩, ?_, hcursor, cputchars_visible (init_visible d lsr hpos) _, cgaInit_buf _,
    (cgaInit_pos _).trans hcursor⟩
  · rw [noPort, if_neg hlsr, List.nil_append, List.nil_append] at *
    exact hsent.sent
  · exact hsent.printed

/-- a text screen without a serial port, and a printer that is off -/
theorem console_devices_mono : ∃ N s, ∀ fuel, N ≤ fuel →
    consInit fuel ⟨false, fun _ => blankCell, ⟨0#8, fun r => if r = 15#8 then 0x50#8 else 0#8⟩⟩ 0xFF#8 (fun _ => 0#8) =
      .ok (s, false) := by
  let r : Crtc := ⟨0#8, fun r => if r = 15#8 then 0x50#8 else 0#8⟩
  obtain ⟨N, s, hrun, -⟩ := console_devices ⟨false, fun _ => blankCell, r⟩ 0xFF#8 (fun _ => 0#8)
    ⟨⟨0#8, 0#8, 0#8, 0#8, 0#8, 0#8, []⟩, ⟨0#8, 0#8, []⟩, r⟩ rfl (by decide) (by decide)
  exact ⟨N, s, hrun⟩

end Devices

end Jos
