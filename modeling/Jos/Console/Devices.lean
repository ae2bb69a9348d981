/-
The input devices of kern/console.c: serial_proc_data and kbd_proc_data.

`ConsSt` holds the static variables of console.c that console input uses. What the ports answer is not the kernel's to
decide: `ins` lists the bytes that inb will return, in the order of the reads, and a call that reads further than the
list goes is stuck. `outs` records the bytes written to ports.

`SameInput s t` says that the console buffer is untouched. Results:
- `serialProcData_ok`, `kbdProcData_ok`: both return -1 or a byte, read at least one answer and leave the console buffer
  alone.
-/
import Jos.Mmu
import Jos.Lib.Prog

namespace Jos

open Jos.Lib

/-! ## State -/

structure Cons where
  buf : ℕ → BitVec 8
  rpos : Word
  wpos : Word

structure ConsSt where
  serialExists : Bool
  /-- the static variable of kbd_proc_data -/
  shift : Word
  cons : Cons
  ins : List (BitVec 8)
  outs : List (ℕ × BitVec 8)
  /-- ghost: the non-zero characters cons_intr was given -/
  delivered : List Word
  /-- ghost: what cons_getc has returned -/
  results : List Word

inductive Stuck where
  /-- inb waits for an answer -/
  | noAnswer
deriving DecidableEq, Repr

abbrev C (α : Type) := StateT ConsSt (Except Stuck) α

def inb (_port : ℕ) : C (BitVec 8) := do
  let s ← get
  match s.ins with
  | [] => throw .noAnswer
  | b :: bs =>
    set { s with ins := bs }
    return b

def outb (port : ℕ) (v : BitVec 8) : C Unit := modify fun s => { s with outs := s.outs ++ [(port, v)] }

def setShift (v : Word) : C Unit := modify fun s => { s with shift := v }

/-- the int -1 -/
def negOne : Word := 0xFFFFFFFF

/-! ## Serial port -/

def com1 : ℕ := 0x3F8
/-- In: Receive buffer -/
def comRx : ℕ := 0
/-- In: Line Status Register -/
def comLsr : ℕ := 5
/-- Data available -/
def comLsrData : BitVec 8 := 0x01

def serialProcData : C Word := do
  if (← inb (com1 + comLsr)) &&& comLsrData = 0#8 then return negOne
  return (← inb (com1 + comRx)).setWidth 32

/-! ## Keyboard -/

/-- inc/kbdreg.h -/
def kbstatp : ℕ := 0x64
def kbdatap : ℕ := 0x60
/-- kbd data in buffer -/
def kbsDib : BitVec 8 := 0x01
/-- kbd transmission error or from mouse -/
def kbsTerr : BitVec 8 := 0x20
def keyHome : BitVec 8 := 0xE0
def keyEnd : BitVec 8 := 0xE1
def keyUp : BitVec 8 := 0xE2
def keyDn : BitVec 8 := 0xE3
def keyLf : BitVec 8 := 0xE4
def keyRt : BitVec 8 := 0xE5
def keyPgup : BitVec 8 := 0xE6
def keyPgdn : BitVec 8 := 0xE7
def keyIns : BitVec 8 := 0xE8
def keyDel : BitVec 8 := 0xE9

/-- `SHIFT`, `CTL`, `ALT`, `CAPSLOCK`, `NUMLOCK`, `SCROLLLOCK`, `E0ESC` -/
def shiftBit : Word := 1
def ctlBit : Word := 2
def altBit : Word := 4
def capslockBit : Word := 8
def numlockBit : Word := 16
def scrolllockBit : Word := 32
def e0esc : Word := 64

/-- a modifier as an element of the tables of bytes -/
def modByte (b : Word) : BitVec 8 := b.setWidth 8

/-- a table of bytes by its first elements and the designated ones behind them; the rest is 0 -/
def byteTable (row : List (BitVec 8)) (named : List (ℕ × BitVec 8)) (i : BitVec 8) : BitVec 8 :=
  match named.lookup i.toNat with
  | some v => v
  | none => row.getD i.toNat 0#8

def shiftcode : BitVec 8 → BitVec 8 :=
  byteTable []
    [(0x1D, modByte ctlBit), (0x2A, modByte shiftBit), (0x36, modByte shiftBit), (0x38, modByte altBit),
      (0x9D, modByte ctlBit), (0xB8, modByte altBit)]

def togglecode : BitVec 8 → BitVec 8 :=
  byteTable [] [(0x3A, modByte capslockBit), (0x45, modByte numlockBit), (0x46, modByte scrolllockBit)]

/-- the cursor keys, behind an E0 escape -/
def cursorKeys : List (ℕ × BitVec 8) :=
  [(0xC8, keyUp), (0xC9, keyPgup), (0xCB, keyLf), (0xCD, keyRt), (0xCF, keyEnd), (0xD0, keyDn), (0xD1, keyPgdn),
    (0xD2, keyIns), (0xD3, keyDel)]

/-- home, KP_Enter, KP_Div -/
def keypad : List (ℕ × BitVec 8) := [(0xC7, keyHome), (0x9C, 0x0A), (0xB5, 0x2F)]

def normalmap : BitVec 8 → BitVec 8 :=
  byteTable
    [0x00, 0x1B, 0x31, 0x32, 0x33, 0x34, 0x35, 0x36, 0x37, 0x38, 0x39, 0x30, 0x2D, 0x3D, 0x08, 0x09,
      0x71, 0x77, 0x65, 0x72, 0x74, 0x79, 0x75, 0x69, 0x6F, 0x70, 0x5B, 0x5D, 0x0A, 0x00, 0x61, 0x73,
      0x64, 0x66, 0x67, 0x68, 0x6A, 0x6B, 0x6C, 0x3B, 0x27, 0x60, 0x00, 0x5C, 0x7A, 0x78, 0x63, 0x76,
      0x62, 0x6E, 0x6D, 0x2C, 0x2E, 0x2F, 0x00, 0x2A, 0x00, 0x20, 0x00, 0x00, 0x00, 0x00, 0x00, 0x00,
      0x00, 0x00, 0x00, 0x00, 0x00, 0x00, 0x00, 0x37, 0x38, 0x39, 0x2D, 0x34, 0x35, 0x36, 0x2B, 0x31,
      0x32, 0x33, 0x30, 0x2E, 0x00, 0x00, 0x00, 0x00]
    (keypad ++ cursorKeys)

def shiftmap : BitVec 8 → BitVec 8 :=
  byteTable
    [0x00, 0x1B, 0x21, 0x40, 0x23, 0x24, 0x25, 0x5E, 0x26, 0x2A, 0x28, 0x29, 0x5F, 0x2B, 0x08, 0x09,
      0x51, 0x57, 0x45, 0x52, 0x54, 0x59, 0x55, 0x49, 0x4F, 0x50, 0x7B, 0x7D, 0x0A, 0x00, 0x41, 0x53,
      0x44, 0x46, 0x47, 0x48, 0x4A, 0x4B, 0x4C, 0x3A, 0x22, 0x7E, 0x00, 0x7C, 0x5A, 0x58, 0x43, 0x56,
      0x42, 0x4E, 0x4D, 0x3C, 0x3E, 0x3F, 0x00, 0x2A, 0x00, 0x20, 0x00, 0x00, 0x00, 0x00, 0x00, 0x00,
      0x00, 0x00, 0x00, 0x00, 0x00, 0x00, 0x00, 0x37, 0x38, 0x39, 0x2D, 0x34, 0x35, 0x36, 0x2B, 0x31,
      0x32, 0x33, 0x30, 0x2E, 0x00, 0x00, 0x00, 0x00]
    (keypad ++ cursorKeys)

/-- `C(x)`: the control character of a letter -/
def ctlmap : BitVec 8 → BitVec 8 :=
  byteTable
    [0x00, 0x00, 0x00, 0x00, 0x00, 0x00, 0x00, 0x00, 0x00, 0x00, 0x00, 0x00, 0x00, 0x00, 0x00, 0x00,
      0x11, 0x17, 0x05, 0x12, 0x14, 0x19, 0x15, 0x09, 0x0F, 0x10, 0x00, 0x00, 0x0D, 0x00, 0x01, 0x13,
      0x04, 0x06, 0x07, 0x08, 0x0A, 0x0B, 0x0C, 0x00, 0x00, 0x00, 0x00, 0x1C, 0x1A, 0x18, 0x03, 0x16,
      0x02, 0x0E, 0x0D, 0x00, 0x00, 0xEF, 0x00, 0x00]
    ([(0x97, keyHome), (0xB5, 0xEF)] ++ cursorKeys)

/-- `charcode[shift & (CTL | SHIFT)]` -/
def charcode (shift : Word) : BitVec 8 → BitVec 8 :=
  if shift &&& (ctlBit ||| shiftBit) = 0#32 then normalmap
  else if shift &&& (ctlBit ||| shiftBit) = shiftBit then shiftmap
  else ctlmap

/-- capslock turns the case of letters round -/
def turnCase (c : Word) : Word :=
  if 0x61#32 ≤ c ∧ c ≤ 0x7A#32 then c - 0x20#32
  else if 0x41#32 ≤ c ∧ c ≤ 0x5A#32 then c + 0x20#32
  else c

/-- Key released: the new value of shift -/
def keyReleased (shift : Word) (data : BitVec 8) : Word :=
  let data := if shift &&& e0esc ≠ 0#32 then data else data &&& 0x7F#8
  shift &&& ~~~((shiftcode data).setWidth 32 ||| e0esc)

/-- Key pressed: the new value of shift and the character -/
def keyPressed (shift : Word) (data : BitVec 8) : Word × Word :=
  -- Last character was an E0 escape; or with 0x80
  let esc := shift &&& e0esc ≠ 0#32
  let data := if esc then data ||| 0x80#8 else data
  let shift := if esc then shift &&& ~~~e0esc else shift
  let shift := (shift ||| (shiftcode data).setWidth 32) ^^^ (togglecode data).setWidth 32
  let c : Word := (charcode shift data).setWidth 32
  (shift, if shift &&& capslockBit ≠ 0#32 then turnCase c else c)

def kbdProcData : C Word := do
  let stat ← inb kbstatp
  if stat &&& kbsDib = 0#8 then return negOne
  -- Ignore data from mouse.
  if stat &&& kbsTerr ≠ 0#8 then return negOne
  let data ← inb kbdatap
  let shift := (← get).shift
  if data = 0xE0#8 then
    -- E0 escape character
    setShift (shift ||| e0esc)
    return 0#32
  else if data &&& 0x80#8 ≠ 0#8 then
    setShift (keyReleased shift data)
    return 0#32
  else
    let key := keyPressed shift data
    setShift key.1
    -- Ctrl-Alt-Del: reboot
    if ~~~key.1 &&& (ctlBit ||| altBit) = 0#32 ∧ key.2 = keyDel.setWidth 32 then outb 0x92 3#8
    return key.2

/-! ## What the devices return -/

/-- the console buffer, its ghosts and serial_exists are as they were, and some answers have been read -/
structure SameInput (s t : ConsSt) : Prop where
  cons : t.cons = s.cons
  delivered : t.delivered = s.delivered
  results : t.results = s.results
  serialExists : t.serialExists = s.serialExists
  ins : t.ins.length ≤ s.ins.length

theorem SameInput.refl (s : ConsSt) : SameInput s s := ⟨rfl, rfl, rfl, rfl, le_rfl⟩

theorem SameInput.trans {s t u : ConsSt} (h1 : SameInput s t) (h2 : SameInput t u) : SameInput s u :=
  ⟨h2.1.trans h1.1, h2.2.trans h1.2, h2.3.trans h1.3, h2.4.trans h1.4, h2.5.trans h1.5⟩

section Devices

variable {s t : ConsSt}

theorem inb_ok {port : ℕ} {b : BitVec 8} (hrun : (inb port).run s = .ok (b, t)) :
    SameInput s t ∧ t.ins.length < s.ins.length := by
  obtain ⟨u, v, hu, h⟩ := Prog.bind_ok.1 hrun
  obtain ⟨rfl, rfl⟩ := Prod.mk.inj (Prog.get_ok.1 hu)
  clear hrun hu
  cases hi : v.ins with
  | nil => rw [hi] at h; exact absurd h Prog.throw_ok
  | cons b' bs =>
    rw [hi] at h
    obtain ⟨_, w, hw, hp⟩ := Prog.bind_ok.1 h
    obtain ⟨-, rfl⟩ := Prod.mk.inj (Prog.set_ok.1 hw)
    obtain ⟨-, rfl⟩ := Prod.mk.inj (Prog.pure_ok.1 hp)
    have hlt : bs.length < (b' :: bs).length := Nat.lt_succ_self _
    exact ⟨⟨rfl, rfl, rfl, rfl, by rw [hi]; exact hlt.le⟩, hlt⟩

theorem byte_lt (b : BitVec 8) : (b.setWidth 32 : Word).toNat < 256 := by
  rw [BitVec.toNat_setWidth]
  have := b.isLt
  omega

theorem turnCase_lt {c : Word} (h : c.toNat < 256) : (turnCase c).toNat < 256 := by
  unfold turnCase
  split_ifs with h1 h2
  · rw [BitVec.toNat_sub_of_le (by rw [BitVec.le_def] at h1 ⊢; have := h1.1; simp at this ⊢; omega)]
    omega
  · have h3 := h2.2
    rw [BitVec.le_def] at h3
    simp at h3
    rw [BitVec.toNat_add]
    simp
    omega
  · exact h

theorem keyPressed_lt (shift : Word) (data : BitVec 8) : (keyPressed shift data).2.toNat < 256 := by
  have hc : ∀ (cs : Word) (d : BitVec 8), (if cs &&& capslockBit ≠ 0#32 then turnCase ((charcode cs d).setWidth 32)
      else (charcode cs d).setWidth 32).toNat < 256 := by
    intro cs d
    split_ifs
    · exact turnCase_lt (byte_lt _)
    · exact byte_lt _
  exact hc _ _

/-- an answer has been read, and what follows reads on -/
theorem SameInput.behind {u : ConsSt} (h1 : SameInput s u ∧ u.ins.length < s.ins.length) (h2 : SameInput u t) :
    SameInput s t ∧ t.ins.length < s.ins.length := ⟨h1.1.trans h2, lt_of_le_of_lt h2.ins h1.2⟩

theorem serialProcData_ok {c : Word} (h : serialProcData.run s = .ok (c, t)) :
    (c = negOne ∨ c.toNat < 256) ∧ SameInput s t ∧ t.ins.length < s.ins.length := by
  obtain ⟨b, u, hu, h1⟩ := Prog.bind_ok.1 h
  split_ifs at h1 with hb
  · obtain ⟨rfl, rfl⟩ := Prod.mk.inj (Prog.pure_ok.1 h1)
    exact ⟨Or.inl rfl, inb_ok hu⟩
  · obtain ⟨d, v, hv, h2⟩ := Prog.bind_ok.1 h1
    obtain ⟨rfl, rfl⟩ := Prod.mk.inj (Prog.pure_ok.1 h2)
    exact ⟨Or.inr (byte_lt d), SameInput.behind (inb_ok hu) (inb_ok hv).1⟩

theorem setShift_ok {v : Word} {u : Unit} (h : (setShift v).run s = .ok (u, t)) : SameInput s t := by
  obtain ⟨-, rfl⟩ := Prod.mk.inj (Prog.modify_ok.1 h)
  exact ⟨rfl, rfl, rfl, rfl, le_rfl⟩

theorem outb_ok {port : ℕ} {v : BitVec 8} {u : Unit} (h : (outb port v).run s = .ok (u, t)) : SameInput s t := by
  obtain ⟨-, rfl⟩ := Prod.mk.inj (Prog.modify_ok.1 h)
  exact ⟨rfl, rfl, rfl, rfl, le_rfl⟩

theorem kbdProcData_ok {c : Word} (hrun : kbdProcData.run s = .ok (c, t)) :
    (c = negOne ∨ c.toNat < 256) ∧ SameInput s t ∧ t.ins.length < s.ins.length := by
  obtain ⟨stat, u, hu, h1⟩ := Prog.bind_ok.1 hrun
  split_ifs at h1 with hdib hterr
  · obtain ⟨rfl, rfl⟩ := Prod.mk.inj (Prog.pure_ok.1 h1)
    exact ⟨Or.inl rfl, inb_ok hu⟩
  · obtain ⟨rfl, rfl⟩ := Prod.mk.inj (Prog.pure_ok.1 h1)
    exact ⟨Or.inl rfl, inb_ok hu⟩
  · obtain ⟨data, v, hv, h2⟩ := Prog.bind_ok.1 h1
    have hs := SameInput.behind (inb_ok hu) (inb_ok hv).1
    obtain ⟨w, v', hw, h3⟩ := Prog.bind_ok.1 h2
    obtain ⟨rfl, rfl⟩ := Prod.mk.inj (Prog.get_ok.1 hw)
    clear hrun h1 h2 hw
    split_ifs at h3 with he0 hup
    · obtain ⟨_, x, hx, h4⟩ := Prog.bind_ok.1 h3
      obtain ⟨rfl, rfl⟩ := Prod.mk.inj (Prog.pure_ok.1 h4)
      exact ⟨Or.inr (by decide), SameInput.behind hs (setShift_ok hx)⟩
    · obtain ⟨_, x, hx, h4⟩ := Prog.bind_ok.1 h3
      obtain ⟨rfl, rfl⟩ := Prod.mk.inj (Prog.pure_ok.1 h4)
      exact ⟨Or.inr (by decide), SameInput.behind hs (setShift_ok hx)⟩
    · obtain ⟨_, x, hx, h4⟩ := Prog.bind_ok.1 h3
      have hs' := SameInput.behind hs (setShift_ok hx)
      split_ifs at h4 with hdel
      · obtain ⟨_, y, hy, h5⟩ := Prog.bind_ok.1 h4
        obtain ⟨rfl, rfl⟩ := Prod.mk.inj (Prog.pure_ok.1 h5)
        exact ⟨Or.inr (keyPressed_lt _ _), SameInput.behind hs' (outb_ok hy)⟩
      · obtain ⟨rfl, rfl⟩ := Prod.mk.inj (Prog.pure_ok.1 h4)
        exact ⟨Or.inr (keyPressed_lt _ _), hs'⟩

end Devices

end Jos
