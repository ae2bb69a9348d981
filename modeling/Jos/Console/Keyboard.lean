/-
The modifier keys (kbd_proc_data of kern/console.c).

A key sends a make code when it goes down and the same code with the high bit when it comes up, behind an E0 if it is the
right Ctrl or Alt. kbd_proc_data keeps one bit for the two keys of a modifier: a make code of either sets it, a break code of
either clears it. Results:
- `poll_shift`: what a poll of the controller does to the static variable;
- `code_shift`: what a complete code does to it, once E0ESC is clear;
- `modifier_tracking`: a bit is set exactly if the last code of its keys was a make code, so it misses a key that is held
  while the other one is released (`shift_released`).
-/
import Jos.Console.Devices
import Jos.Lib.Run

namespace Jos

open Jos.Lib

/-! ## Polls -/

/-- what the ports answer to a call; the data port is not always read -/
structure Poll where
  stat : BitVec 8
  data : BitVec 8

/-- the scan code that a call reads, if there is one and it is not the mouse's -/
def Poll.scan (p : Poll) : Option (BitVec 8) :=
  if p.stat &&& kbsDib = 0#8 ∨ p.stat &&& kbsTerr ≠ 0#8 then none else some p.data

def kbdPoll (p : Poll) (s : ConsSt) : Except Stuck ConsSt :=
  (kbdProcData.run { s with ins := [p.stat, p.data] }).map Prod.snd

/-- the static variable behind a scan code -/
def nextShift (shift : Word) (data : BitVec 8) : Word :=
  if data = 0xE0#8 then shift ||| e0esc
  else if data &&& 0x80#8 ≠ 0#8 then keyReleased shift data
  else (keyPressed shift data).1

/-! ## Keys -/

/-- a key, by its make code -/
structure Key where
  e0 : Bool
  num : BitVec 8
deriving DecidableEq

/-- a complete code: a byte, which may stand behind an E0 -/
structure Code where
  e0 : Bool
  byte : BitVec 8
  plain : byte ≠ 0xE0#8

def Code.bytes (c : Code) : List (BitVec 8) := if c.e0 then [0xE0#8, c.byte] else [c.byte]

/-- a make code; the others are break codes -/
def Code.make (c : Code) : Bool := c.byte &&& 0x80#8 = 0#8

def Code.key (c : Code) : Key := ⟨c.e0, c.byte &&& 0x7F#8⟩

/-- the last code of one of these keys -/
def lastCode (ks : List Key) (codes : List Code) : Option Code := (codes.filter fun c => c.key ∈ ks).getLast?

/-- it is a make code -/
def pressed (ks : List Key) (codes : List Code) : Bool := (lastCode ks codes).any Code.make

/-- it is a break code -/
def released (ks : List Key) (codes : List Code) : Bool := (lastCode ks codes).any fun c => !c.make

/-- the key is held down -/
def keyHeld (k : Key) (codes : List Code) : Bool := pressed [k] codes

inductive ModKeys where
  | shift
  | ctl
  | alt
deriving DecidableEq

/-- the left and the right key -/
def ModKeys.keys : ModKeys → List Key
  | shift => [⟨false, 0x2A⟩, ⟨false, 0x36⟩]
  | ctl => [⟨false, 0x1D⟩, ⟨true, 0x1D⟩]
  | alt => [⟨false, 0x38⟩, ⟨true, 0x38⟩]

def ModKeys.index : ModKeys → ℕ
  | shift => 0
  | ctl => 1
  | alt => 2

/-- SHIFT, CTL or ALT -/
def ModKeys.bit : ModKeys → Word
  | shift => shiftBit
  | ctl => ctlBit
  | alt => altBit

/-- a key of a modifier is released only after it was pressed -/
def LegalCodes (codes : List Code) : Prop :=
  ∀ m : ModKeys, ∀ i, ∀ hi : i < codes.length, codes[i].key ∈ m.keys → codes[i].make = false →
    keyHeld codes[i].key (codes.take i)

/-! ## The last code -/

section Codes

variable {ks : List Key} {codes : List Code}

theorem lastCode_concat (ks : List Key) (codes : List Code) (c : Code) :
    lastCode ks (codes ++ [c]) = if c.key ∈ ks then some c else lastCode ks codes := by
  rw [lastCode, List.filter_append]
  by_cases hc : c.key ∈ ks
  · rw [if_pos hc, List.filter_cons, if_pos (decide_eq_true hc)]
    exact List.getLast?_concat
  · rw [if_neg hc, List.filter_cons, if_neg (by rw [decide_eq_false hc]; decide), List.filter_nil, List.append_nil, lastCode]

theorem pressed_concat (ks : List Key) (codes : List Code) (c : Code) :
    pressed ks (codes ++ [c]) = if c.key ∈ ks then c.make else pressed ks codes := by
  rw [pressed, lastCode_concat, apply_ite (Option.any Code.make)]
  rfl

theorem released_concat (ks : List Key) (codes : List Code) (c : Code) :
    released ks (codes ++ [c]) = if c.key ∈ ks then !c.make else released ks codes := by
  rw [released, lastCode_concat, apply_ite (Option.any fun c : Code => !c.make)]
  rfl

/-- the last code of some keys is a make code exactly if one of them is held and none was released since -/
theorem pressed_iff : pressed ks codes ↔ (∃ k ∈ ks, keyHeld k codes) ∧ ¬ released ks codes := by
  induction codes using List.reverseRecOn with
  | nil =>
    refine iff_of_false Bool.false_ne_true ?_
    intro h
    obtain ⟨⟨k, -, hk⟩, -⟩ := h
    exact Bool.false_ne_true hk
  | append_singleton codes c ih =>
    rw [pressed_concat, released_concat]
    by_cases hc : c.key ∈ ks
    · rw [if_pos hc, if_pos hc]
      constructor
      · intro hmake
        refine ⟨⟨c.key, hc, ?_⟩, by rw [hmake]; decide⟩
        rw [keyHeld, pressed_concat, if_pos List.mem_cons_self]
        exact hmake
      · rintro ⟨-, hmake⟩
        exact Bool.not_not_eq.1 hmake
    · rw [if_neg hc, if_neg hc, ih]
      -- a key of the list is not the key of this code
      have hheld : ∀ k ∈ ks, keyHeld k (codes ++ [c]) = keyHeld k codes := by
        intro k hk
        have hne : c.key ∉ [k] := by
          rw [List.mem_singleton]
          rintro rfl
          exact hc hk
        rw [keyHeld, pressed_concat, if_neg hne, keyHeld]
      refine and_congr_left' ⟨?_, ?_⟩
      · rintro ⟨k, hk, h⟩
        exact ⟨k, hk, (hheld k hk).trans h⟩
      · rintro ⟨k, hk, h⟩
        exact ⟨k, hk, (hheld k hk).symm.trans h⟩

end Codes

/-! ## The static variable -/

theorem inb_run (port : ℕ) (s : ConsSt) (b : BitVec 8) (bs : List (BitVec 8)) :
    (inb port).run { s with ins := b :: bs } = .ok (b, { s with ins := bs }) := rfl

theorem poll_shift (p : Poll) (s : ConsSt) :
    ∃ t, kbdPoll p s = .ok t ∧ t.shift = p.scan.toList.foldl nextShift s.shift := by
  rw [kbdPoll, kbdProcData, Prog.run_bind (inb_run kbstatp s p.stat [p.data])]
  by_cases hdib : p.stat &&& kbsDib = 0#8
  · rw [if_pos hdib, Poll.scan, if_pos (Or.inl hdib)]
    exact ⟨{ s with ins := [p.data] }, rfl, rfl⟩
  by_cases hterr : p.stat &&& kbsTerr ≠ 0#8
  · rw [if_neg hdib, if_pos hterr, Poll.scan, if_pos (Or.inr hterr)]
    exact ⟨{ s with ins := [p.data] }, rfl, rfl⟩
  rw [if_neg hdib, if_neg hterr, Prog.run_bind (inb_run kbdatap s p.data []), Poll.scan,
    if_neg (not_or.2 ⟨hdib, hterr⟩), Prog.run_bind rfl]
  change ∃ t : ConsSt, _ ∧ t.shift = nextShift s.shift p.data
  rw [nextShift]
  by_cases he0 : p.data = 0xE0#8
  · simp only [if_pos he0]
    exact ⟨_, rfl, rfl⟩
  by_cases hup : p.data &&& 0x80#8 ≠ 0#8
  · simp only [if_neg he0, if_pos hup]
    exact ⟨_, rfl, rfl⟩
  simp only [if_neg he0, if_neg hup]
  rw [Prog.run_bind rfl]
  split_ifs with hdel
  · exact ⟨_, rfl, rfl⟩
  · exact ⟨_, rfl, rfl⟩

theorem polls_shift (ps : List Poll) (s : ConsSt) :
    ∃ t, runAll kbdPoll ps s = .ok t ∧ t.shift = (ps.filterMap Poll.scan).foldl nextShift s.shift := by
  induction ps generalizing s with
  | nil => exact ⟨s, rfl, rfl⟩
  | cons p ps ih =>
    obtain ⟨u, hu, hshift⟩ := poll_shift p s
    obtain ⟨t, ht, hrest⟩ := ih u
    refine ⟨t, (runAll_cons hu ps).trans ht, ?_⟩
    rw [hrest, hshift]
    cases hp : p.scan with
    | none => rw [List.filterMap_cons_none hp]; rfl
    | some b => rw [List.filterMap_cons_some hp]; rfl

section Bits

variable {x : Word}

theorem and_twoPow {i : ℕ} (hi : i < 32) : x &&& BitVec.twoPow 32 i ≠ 0#32 ↔ x.getLsbD i := by
  rw [BitVec.and_twoPow]
  by_cases hx : x.getLsbD i
  · rw [if_pos hx]
    refine iff_of_true (fun h => ?_) hx
    have hself := congrArg (BitVec.getLsbD · i) h
    simp [hi] at hself
  · rw [if_neg hx]
    exact iff_of_false (not_not.2 rfl) hx

theorem and_bit (m : ModKeys) : x &&& m.bit ≠ 0#32 ↔ x.getLsbD m.index := by
  have hbit : m.bit = BitVec.twoPow 32 m.index := by
    cases m <;> rfl
  rw [hbit]
  exact and_twoPow (by cases m <;> decide)

theorem and_e0esc : x &&& e0esc = 0#32 ↔ x.getLsbD 6 = false := by
  rw [← Bool.not_eq_true, ← and_twoPow (by decide : 6 < 32), not_not]
  rfl

/-- the index of a code in the tables -/
def Code.index (c : Code) : BitVec 8 := if c.e0 then c.byte ||| 0x80#8 else c.byte &&& 0x7F#8

theorem shiftcode_key (m : ModKeys) (c : Code) : (shiftcode c.index).getLsbD m.index ↔ c.key ∈ m.keys := by
  obtain ⟨e0, b, -⟩ := c
  have htable : ∀ b : BitVec 8,
      ((shiftcode (if e0 then b ||| 0x80#8 else b &&& 0x7F#8)).getLsbD m.index ↔ (⟨e0, b &&& 0x7F#8⟩ : Key) ∈ m.keys) := by
    cases m <;> cases e0 <;> decide +kernel
  exact htable b

theorem tables_clear : ∀ d : BitVec 8, (shiftcode d).getLsbD 6 = false ∧ (togglecode d).getLsbD 6 = false ∧
    (togglecode d).getLsbD 0 = false ∧ (togglecode d).getLsbD 1 = false ∧ (togglecode d).getLsbD 2 = false := by
  decide +kernel

/-- the static variable behind the prefix -/
def Code.prefixed (c : Code) (shift : Word) : Word := if c.e0 then shift ||| e0esc else shift

theorem bytes_shift (c : Code) (shift : Word) : c.bytes.foldl nextShift shift = nextShift (c.prefixed shift) c.byte := by
  rw [Code.bytes, Code.prefixed]
  split_ifs
  · rfl
  · rfl

theorem e0esc_bit (i : ℕ) : e0esc.getLsbD i = decide (i = 6) := by
  have htwo : e0esc = BitVec.twoPow 32 6 := rfl
  rw [htwo, BitVec.getLsbD_twoPow, decide_eq_true (by decide : 6 < 32), Bool.true_and]
  exact decide_eq_decide.2 eq_comm

theorem prefixed_e0esc {shift : Word} (he : shift.getLsbD 6 = false) (c : Code) :
    c.prefixed shift &&& e0esc ≠ 0#32 ↔ c.e0 = true := by
  rw [Ne, and_e0esc, Bool.not_eq_false, Code.prefixed]
  cases c.e0 with
  | false => rw [if_neg Bool.false_ne_true, he]
  | true => rw [if_pos rfl, BitVec.getLsbD_or, e0esc_bit, he, Bool.false_or, decide_eq_true_eq]; exact iff_of_true rfl rfl

/-- E0ESC is cleared again -/
theorem or_e0esc_clear {shift : Word} (he : shift.getLsbD 6 = false) : (shift ||| e0esc) &&& ~~~e0esc = shift := by
  apply BitVec.eq_of_getLsbD_eq
  intro i hi
  rw [BitVec.getLsbD_and, BitVec.getLsbD_or, BitVec.getLsbD_not, decide_eq_true hi, Bool.true_and, e0esc_bit]
  by_cases h6 : i = 6
  · rw [h6, he]
    rfl
  · rw [decide_eq_false h6, Bool.or_false, Bool.not_false, Bool.and_true]

/-- a make code puts its bits on and turns the toggles -/
theorem make_shift {shift : Word} (he : shift.getLsbD 6 = false) {c : Code} (hc : c.make = true) :
    c.bytes.foldl nextShift shift =
      ((shift ||| (shiftcode c.index).setWidth 32) ^^^ (togglecode c.index).setWidth 32) := by
  have hlow : c.byte &&& 0x80#8 = 0#8 := of_decide_eq_true hc
  have hesc := prefixed_e0esc he c
  calc c.bytes.foldl nextShift shift = nextShift (c.prefixed shift) c.byte := bytes_shift c shift
    _ = (keyPressed (c.prefixed shift) c.byte).1 := by rw [nextShift, if_neg c.plain, if_neg (not_not.2 hlow)]
    _ = (shift ||| (shiftcode c.index).setWidth 32) ^^^ (togglecode c.index).setWidth 32 := by
      rw [keyPressed]
      cases he0 : c.e0 with
      | false =>
        have hplain : ∀ b : BitVec 8, b &&& 0x80#8 = 0#8 → b &&& 0x7F#8 = b := by decide +kernel
        have hindex : c.index = c.byte := by
          rw [Code.index, he0, if_neg Bool.false_ne_true, hplain c.byte hlow]
        have hclear : ¬ c.prefixed shift &&& e0esc ≠ 0#32 := hesc.not.2 (Bool.eq_false_iff.1 he0)
        simp only [if_neg hclear, hindex]
        rw [Code.prefixed, he0, if_neg Bool.false_ne_true]
      | true =>
        have hindex : c.index = c.byte ||| 0x80#8 := by
          rw [Code.index, he0, if_pos rfl]
        have hset : c.prefixed shift &&& e0esc ≠ 0#32 := hesc.2 he0
        simp only [if_pos hset, hindex]
        rw [Code.prefixed, he0, if_pos rfl, or_e0esc_clear he]

/-- a break code puts them off -/
theorem break_shift {shift : Word} (he : shift.getLsbD 6 = false) {c : Code} (hc : c.make = false) :
    c.bytes.foldl nextShift shift = shift &&& ~~~((shiftcode c.index).setWidth 32 ||| e0esc) := by
  have hhigh : c.byte &&& 0x80#8 ≠ 0#8 := of_decide_eq_false hc
  have hesc := prefixed_e0esc he c
  calc c.bytes.foldl nextShift shift = nextShift (c.prefixed shift) c.byte := bytes_shift c shift
    _ = keyReleased (c.prefixed shift) c.byte := by rw [nextShift, if_neg c.plain, if_pos hhigh]
    _ = shift &&& ~~~((shiftcode c.index).setWidth 32 ||| e0esc) := by
      rw [keyReleased]
      cases he0 : c.e0 with
      | false =>
        have hindex : c.index = c.byte &&& 0x7F#8 := by
          rw [Code.index, he0, if_neg Bool.false_ne_true]
        have hclear : ¬ c.prefixed shift &&& e0esc ≠ 0#32 := hesc.not.2 (Bool.eq_false_iff.1 he0)
        simp only [if_neg hclear, hindex]
        rw [Code.prefixed, he0, if_neg Bool.false_ne_true]
      | true =>
        have hescaped : ∀ b : BitVec 8, b &&& 0x80#8 ≠ 0#8 → b ||| 0x80#8 = b := by decide +kernel
        have hindex : c.index = c.byte := by
          rw [Code.index, he0, if_pos rfl, hescaped c.byte hhigh]
        have hset : c.prefixed shift &&& e0esc ≠ 0#32 := hesc.2 he0
        have hmask : ∀ x : Word, (shift ||| e0esc) &&& ~~~(x ||| e0esc) = shift &&& ~~~(x ||| e0esc) := by
          intro x
          apply BitVec.eq_of_getLsbD_eq
          intro i hi
          simp only [BitVec.getLsbD_and, BitVec.getLsbD_or, BitVec.getLsbD_not, decide_eq_true hi, Bool.true_and]
          cases shift.getLsbD i <;> cases x.getLsbD i <;> cases e0esc.getLsbD i <;> rfl
        simp only [if_pos hset, hindex]
        rw [Code.prefixed, he0, if_pos rfl, hmask]

theorem make_bit {shift : Word} (he : shift.getLsbD 6 = false) {c : Code} (hc : c.make = true) {i : ℕ} (hi : i < 32) :
    (c.bytes.foldl nextShift shift).getLsbD i =
      ((shift.getLsbD i || (shiftcode c.index).getLsbD i) ^^ (togglecode c.index).getLsbD i) := by
  rw [make_shift he hc, BitVec.getLsbD_xor, BitVec.getLsbD_or, BitVec.getLsbD_setWidth, BitVec.getLsbD_setWidth,
    decide_eq_true hi, Bool.true_and, Bool.true_and]

theorem break_bit {shift : Word} (he : shift.getLsbD 6 = false) {c : Code} (hc : c.make = false) {i : ℕ} (hi : i < 32) :
    (c.bytes.foldl nextShift shift).getLsbD i =
      (shift.getLsbD i && !((shiftcode c.index).getLsbD i || decide (i = 6))) := by
  rw [break_shift he hc, BitVec.getLsbD_and, BitVec.getLsbD_not, BitVec.getLsbD_or, BitVec.getLsbD_setWidth, e0esc_bit,
    decide_eq_true hi, Bool.true_and, Bool.true_and]

/-- **A complete code**, once E0ESC is clear. -/
theorem code_shift {shift : Word} (he : shift &&& e0esc = 0#32) (c : Code) :
    c.bytes.foldl nextShift shift &&& e0esc = 0#32 ∧
    ∀ m : ModKeys, c.bytes.foldl nextShift shift &&& m.bit ≠ 0#32 ↔
      if c.key ∈ m.keys then c.make = true else shift &&& m.bit ≠ 0#32 := by
  rw [and_e0esc] at he ⊢
  have hi : ∀ m : ModKeys, m.index < 32 ∧ m.index ≠ 6 ∧ (togglecode c.index).getLsbD m.index = false := by
    obtain ⟨-, -, h0, h1, h2⟩ := tables_clear c.index
    intro m
    cases m with
    | shift => exact ⟨by decide, by decide, h0⟩
    | ctl => exact ⟨by decide, by decide, h1⟩
    | alt => exact ⟨by decide, by decide, h2⟩
  cases hc : c.make with
  | true =>
    obtain ⟨hs6, ht6, -⟩ := tables_clear c.index
    constructor
    · rw [make_bit he hc (by decide), he, hs6, ht6]
      rfl
    · intro m
      obtain ⟨hm, -, htoggle⟩ := hi m
      rw [and_bit, and_bit, make_bit he hc hm, htoggle, Bool.xor_false, Bool.or_eq_true, shiftcode_key]
      by_cases hkey : c.key ∈ m.keys
      · rw [if_pos hkey]
        exact iff_of_true (Or.inr hkey) rfl
      · rw [if_neg hkey]
        exact or_iff_left hkey
  | false =>
    constructor
    · rw [break_bit he hc (by decide), he, Bool.false_and]
    · intro m
      obtain ⟨hm, h6, -⟩ := hi m
      rw [and_bit, and_bit, break_bit he hc hm, decide_eq_false h6, Bool.or_false, Bool.and_eq_true, Bool.not_eq_true',
        ← Bool.not_eq_true, shiftcode_key]
      by_cases hkey : c.key ∈ m.keys
      · rw [if_pos hkey]
        exact iff_of_false (fun h => h.2 hkey) Bool.false_ne_true
      · rw [if_neg hkey]
        exact and_iff_left hkey

end Bits

theorem codes_shift (codes : List Code) :
    (codes.flatMap Code.bytes).foldl nextShift 0#32 &&& e0esc = 0#32 ∧
    ∀ m : ModKeys, (codes.flatMap Code.bytes).foldl nextShift 0#32 &&& m.bit ≠ 0#32 ↔ pressed m.keys codes := by
  induction codes using List.reverseRecOn with
  | nil => exact ⟨rfl, fun m => iff_of_false (by cases m <;> decide) Bool.false_ne_true⟩
  | append_singleton codes c ih =>
    obtain ⟨he, hbits⟩ := ih
    rw [List.flatMap_append, List.foldl_append, List.flatMap_singleton]
    obtain ⟨he', hstep⟩ := code_shift he c
    refine ⟨he', fun m => ?_⟩
    rw [hstep m, pressed_concat]
    split_ifs
    · rfl
    · exact hbits m

/-- **Modifier tracking.** A bit is clear after the release of one key of its modifier, whether the other is held or not. -/
theorem modifier_tracking {s : ConsSt} (hs : s.shift = 0#32) {ps : List Poll} {codes : List Code}
    (h : ps.filterMap Poll.scan = codes.flatMap Code.bytes) :
    ∃ t, runAll kbdPoll ps s = .ok t ∧ t.shift &&& e0esc = 0#32 ∧ ∀ m : ModKeys,
      (t.shift &&& m.bit ≠ 0#32 ↔ pressed m.keys codes) ∧
      (t.shift &&& m.bit ≠ 0#32 ↔ (∃ k ∈ m.keys, keyHeld k codes) ∧ ¬ released m.keys codes) := by
  obtain ⟨t, hrun, hshift⟩ := polls_shift ps s
  rw [hs, h] at hshift
  obtain ⟨he, hbits⟩ := codes_shift codes
  rw [← hshift] at he hbits
  exact ⟨t, hrun, he, fun m => ⟨hbits m, (hbits m).trans pressed_iff⟩⟩

/-- both Ctrl keys go down, and the right one comes up -/
theorem modifier_tracking_ctrl : ∃ s t, runAll kbdPoll ([0x1D, 0xE0, 0x1D, 0xE0, 0x9D].map (Poll.mk kbsDib)) s = .ok t ∧
    t.shift &&& ctlBit = 0#32 := by
  let s : ConsSt := ⟨false, 0#32, ⟨fun _ => 0#8, 0#32, 0#32⟩, [], [], [], []⟩
  let codes : List Code := [⟨false, 0x1D, by decide⟩, ⟨true, 0x1D, by decide⟩, ⟨true, 0x9D, by decide⟩]
  have hcodes : ([0x1D, 0xE0, 0x1D, 0xE0, 0x9D].map (Poll.mk kbsDib)).filterMap Poll.scan = codes.flatMap Code.bytes := by
    decide
  obtain ⟨t, hrun, -, hbits⟩ := modifier_tracking (s := s) rfl hcodes
  refine ⟨s, t, hrun, ?_⟩
  by_contra hset
  exact absurd ((hbits .ctl).1.1 hset) (by decide)

/-- both Shift keys go down, and the left one comes up -/
theorem shift_released : ∃ codes : List Code, LegalCodes codes ∧ keyHeld ⟨false, 0x36⟩ codes ∧
    ∀ ps : List Poll, ps.filterMap Poll.scan = codes.flatMap Code.bytes → ∀ s : ConsSt, s.shift = 0#32 →
      ∃ t, runAll kbdPoll ps s = .ok t ∧ t.shift &&& shiftBit = 0#32 := by
  let codes : List Code := [⟨false, 0x2A, by decide⟩, ⟨false, 0x36, by decide⟩, ⟨false, 0xAA, by decide⟩]
  have hleft : codes[0].make ≠ false := by decide
  have hright : codes[1].make ≠ false := by decide
  have hboth : keyHeld codes[2].key (codes.take 2) := by decide
  refine ⟨codes, ?_, by decide, ?_⟩
  · intro m i hi hkey hmake
    match i, hi with
    | 0, _ => exact absurd hmake hleft
    | 1, _ => exact absurd hmake hright
    | 2, _ => exact hboth
  · intro ps h s hs
    obtain ⟨t, hrun, hshift⟩ := polls_shift ps s
    refine ⟨t, hrun, ?_⟩
    rw [hshift, hs, h]
    decide

end Jos
