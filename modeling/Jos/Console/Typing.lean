/-
What the two input devices hand over, and what cons_getc returns of it (kern/console.c).

`portData` splits what the ports answer into the data of a device and the rest; `ConsOp.arrivals` does so for a call, and
`heard` lists the characters that the data come to. Results:
- `polls_heard`, `run_heard`: what a call and a run deliver;
- `devices_apart`: in every order of the calls, each device delivers what it would alone;
- `keyText_codes`: the characters of complete codes, by the keys that are held;
- `typed_back`: a text comes back from the strokes of its characters.
-/
import Jos.Console.Keyboard
import Jos.Console.Overflow

namespace Jos

open Jos.Lib

/-! ## Arrivals -/

inductive InputDevice where
  | serial
  | keyboard
deriving DecidableEq

/-- the status says that a byte is there, and for the keyboard that it is not the mouse's -/
def InputDevice.ready : InputDevice → BitVec 8 → Bool
  | serial, stat => stat &&& comLsrData ≠ 0#8
  | keyboard, stat => stat &&& kbsDib ≠ 0#8 ∧ stat &&& kbsTerr = 0#8

/-- the character that a byte comes to; 0 if to none -/
def InputDevice.char : InputDevice → Word → BitVec 8 → Word
  | serial, _, b => b.setWidth 32
  | keyboard, shift, b => if b = 0xE0#8 ∨ b &&& 0x80#8 ≠ 0#8 then 0#32 else (keyPressed shift b).2

/-- the static variable of kbd_proc_data behind it -/
def InputDevice.next : InputDevice → Word → BitVec 8 → Word
  | serial, shift, _ => shift
  | keyboard, shift, b => nextShift shift b

/-- proc_data of the device -/
def InputDevice.procData : InputDevice → C Word
  | serial => serialProcData
  | keyboard => kbdProcData

/-- the bytes that a device hands over until its status says that there are no more, and the answers left -/
def portData (ready : BitVec 8 → Bool) : List (BitVec 8) → Option (List (BitVec 8) × List (BitVec 8))
  | [] => none
  | [stat] => if ready stat then none else some ([], [])
  | stat :: b :: ins => if ready stat then (portData ready ins).map fun r => (b :: r.1, r.2) else some ([], b :: ins)

/-- the characters of the bytes that have arrived, each with its device -/
def heard : Word → List (InputDevice × BitVec 8) → List (InputDevice × Word)
  | _, [] => []
  | shift, (d, b) :: as => ([d.char shift b].filter (· ≠ 0#32)).map (Prod.mk d) ++ heard (d.next shift b) as

/-- the static variable behind them -/
def shiftBehind (shift : Word) (as : List (InputDevice × BitVec 8)) : Word := as.foldl (fun sh a => a.1.next sh a.2) shift

/-- the bytes that a device hands over, and the answers left -/
def InputDevice.takes (d : InputDevice) (ins : List (BitVec 8)) : List (InputDevice × BitVec 8) × List (BitVec 8) :=
  match portData d.ready ins with
  | none => ([], ins)
  | some (bs, rest) => (bs.map (Prod.mk d), rest)

/-- what arrives during a call -/
def ConsOp.arrivals (serialExists : Bool) : ConsOp → List (InputDevice × BitVec 8)
  | .serialIntr ins => if serialExists then (InputDevice.serial.takes ins).1 else []
  | .kbdIntr ins => (InputDevice.keyboard.takes ins).1
  | .getc ins =>
    let rx := if serialExists then InputDevice.serial.takes ins else ([], ins)
    rx.1 ++ (InputDevice.keyboard.takes rx.2).1

/-- the device's bytes among them -/
def InputDevice.bytes (d : InputDevice) (as : List (InputDevice × BitVec 8)) : List (BitVec 8) :=
  (as.filter fun a => a.1 = d).map Prod.snd

/-- the device's characters -/
def InputDevice.text (d : InputDevice) (cs : List (InputDevice × Word)) : List Word :=
  (cs.filter fun c => c.1 = d).map Prod.snd

/-- the characters of scan codes -/
def keyText (shift : Word) (bs : List (BitVec 8)) : List Word :=
  (heard shift (bs.map (Prod.mk .keyboard))).map Prod.snd

section Heard

variable {s t : ConsSt} {d : InputDevice}

theorem heard_append (shift : Word) (as bs : List (InputDevice × BitVec 8)) :
    heard shift (as ++ bs) = heard shift as ++ heard (shiftBehind shift as) bs := by
  induction as generalizing shift with
  | nil => rfl
  | cons a as ih => rw [List.cons_append, heard, heard, ih, List.append_assoc]; rfl

theorem shiftBehind_append (shift : Word) (as bs : List (InputDevice × BitVec 8)) :
    shiftBehind shift (as ++ bs) = shiftBehind (shiftBehind shift as) bs := List.foldl_append

/-- a byte of the serial port changes nothing for the keyboard, and a scan code nothing for the serial port -/
theorem heard_filter (d : InputDevice) (shift : Word) (as : List (InputDevice × BitVec 8)) :
    (heard shift as).filter (fun c => c.1 = d) = heard shift (as.filter fun a => a.1 = d) := by
  have hone : ∀ (e : InputDevice) (cs : List Word), (cs.map (Prod.mk e)).filter (fun c => c.1 = d) =
      if e = d then cs.map (Prod.mk e) else [] := by
    intro e cs
    split_ifs with he
    · exact List.filter_eq_self.2 fun c hc => by
        obtain ⟨w, -, rfl⟩ := List.mem_map.1 hc
        exact decide_eq_true he
    · exact List.filter_eq_nil_iff.2 fun c hc => by
        obtain ⟨w, -, rfl⟩ := List.mem_map.1 hc
        exact of_decide_eq_true.mt he
  have hserial : ∀ (sh : Word) (bs : List (InputDevice × BitVec 8)), (∀ a ∈ bs, a.1 = .serial) → ∀ sh' : Word,
      heard sh bs = heard sh' bs := by
    intro sh bs hbs sh'
    induction bs with
    | nil => rfl
    | cons a bs ih =>
      obtain ⟨e, b⟩ := a
      obtain rfl : e = .serial := hbs (e, b) List.mem_cons_self
      rw [heard, heard]
      exact congrArg (_ ++ ·) (ih fun a ha => hbs a (List.mem_cons_of_mem _ ha))
  induction as generalizing shift with
  | nil => rfl
  | cons a as ih =>
    obtain ⟨e, b⟩ := a
    rw [heard, List.filter_append, hone, ih]
    by_cases he : e = d
    · have hkeep : ((e, b) :: as).filter (fun a => a.1 = d) = (e, b) :: as.filter fun a => a.1 = d :=
        List.filter_cons_of_pos (decide_eq_true he)
      rw [if_pos he, hkeep, heard]
    · have hdrop : ((e, b) :: as).filter (fun a => a.1 = d) = as.filter fun a => a.1 = d :=
        List.filter_cons_of_neg (of_decide_eq_true.mt he)
      rw [if_neg he, hdrop, List.nil_append]
      cases e with
      | serial => rfl
      | keyboard =>
        -- only bytes of the serial port are left
        apply hserial
        intro a ha
        have had : a.1 = d := of_decide_eq_true (List.mem_filter.1 ha).2
        cases d with
        | serial => exact had
        | keyboard => exact absurd rfl he

/-- what the serial port delivers -/
theorem heard_serial (shift : Word) (bs : List (BitVec 8)) :
    (heard shift (bs.map (Prod.mk .serial))).map Prod.snd = (bs.filter (· ≠ 0#8)).map fun b => b.setWidth 32 := by
  have hzero : ∀ b : BitVec 8, ((b.setWidth 32 : Word) = 0#32) = (b = 0#8) := by
    intro b
    refine propext ⟨fun h => ?_, fun h => by rw [h]; rfl⟩
    have hnat := congrArg BitVec.toNat h
    rw [BitVec.toNat_setWidth, Nat.mod_eq_of_lt (lt_trans b.isLt (by decide))] at hnat
    exact BitVec.eq_of_toNat_eq hnat
  induction bs with
  | nil => rfl
  | cons b bs ih =>
    rw [List.map_cons, heard, List.map_append, List.filter_cons]
    change _ ++ (heard shift (bs.map (Prod.mk .serial))).map Prod.snd = _
    rw [ih]
    by_cases hb : b = 0#8
    · simp [InputDevice.char, hb]
    · simp [InputDevice.char, hb, hzero]

/-! ## What a call delivers -/

/-- from s to t these bytes have arrived -/
structure Heard (s t : ConsSt) (as : List (InputDevice × BitVec 8)) : Prop where
  delivered : t.delivered = s.delivered ++ (heard s.shift as).map Prod.snd
  shift : t.shift = shiftBehind s.shift as
  serialExists : t.serialExists = s.serialExists

theorem Heard.refl (s : ConsSt) : Heard s s [] := ⟨(List.append_nil _).symm, rfl, rfl⟩

theorem Heard.trans {u : ConsSt} {as bs : List (InputDevice × BitVec 8)} (h1 : Heard s t as) (h2 : Heard t u bs) :
    Heard s u (as ++ bs) := by
  refine ⟨?_, ?_, h2.serialExists.trans h1.serialExists⟩
  · rw [h2.delivered, h1.delivered, h1.shift, heard_append, List.map_append, List.append_assoc]
  · rw [h2.shift, h1.shift, shiftBehind_append]

theorem InputDevice.char_lt (d : InputDevice) (shift : Word) (b : BitVec 8) : (d.char shift b).toNat < 256 := by
  cases d with
  | serial => exact byte_lt b
  | keyboard =>
    rw [InputDevice.char]
    split_ifs
    · decide
    · exact keyPressed_lt shift b

/-- **One reading** of a device: -1 where the status says that nothing is there, or the character of a byte. -/
theorem procData_reads {c : Word} (h : d.procData.run s = .ok (c, t)) :
    (∃ stat, s.ins = stat :: t.ins ∧ d.ready stat = false ∧ c = negOne ∧ Heard s t []) ∨
    ∃ stat b, s.ins = stat :: b :: t.ins ∧ d.ready stat = true ∧ c = d.char s.shift b ∧
      t.delivered = s.delivered ∧ t.shift = d.next s.shift b ∧ t.serialExists = s.serialExists := by
  have hinb : ∀ {port : ℕ} {b : BitVec 8} {s t : ConsSt}, (inb port).run s = .ok (b, t) →
      s.ins = b :: t.ins ∧ t = { s with ins := t.ins } := by
    intro port b s t hb
    obtain ⟨u, v, hu, h1⟩ := Prog.bind_ok.1 hb
    obtain ⟨rfl, rfl⟩ := Prod.mk.inj (Prog.get_ok.1 hu)
    clear hb hu
    cases hi : v.ins with
    | nil => rw [hi] at h1; exact absurd h1 Prog.throw_ok
    | cons b' bs =>
      rw [hi] at h1
      obtain ⟨_, w, hw, hp⟩ := Prog.bind_ok.1 h1
      obtain ⟨-, rfl⟩ := Prod.mk.inj (Prog.set_ok.1 hw)
      obtain ⟨rfl, rfl⟩ := Prod.mk.inj (Prog.pure_ok.1 hp)
      exact ⟨rfl, rfl⟩
  cases d with
  | serial =>
    obtain ⟨stat, u, hu, h1⟩ := Prog.bind_ok.1 h
    obtain ⟨hins, hu'⟩ := hinb hu
    split_ifs at h1 with hdata
    · obtain ⟨rfl, rfl⟩ := Prod.mk.inj (Prog.pure_ok.1 h1)
      refine Or.inl ⟨stat, hins, decide_eq_false (not_not.2 hdata), rfl, ?_⟩
      rw [hu']
      exact ⟨(List.append_nil _).symm, rfl, rfl⟩
    · obtain ⟨b, v, hv, h2⟩ := Prog.bind_ok.1 h1
      obtain ⟨hins', hv'⟩ := hinb hv
      obtain ⟨rfl, rfl⟩ := Prod.mk.inj (Prog.pure_ok.1 h2)
      refine Or.inr ⟨stat, b, by rw [hins, hins'], decide_eq_true hdata, rfl, ?_, ?_, ?_⟩
      · rw [hv', hu']
      · rw [hv', hu']; rfl
      · rw [hv', hu']
  | keyboard =>
    obtain ⟨stat, u, hu, h1⟩ := Prog.bind_ok.1 h
    obtain ⟨hins, hu'⟩ := hinb hu
    have hstop : stat &&& kbsDib = 0#8 ∨ stat &&& kbsTerr ≠ 0#8 → InputDevice.keyboard.ready stat = false := by
      intro hor
      exact decide_eq_false fun hand => hor.elim hand.1 fun hterr => hterr hand.2
    split_ifs at h1 with hdib hterr
    · obtain ⟨rfl, rfl⟩ := Prod.mk.inj (Prog.pure_ok.1 h1)
      refine Or.inl ⟨stat, hins, hstop (Or.inl hdib), rfl, ?_⟩
      rw [hu']
      exact ⟨(List.append_nil _).symm, rfl, rfl⟩
    · obtain ⟨rfl, rfl⟩ := Prod.mk.inj (Prog.pure_ok.1 h1)
      refine Or.inl ⟨stat, hins, hstop (Or.inr hterr), rfl, ?_⟩
      rw [hu']
      exact ⟨(List.append_nil _).symm, rfl, rfl⟩
    obtain ⟨b, v, hv, h2⟩ := Prog.bind_ok.1 h1
    obtain ⟨hins', hv'⟩ := hinb hv
    obtain ⟨w, v', hw, h3⟩ := Prog.bind_ok.1 h2
    obtain ⟨rfl, rfl⟩ := Prod.mk.inj (Prog.get_ok.1 hw)
    clear h h1 h2 hw hu hv
    have hready : InputDevice.keyboard.ready stat = true := decide_eq_true ⟨hdib, not_not.1 hterr⟩
    rw [hins, hins']
    rw [hu'] at hv'
    have hdel : v'.delivered = s.delivered := by rw [hv']
    have hshift : v'.shift = s.shift := by rw [hv']
    have hser : v'.serialExists = s.serialExists := by rw [hv']
    rw [← hdel, ← hshift, ← hser]
    refine Or.inr ⟨stat, b, ?_⟩
    rw [InputDevice.char, InputDevice.next, nextShift]
    split_ifs at h3 with he0 hup
    · obtain ⟨_, x, hx, h4⟩ := Prog.bind_ok.1 h3
      obtain ⟨-, rfl⟩ := Prod.mk.inj (Prog.modify_ok.1 hx)
      obtain ⟨rfl, rfl⟩ := Prod.mk.inj (Prog.pure_ok.1 h4)
      rw [if_pos (Or.inl he0), if_pos he0]
      exact ⟨rfl, hready, rfl, rfl, rfl, rfl⟩
    · obtain ⟨_, x, hx, h4⟩ := Prog.bind_ok.1 h3
      obtain ⟨-, rfl⟩ := Prod.mk.inj (Prog.modify_ok.1 hx)
      obtain ⟨rfl, rfl⟩ := Prod.mk.inj (Prog.pure_ok.1 h4)
      rw [if_pos (Or.inr hup), if_neg he0, if_pos hup]
      exact ⟨rfl, hready, rfl, rfl, rfl, rfl⟩
    · obtain ⟨_, x, hx, h4⟩ := Prog.bind_ok.1 h3
      obtain ⟨-, rfl⟩ := Prod.mk.inj (Prog.modify_ok.1 hx)
      rw [if_neg (not_or.2 ⟨he0, hup⟩), if_neg he0, if_neg hup]
      split_ifs at h4 with hreboot
      · obtain ⟨_, y, hy, h5⟩ := Prog.bind_ok.1 h4
        obtain ⟨-, rfl⟩ := Prod.mk.inj (Prog.modify_ok.1 hy)
        obtain ⟨rfl, rfl⟩ := Prod.mk.inj (Prog.pure_ok.1 h5)
        exact ⟨rfl, hready, rfl, rfl, rfl, rfl⟩
      · obtain ⟨rfl, rfl⟩ := Prod.mk.inj (Prog.pure_ok.1 h4)
        exact ⟨rfl, hready, rfl, rfl, rfl, rfl⟩

/-- **A burst**: the loop hands over what the ports answer, and nothing else. -/
theorem consIntr_heard (fuel : ℕ) {u : Unit} (h : (consIntr d.procData fuel).run s = .ok (u, t)) :
    ∃ bs, portData d.ready s.ins = some (bs, t.ins) ∧ Heard s t (bs.map (Prod.mk d)) := by
  induction fuel generalizing s with
  | zero => exact absurd h Prog.throw_ok
  | succ fuel ih =>
    rw [consIntr] at h
    obtain ⟨c, a, ha, h1⟩ := Prog.bind_ok.1 h
    rcases procData_reads ha with ⟨stat, hins, hready, rfl, hheard⟩ | ⟨stat, b, hins, hready, rfl, hdel, hshift, hser⟩
    · rw [if_pos rfl] at h1
      obtain ⟨-, rfl⟩ := Prod.mk.inj (Prog.pure_ok.1 h1)
      refine ⟨[], ?_, hheard⟩
      rw [hins]
      cases ht : t.ins with
      | nil => rw [portData, hready]; rfl
      | cons b ins => rw [portData, hready]; rfl
    · have hne : d.char s.shift b ≠ negOne := by
        intro heq
        have hlt := d.char_lt s.shift b
        rw [heq] at hlt
        exact absurd hlt (by decide)
      rw [if_neg hne] at h1
      -- the byte, and the rest of the burst
      have hrest : ∀ a' : ConsSt, a'.ins = a.ins → (consIntr d.procData fuel).run a' = .ok (u, t) →
          Heard s a' [(d, b)] → ∃ bs, portData d.ready s.ins = some (bs, t.ins) ∧ Heard s t (bs.map (Prod.mk d)) := by
        intro a' hins' hrun hone
        obtain ⟨bs, hbs, hheard⟩ := ih hrun
        refine ⟨b :: bs, ?_, hone.trans hheard⟩
        rw [hins, portData, if_pos hready, ← hins', hbs]
        rfl
      split_ifs at h1 with h0
      · refine hrest a rfl h1 ⟨?_, hshift, hser⟩
        rw [hdel, heard, h0]
        exact (List.append_nil _).symm
      · obtain ⟨_, a', hput, h2⟩ := Prog.bind_ok.1 h1
        obtain ⟨-, rfl⟩ := Prod.mk.inj (Prog.modify_ok.1 hput)
        refine hrest _ ?_ h2 ⟨?_, hshift, hser⟩
        · rfl
        · have hkeep : [d.char s.shift b].filter (· ≠ 0#32) = [d.char s.shift b] :=
            List.filter_cons_of_pos (decide_eq_true h0)
          change a.delivered ++ _ = _
          rw [hdel, heard, hkeep]
          rfl

theorem takes_heard (fuel : ℕ) {u : Unit} (h : (consIntr d.procData fuel).run s = .ok (u, t)) :
    (d.takes s.ins).2 = t.ins ∧ Heard s t (d.takes s.ins).1 := by
  obtain ⟨bs, hbs, hheard⟩ := consIntr_heard fuel h
  rw [InputDevice.takes, hbs]
  exact ⟨rfl, hheard⟩

theorem serialIntr_heard {u : Unit} (h : serialIntr.run s = .ok (u, t)) :
    let rx := if s.serialExists then InputDevice.serial.takes s.ins else ([], s.ins)
    rx.2 = t.ins ∧ Heard s t rx.1 := by
  obtain ⟨a, b, hb, h1⟩ := Prog.bind_ok.1 h
  obtain ⟨rfl, rfl⟩ := Prod.mk.inj (Prog.get_ok.1 hb)
  clear h hb
  split_ifs at h1 with hs
  · simp only [hs, if_true]
    exact takes_heard (d := .serial) _ h1
  · obtain ⟨-, rfl⟩ := Prod.mk.inj (Prog.pure_ok.1 h1)
    simp only [hs]
    exact ⟨rfl, Heard.refl _⟩

theorem kbdIntr_heard {u : Unit} (h : kbdIntr.run s = .ok (u, t)) : Heard s t (InputDevice.keyboard.takes s.ins).1 := by
  obtain ⟨a, b, hb, h1⟩ := Prog.bind_ok.1 h
  obtain ⟨rfl, rfl⟩ := Prod.mk.inj (Prog.get_ok.1 hb)
  exact (takes_heard (d := .keyboard) _ h1).2

theorem polls_heard {o : ConsOp} {u : Unit} (h : o.polls.run s = .ok (u, t)) : Heard s t (o.arrivals s.serialExists) := by
  have hset : ∀ {ins : List (BitVec 8)} {x : Unit} {a : ConsSt}, (setIns ins).run s = .ok (x, a) →
      a.ins = ins ∧ a.serialExists = s.serialExists ∧ Heard s a [] := by
    intro ins x a ha
    obtain ⟨-, rfl⟩ := Prod.mk.inj (Prog.modify_ok.1 ha)
    exact ⟨rfl, rfl, (List.append_nil _).symm, rfl, rfl⟩
  cases o with
  | serialIntr ins =>
    obtain ⟨_, a, ha, h1⟩ := Prog.bind_ok.1 h
    obtain ⟨rfl, hser, hheard⟩ := hset ha
    have harr := hheard.trans (serialIntr_heard h1).2
    rw [hser] at harr
    rw [ConsOp.arrivals]
    split_ifs at harr ⊢
    · exact harr
    · exact harr
  | kbdIntr ins =>
    obtain ⟨_, a, ha, h1⟩ := Prog.bind_ok.1 h
    obtain ⟨rfl, hser, hheard⟩ := hset ha
    exact hheard.trans (kbdIntr_heard h1)
  | getc ins =>
    obtain ⟨_, a, ha, h1⟩ := Prog.bind_ok.1 h
    obtain ⟨_, b, hb, h2⟩ := Prog.bind_ok.1 h1
    obtain ⟨rfl, hser, hheard⟩ := hset ha
    obtain ⟨hrest, hserial⟩ := serialIntr_heard hb
    have harr := (hheard.trans hserial).trans (kbdIntr_heard h2)
    rw [← hrest, hser] at harr
    exact harr

/-- **A call.** -/
theorem consStep_heard {o : ConsOp} (h : consStep o s = .ok t) : Heard s t (o.arrivals s.serialExists) := by
  obtain ⟨a, ha, ht⟩ := consStep_ok.1 h
  have hpolls := polls_heard ha
  have hdel := takes_delivered ht
  have hrest : t.shift = a.shift ∧ t.serialExists = a.serialExists := by
    cases o with
    | serialIntr ins => obtain ⟨-, rfl⟩ := Prod.mk.inj (Prog.pure_ok.1 ht); exact ⟨rfl, rfl⟩
    | kbdIntr ins => obtain ⟨-, rfl⟩ := Prod.mk.inj (Prog.pure_ok.1 ht); exact ⟨rfl, rfl⟩
    | getc ins =>
      obtain ⟨c, b, hb, h1⟩ := Prog.bind_ok.1 ht
      obtain ⟨-, rfl⟩ := Prod.mk.inj (Prog.modify_ok.1 h1)
      obtain ⟨x, w, hw, h2⟩ := Prog.bind_ok.1 hb
      obtain ⟨rfl, rfl⟩ := Prod.mk.inj (Prog.get_ok.1 hw)
      clear ht h1 hb hw
      split_ifs at h2
      · obtain ⟨_, v, hv, h3⟩ := Prog.bind_ok.1 h2
        obtain ⟨-, rfl⟩ := Prod.mk.inj (Prog.set_ok.1 hv)
        obtain ⟨-, rfl⟩ := Prod.mk.inj (Prog.pure_ok.1 h3)
        exact ⟨rfl, rfl⟩
      · obtain ⟨-, rfl⟩ := Prod.mk.inj (Prog.pure_ok.1 h2)
        exact ⟨rfl, rfl⟩
  exact ⟨hdel.trans hpolls.delivered, hrest.1.trans hpolls.shift, hrest.2.trans hpolls.serialExists⟩

/-- what arrives during a run -/
def arrivalsOf (serialExists : Bool) (os : List ConsOp) : List (InputDevice × BitVec 8) :=
  os.flatMap (ConsOp.arrivals serialExists)

/-- **A run.** -/
theorem run_heard {os : List ConsOp} (h : runAll consStep os s = .ok t) : Heard s t (arrivalsOf s.serialExists os) := by
  induction os generalizing s with
  | nil =>
    obtain rfl : s = t := Except.ok.inj h
    exact Heard.refl s
  | cons o os ih =>
    cases h1 : consStep o s with
    | error e =>
      rw [runAll, h1] at h
      cases h
    | ok a =>
      rw [runAll_cons h1] at h
      have hstep := consStep_heard h1
      have hrest := ih h
      rw [hstep.serialExists] at hrest
      exact hstep.trans hrest

end Heard

/-! ## The keyboard -/

/-- the Caps Lock key -/
def capsKey : Key := ⟨false, 0x3A⟩

/-- it has gone down an odd number of times -/
def capslock (codes : List Code) : Bool := (codes.countP fun c => c.make && c.key = capsKey).bodd

/-- the character of a key that goes down when these codes have been sent before -/
def character (before : List Code) (c : Code) : Word :=
  let codes := before ++ [c]
  let map := if pressed ModKeys.ctl.keys codes then ctlmap else if pressed ModKeys.shift.keys codes then shiftmap else normalmap
  let ch : Word := (map c.index).setWidth 32
  if capslock codes then turnCase ch else ch

/-- the characters of a list of codes -/
def codesText : List Code → List Code → List Word
  | _, [] => []
  | before, c :: cs => (if c.make then [character before c].filter (· ≠ 0#32) else []) ++ codesText (before ++ [c]) cs

/-- the character of an index, by the static variable -/
def charOf (shift : Word) (index : BitVec 8) : Word :=
  let ch : Word := (charcode shift index).setWidth 32
  if shift &&& capslockBit ≠ 0#32 then turnCase ch else ch

section Keys

variable {shift : Word} {before : List Code}

theorem keyText_append (shift : Word) (as bs : List (BitVec 8)) :
    keyText shift (as ++ bs) = keyText shift as ++ keyText (as.foldl nextShift shift) bs := by
  have hbehind : shiftBehind shift (as.map (Prod.mk .keyboard)) = as.foldl nextShift shift := List.foldl_map
  rw [keyText, List.map_append, heard_append, List.map_append, hbehind]
  rfl

/-- a prefix and a break code come to no character -/
theorem keyText_code (he : shift.getLsbD 6 = false) (c : Code) :
    keyText shift c.bytes =
      if c.make then [charOf (c.bytes.foldl nextShift shift) c.index].filter (· ≠ 0#32) else [] := by
  have hbyte : keyText shift c.bytes = [InputDevice.keyboard.char (c.prefixed shift) c.byte].filter (· ≠ 0#32) := by
    rw [Code.bytes, Code.prefixed]
    split_ifs
    · rw [keyText, List.map_cons, heard, InputDevice.char, if_pos (Or.inl rfl)]
      simp [heard, InputDevice.next, nextShift]
    · rw [keyText, List.map_cons, heard]
      simp [heard]
  rw [hbyte, InputDevice.char]
  cases hc : c.make with
  | false =>
    rw [if_pos (Or.inr (of_decide_eq_false hc)), if_neg Bool.false_ne_true]
    rfl
  | true =>
    have hlow : c.byte &&& 0x80#8 = 0#8 := of_decide_eq_true hc
    have hnext : (keyPressed (c.prefixed shift) c.byte).1 = c.bytes.foldl nextShift shift := by
      rw [bytes_shift, nextShift, if_neg c.plain, if_neg (not_not.2 hlow)]
    have hindex : (if c.prefixed shift &&& e0esc ≠ 0#32 then c.byte ||| 0x80#8 else c.byte) = c.index := by
      have hplain : ∀ b : BitVec 8, b &&& 0x80#8 = 0#8 → b &&& 0x7F#8 = b := by decide +kernel
      rw [if_congr (prefixed_e0esc he c) rfl rfl, Code.index, hplain c.byte hlow]
    have hchar : (keyPressed (c.prefixed shift) c.byte).2 = charOf (keyPressed (c.prefixed shift) c.byte).1
        (if c.prefixed shift &&& e0esc ≠ 0#32 then c.byte ||| 0x80#8 else c.byte) := rfl
    rw [if_neg (not_or.2 ⟨c.plain, not_not.2 hlow⟩), if_pos rfl, hchar, hnext, hindex]

/-- the table by the bits of SHIFT and CTL -/
theorem charcode_bits (shift : Word) :
    charcode shift = if shift &&& ctlBit ≠ 0#32 then ctlmap else if shift &&& shiftBit ≠ 0#32 then shiftmap else normalmap := by
  have hor : shift &&& (ctlBit ||| shiftBit) = (shift &&& ctlBit) ||| (shift &&& shiftBit) := BitVec.and_or_distrib_left
  have hctl : shift &&& ctlBit = 0#32 ∨ shift &&& ctlBit = ctlBit := by
    have htwo : shift &&& ctlBit = if shift.getLsbD 1 then BitVec.twoPow 32 1 else 0#32 := BitVec.and_twoPow shift 1
    rw [htwo]
    split_ifs
    · exact Or.inr rfl
    · exact Or.inl rfl
  have hshift : shift &&& shiftBit = 0#32 ∨ shift &&& shiftBit = shiftBit := by
    have htwo : shift &&& shiftBit = if shift.getLsbD 0 then BitVec.twoPow 32 0 else 0#32 := BitVec.and_twoPow shift 0
    rw [htwo]
    split_ifs
    · exact Or.inr rfl
    · exact Or.inl rfl
  rw [charcode, hor]
  rcases hctl with hc | hc
  · rcases hshift with hs | hs
    · rw [hc, hs]; rfl
    · rw [hc, hs]; rfl
  · rcases hshift with hs | hs
    · rw [hc, hs]; rfl
    · rw [hc, hs]; rfl

theorem capslock_concat (codes : List Code) (c : Code) :
    capslock (codes ++ [c]) = if c.make && c.key = capsKey then !capslock codes else capslock codes := by
  rw [capslock, List.countP_append, List.countP_singleton]
  split_ifs
  · rw [Nat.bodd_succ]; rfl
  · rfl

/-- Caps Lock turns its bit round, and nothing else does -/
theorem caps_bit (he : shift.getLsbD 6 = false) (c : Code) :
    (c.bytes.foldl nextShift shift).getLsbD 3 = if c.make && c.key = capsKey then !shift.getLsbD 3 else shift.getLsbD 3 := by
  have hclear : ∀ b : BitVec 8, (shiftcode b).getLsbD 3 = false := by decide +kernel
  have htoggle : ∀ b : BitVec 8, b &&& 0x80#8 = 0#8 → (togglecode (b &&& 0x7F#8)).getLsbD 3 = decide (b &&& 0x7F#8 = 0x3A#8) ∧
      (togglecode (b ||| 0x80#8)).getLsbD 3 = false := by decide +kernel
  cases hc : c.make with
  | true =>
    obtain ⟨hplain, hescaped⟩ := htoggle c.byte (of_decide_eq_true hc)
    rw [make_bit he hc (by decide), hclear, Bool.or_false, Bool.true_and, Code.index, Code.key, capsKey]
    cases he0 : c.e0 with
    | true => rw [if_pos rfl, hescaped]; simp
    | false =>
      rw [if_neg Bool.false_ne_true, hplain]
      by_cases hcaps : c.byte &&& 0x7F#8 = 0x3A#8
      · simp [hcaps]
      · simp [hcaps]
  | false =>
    rw [break_bit he hc (by decide), hclear, Bool.false_and, if_neg Bool.false_ne_true]
    simp

theorem codes_capslock (codes : List Code) :
    ((codes.flatMap Code.bytes).foldl nextShift 0#32).getLsbD 3 = capslock codes := by
  induction codes using List.reverseRecOn with
  | nil => rfl
  | append_singleton codes c ih =>
    have he := and_e0esc.1 (codes_shift codes).1
    rw [List.flatMap_append, List.foldl_append, List.flatMap_singleton, caps_bit he, ih, capslock_concat]

/-- **The characters of complete codes**, by the keys that are held: the bits of the static variable are the keys. -/
theorem keyText_codes (before cs : List Code) :
    keyText ((before.flatMap Code.bytes).foldl nextShift 0#32) (cs.flatMap Code.bytes) = codesText before cs := by
  induction cs generalizing before with
  | nil => rfl
  | cons c cs ih =>
    have he := and_e0esc.1 (codes_shift before).1
    have hbehind : c.bytes.foldl nextShift ((before.flatMap Code.bytes).foldl nextShift 0#32) =
        ((before ++ [c]).flatMap Code.bytes).foldl nextShift 0#32 := by
      rw [List.flatMap_append, List.flatMap_singleton, List.foldl_append]
    have hchar : charOf (((before ++ [c]).flatMap Code.bytes).foldl nextShift 0#32) c.index = character before c := by
      obtain ⟨-, hbits⟩ := codes_shift (before ++ [c])
      have hctl : ((before ++ [c]).flatMap Code.bytes).foldl nextShift 0#32 &&& ctlBit ≠ 0#32 ↔ _ := hbits .ctl
      have hshift : ((before ++ [c]).flatMap Code.bytes).foldl nextShift 0#32 &&& shiftBit ≠ 0#32 ↔ _ := hbits .shift
      have hcaps := codes_capslock (before ++ [c])
      have hthree : ∀ x : Word, x &&& capslockBit ≠ 0#32 ↔ x.getLsbD 3 = true := fun x => and_twoPow (by decide : 3 < 32)
      rw [charOf, character, charcode_bits]
      simp only [hthree, hcaps]
      rw [if_congr hctl rfl (if_congr hshift rfl rfl)]
    rw [List.flatMap_cons, keyText_append, keyText_code he, hbehind, hchar, ih, codesText]

end Keys

/-! ## Typing -/

/-- a key of the main block or the keypad goes down, and comes up -/
def press (i : Fin 0x54) : Code := ⟨false, BitVec.ofNat 8 i, by revert i; decide⟩
def release (i : Fin 0x54) : Code := ⟨false, BitVec.ofNat 8 (i + 0x80), by revert i; decide⟩

/-- the left Shift key -/
def leftShift : Fin 0x54 := 0x2A

/-- the key that has a character, and whether Shift is needed -/
def keyOf (c : BitVec 8) : Option (Bool × Fin 0x54) :=
  match (List.finRange 0x54).find? fun i : Fin 0x54 => normalmap (BitVec.ofNat 8 i) = c with
  | some i => some (false, i)
  | none => ((List.finRange 0x54).find? fun i : Fin 0x54 => shiftmap (BitVec.ofNat 8 i) = c).map (Prod.mk true)

def Typeable (c : BitVec 8) : Prop := c ≠ 0#8 ∧ (keyOf c).isSome

instance (c : BitVec 8) : Decidable (Typeable c) := inferInstanceAs (Decidable (_ ∧ _))

/-- how a character is typed -/
def stroke (c : BitVec 8) : List Code :=
  match keyOf c with
  | none => []
  | some (false, i) => [press i, release i]
  | some (true, i) => [press leftShift, press i, release i, release leftShift]

/-- what comes of it -/
def shownAs (caps : Bool) (c : BitVec 8) : Word := if caps then turnCase (c.setWidth 32) else c.setWidth 32

/-- the modifiers that choose a table are up -/
structure Idle (codes : List Code) : Prop where
  shift : pressed ModKeys.shift.keys codes = false
  ctl : pressed ModKeys.ctl.keys codes = false

section Typing

variable {before : List Code} {c : BitVec 8}

/-- the printable characters of ASCII, Esc, backspace, tab and new line -/
example : ∀ c : BitVec 8, (0x20#8 ≤ c ∧ c ≤ 0x7E#8) ∨ c ∈ [0x1B#8, 0x08#8, 0x09#8, 0x0A#8] → Typeable c := by decide +kernel

theorem codesText_append (before as bs : List Code) :
    codesText before (as ++ bs) = codesText before as ++ codesText (before ++ as) bs := by
  induction as generalizing before with
  | nil => rw [List.append_nil]; rfl
  | cons a as ih => rw [List.cons_append, codesText, codesText, ih, List.append_assoc, List.append_assoc]; rfl

theorem press_make : ∀ i : Fin 0x54, (press i).make = true ∧ (release i).make = false ∧ (press i).index = BitVec.ofNat 8 i := by
  decide +kernel

/-- a key with a character is no modifier -/
theorem ordinary_key : ∀ i : Fin 0x54, normalmap (BitVec.ofNat 8 i) ≠ 0#8 ∨ shiftmap (BitVec.ofNat 8 i) ≠ 0#8 →
    (∀ m ∈ [ModKeys.shift, ModKeys.ctl], (press i).key ∉ m.keys ∧ (release i).key ∉ m.keys) ∧ (press i).key ≠ capsKey := by
  decide +kernel

theorem keyOf_plain {i : Fin 0x54} (h : keyOf c = some (false, i)) : normalmap (BitVec.ofNat 8 i) = c := by
  unfold keyOf at h
  split at h
  · next j hj =>
    obtain rfl : j = i := (Prod.mk.inj (Option.some.inj h)).2
    have hchar := List.find?_some hj
    exact of_decide_eq_true hchar
  · obtain ⟨j, -, hj⟩ := Option.map_eq_some_iff.1 h
    exact absurd (Prod.mk.inj hj).1 (by decide)

theorem keyOf_shifted {i : Fin 0x54} (h : keyOf c = some (true, i)) : shiftmap (BitVec.ofNat 8 i) = c := by
  unfold keyOf at h
  split at h
  · exact absurd (Prod.mk.inj (Option.some.inj h)).1 (by decide)
  · obtain ⟨j, hj, heq⟩ := Option.map_eq_some_iff.1 h
    obtain rfl : j = i := (Prod.mk.inj heq).2
    have hchar := List.find?_some hj
    exact of_decide_eq_true hchar

theorem shownAs_ne (caps : Bool) {c : BitVec 8} (h : c ≠ 0#8) : shownAs caps c ≠ 0#32 := by
  have hall : ∀ c : BitVec 8, c ≠ 0#8 → shownAs caps c ≠ 0#32 := by
    cases caps <;> decide +kernel
  exact hall c h

/-- a key that is no modifier leaves them as they are -/
theorem pressed_ordinary {m : ModKeys} {c : Code} (h : c.key ∉ m.keys) : pressed m.keys (before ++ [c]) = pressed m.keys before := by
  rw [pressed_concat, if_neg h]

/-- **A stroke** comes to its character and leaves the modifiers up. -/
theorem stroke_text (h : Idle before) (hc : Typeable c) :
    codesText before (stroke c) = [shownAs (capslock before) c] ∧ Idle (before ++ stroke c) ∧
      capslock (before ++ stroke c) = capslock before := by
  obtain ⟨h0, hkey⟩ := hc
  obtain ⟨⟨shifted, i⟩, hi⟩ := Option.isSome_iff_exists.1 hkey
  obtain ⟨hmake, hbreak, hindex⟩ := press_make i
  have hkeep : [shownAs (capslock before) c].filter (· ≠ 0#32) = [shownAs (capslock before) c] :=
    List.filter_cons_of_pos (decide_eq_true (shownAs_ne _ h0))
  rw [stroke, hi]
  cases shifted with
  | false =>
    have hmap := keyOf_plain hi
    obtain ⟨hmods, hcaps⟩ := ordinary_key i (Or.inl (by rw [hmap]; exact h0))
    obtain ⟨hps, hrs⟩ := hmods .shift (by decide)
    obtain ⟨hpc, hrc⟩ := hmods .ctl (by decide)
    have hlock : capslock (before ++ [press i]) = capslock before := by
      rw [capslock_concat, decide_eq_false hcaps, Bool.and_false, if_neg Bool.false_ne_true]
    have hchar : character before (press i) = shownAs (capslock before) c := by
      rw [character, pressed_ordinary hps, pressed_ordinary hpc, h.shift, h.ctl, hlock, hindex]
      simp only [Bool.false_eq_true, if_false, hmap]
      rfl
    have hafter : before ++ [press i, release i] = before ++ [press i] ++ [release i] := by
      rw [List.append_assoc]; rfl
    refine ⟨?_, ?_, ?_⟩
    · simp only [codesText, hmake, hbreak, if_true, Bool.false_eq_true, if_false, hchar, hkeep, List.append_nil]
    · rw [hafter]
      constructor
      · rw [pressed_ordinary hrs, pressed_ordinary hps, h.shift]
      · rw [pressed_ordinary hrc, pressed_ordinary hpc, h.ctl]
    · rw [hafter, capslock_concat, hbreak, Bool.false_and, if_neg Bool.false_ne_true, hlock]
  | true =>
    have hmap := keyOf_shifted hi
    obtain ⟨hmods, hcaps⟩ := ordinary_key i (Or.inr (by rw [hmap]; exact h0))
    obtain ⟨hps, hrs⟩ := hmods .shift (by decide)
    obtain ⟨hpc, hrc⟩ := hmods .ctl (by decide)
    -- Shift goes down and comes up again
    have hdown : (press leftShift).make = true ∧ (press leftShift).key ∈ ModKeys.shift.keys ∧
        (press leftShift).key ∉ ModKeys.ctl.keys ∧ (press leftShift).key ≠ capsKey ∧ (press leftShift).index = 0x2A#8 := by
      decide
    have hup : (release leftShift).make = false ∧ (release leftShift).key ∈ ModKeys.shift.keys ∧
        (release leftShift).key ∉ ModKeys.ctl.keys := by
      decide
    obtain ⟨hdmake, hdshift, hdctl, hdcaps, hdindex⟩ := hdown
    obtain ⟨humake, hushift, huctl⟩ := hup
    have hheld : pressed ModKeys.shift.keys (before ++ [press leftShift]) = true := by
      rw [pressed_concat, if_pos hdshift, hdmake]
    have hlock₁ : capslock (before ++ [press leftShift]) = capslock before := by
      rw [capslock_concat, decide_eq_false hdcaps, Bool.and_false, if_neg Bool.false_ne_true]
    have hlock₂ : capslock (before ++ [press leftShift] ++ [press i]) = capslock before := by
      rw [capslock_concat, decide_eq_false hcaps, Bool.and_false, if_neg Bool.false_ne_true, hlock₁]
    have hnone : [character before (press leftShift)].filter (· ≠ 0#32) = [] := by
      have hzero : character before (press leftShift) = 0#32 := by
        rw [character, hheld, pressed_ordinary hdctl, h.ctl, hlock₁, hdindex]
        cases capslock before <;> rfl
      rw [hzero]
      rfl
    have hchar : character (before ++ [press leftShift]) (press i) = shownAs (capslock before) c := by
      rw [character, pressed_ordinary hps, pressed_ordinary hpc, hheld, pressed_ordinary hdctl, h.ctl, hlock₂, hindex]
      simp only [Bool.false_eq_true, if_false, if_true, hmap]
      rfl
    have hafter : before ++ [press leftShift, press i, release i, release leftShift] =
        before ++ [press leftShift] ++ [press i] ++ [release i] ++ [release leftShift] := by
      simp
    refine ⟨?_, ?_, ?_⟩
    · simp only [codesText, hdmake, hmake, hbreak, humake, if_true, Bool.false_eq_true, if_false, hnone, hchar, hkeep,
        List.nil_append, List.append_nil]
    · rw [hafter]
      constructor
      · rw [pressed_concat, if_pos hushift, humake]
      · rw [pressed_ordinary huctl, pressed_ordinary hrc, pressed_ordinary hpc, pressed_ordinary hdctl, h.ctl]
    · rw [hafter, capslock_concat, humake, Bool.false_and, if_neg Bool.false_ne_true, capslock_concat, hbreak, Bool.false_and,
        if_neg Bool.false_ne_true, hlock₂]

theorem strokes_text (h : Idle before) {l : List (BitVec 8)} (hl : ∀ c ∈ l, Typeable c) :
    codesText before (l.flatMap stroke) = l.map (shownAs (capslock before)) := by
  induction l generalizing before with
  | nil => rfl
  | cons c l ih =>
    obtain ⟨hchar, hidle, hlock⟩ := stroke_text h (hl c List.mem_cons_self)
    rw [List.flatMap_cons, codesText_append, hchar, ih hidle fun d hd => hl d (List.mem_cons_of_mem c hd), hlock]
    rfl

end Typing

/-! ## Results -/

section Results

variable {s t : ConsSt}

/-- **Two devices, one buffer.** Whatever the ports answer and in whatever order the calls come, each device delivers what
its own bytes come to: the serial port its bytes but the zeros, the keyboard the characters of its scan codes. -/
theorem devices_apart (s t : ConsSt) (os : List ConsOp) (hrun : runAll consStep os s = .ok t) :
    ∃ cs, t.delivered = s.delivered ++ cs.map Prod.snd ∧
      InputDevice.serial.text cs =
        ((InputDevice.serial.bytes (arrivalsOf s.serialExists os)).filter (· ≠ 0#8)).map (fun b => b.setWidth 32) ∧
      InputDevice.keyboard.text cs = keyText s.shift (InputDevice.keyboard.bytes (arrivalsOf s.serialExists os)) := by
  have hheard := run_heard hrun
  have htagged : ∀ (d : InputDevice) (as : List (InputDevice × BitVec 8)),
      as.filter (fun a => a.1 = d) = (d.bytes as).map (Prod.mk d) := by
    intro d as
    rw [InputDevice.bytes, List.map_map]
    refine (List.map_id _).symm.trans (List.map_congr_left fun a ha => ?_)
    have hd : a.1 = d := of_decide_eq_true (List.mem_filter.1 ha).2
    rw [← hd]
    rfl
  refine ⟨_, hheard.delivered, ?_, ?_⟩
  · rw [InputDevice.text, heard_filter, htagged, heard_serial]
  · rw [InputDevice.text, heard_filter, htagged, keyText]

/-- l and x arrive at the serial port, the first together with a at the keyboard -/
theorem devices_apart_letters : ∃ t cs, runAll consStep [.getc [1#8, 0x6C#8, 0#8, 1#8, 0x1E#8, 0#8],
      .serialIntr [1#8, 0x78#8, 0#8]] consBoot = .ok t ∧ t.delivered = cs.map Prod.snd ∧
    InputDevice.serial.text cs = [0x6C#32, 0x78#32] ∧ InputDevice.keyboard.text cs = [0x61#32] := by
  have hreturns : (runAll consStep [.getc [1#8, 0x6C#8, 0#8, 1#8, 0x1E#8, 0#8], .serialIntr [1#8, 0x78#8, 0#8]]
      consBoot).isOk = true := by decide +kernel
  cases ht : runAll consStep [.getc [1#8, 0x6C#8, 0#8, 1#8, 0x1E#8, 0#8], .serialIntr [1#8, 0x78#8, 0#8]] consBoot with
  | error e => rw [ht] at hreturns; cases hreturns
  | ok t =>
    obtain ⟨cs, hdel, hserial, hkbd⟩ := devices_apart consBoot t _ ht
    exact ⟨t, cs, rfl, hdel, hserial.trans (by decide +kernel), hkbd.trans (by decide +kernel)⟩

/-- the run's unread characters are still few when it ends -/
theorem fifo_run {os : List ConsOp} (hs : ConsStart s) (hl : LegalRun consStep AtMost511 s os)
    (hrun : runAll consStep os s = .ok t) : Fifo t ∧ unread t ≤ consbufsize - 1 := by
  have hstart : Fifo s ∧ unread s ≤ consbufsize - 1 := by
    refine ⟨⟨hs.inv, by rw [returned, hs.results]; exact List.nil_prefix⟩, ?_⟩
    rw [unread, hs.delivered]
    exact (Nat.sub_le _ _).trans (Nat.zero_le _)
  have hstep : ∀ a o b, (Fifo a ∧ unread a ≤ consbufsize - 1) → AtMost511 a o → consStep o a = .ok b →
      Fifo b ∧ unread b ≤ consbufsize - 1 := by
    intro a o b ha hleg h
    refine ⟨fifo_step o ha.1 hleg h, ?_⟩
    obtain ⟨w, hw, ht⟩ := consStep_ok.1 h
    have hunread := hleg w hw
    have hdel := takes_delivered ht
    -- a result is noted, never removed
    have hres : (returned w).length ≤ (returned b).length := by
      cases o with
      | serialIntr ins => obtain ⟨-, rfl⟩ := Prod.mk.inj (Prog.pure_ok.1 ht); exact le_rfl
      | kbdIntr ins => obtain ⟨-, rfl⟩ := Prod.mk.inj (Prog.pure_ok.1 ht); exact le_rfl
      | getc ins =>
        rcases takes_getc ins (polls_inv ha.1.inv hw).inv with ⟨-, hrun⟩ | ⟨c, rest, -, h0, hrun, -, -⟩
        · obtain ⟨-, rfl⟩ := Prod.mk.inj (Except.ok.inj (ht.symm.trans hrun))
          simp [returned]
        · obtain ⟨-, rfl⟩ := Prod.mk.inj (Except.ok.inj (ht.symm.trans hrun))
          rw [returned_taken h0]
          simp
    rw [unread] at hunread ⊢
    rw [hdel]
    omega
  exact runAll_keeps hstep s t os hstart hl hrun

/-- the devices fall silent, and the characters that are left are returned -/
theorem fifo_drain (hf : Fifo t) (hu : unread t ≤ consbufsize - 1) :
    ∃ u, runAll consStep (List.replicate (unread t) (.getc silence)) t = .ok u ∧ returned u = t.delivered := by
  obtain ⟨l, hl⟩ := hf.order
  have hback : backlog t = l := by
    have hlt : unread t < 512 := Nat.lt_of_le_of_lt hu (by decide)
    rw [backlog, pending_eq_drop hlt hf.order.length_le, ← hl, List.drop_left]
  have hlen : unread t = l.length := by
    rw [unread, ← hl, List.length_append]
    omega
  obtain ⟨u, hrun, hres⟩ := silent_run (unread t) hf.inv
  refine ⟨u, hrun, ?_⟩
  have hnonzero : l.filter (· ≠ 0#32) = l := by
    apply List.filter_eq_self.2
    intro c hc
    exact decide_eq_true (hf.inv.bytes c (by rw [← hl]; exact List.mem_append_right _ hc)).1
  rw [returned, hres, hback, hlen, List.take_length, Nat.sub_self, List.replicate_zero, List.append_nil, List.filter_append,
    hnonzero]
  exact hl

/-- a text that has been typed has been delivered -/
theorem typed_delivered {os : List ConsOp} (hs : ConsStart s) (hshift : s.shift = 0#32) (hrun : runAll consStep os s = .ok t)
    {before : List Code} (h : Idle before) {l : List (BitVec 8)} (htype : ∀ c ∈ l, Typeable c)
    (hcodes : arrivalsOf s.serialExists os = ((before ++ l.flatMap stroke).flatMap Code.bytes).map (Prod.mk .keyboard)) :
    t.delivered = codesText [] before ++ l.map (shownAs (capslock before)) := by
  calc t.delivered = keyText 0#32 ((before ++ l.flatMap stroke).flatMap Code.bytes) := by
        rw [(run_heard hrun).delivered, hs.delivered, hshift, hcodes, List.nil_append, keyText]
    _ = codesText [] (before ++ l.flatMap stroke) := keyText_codes [] _
    _ = codesText [] before ++ l.map (shownAs (capslock before)) := by
        rw [codesText_append, List.nil_append, strokes_text h htype]

/-- **Typing.** A text whose characters are typed one after the other, with Shift where it is needed, comes back from
cons_getc as it is, or with the case of its letters turned round if Caps Lock is on: whatever has been typed before, however
the scan codes fall upon the calls, and however many of the characters have been read by then. -/
theorem typed_back (s t : ConsSt) (os : List ConsOp) (hs : ConsStart s) (hshift : s.shift = 0#32)
    (hl : LegalRun consStep AtMost511 s os) (hrun : runAll consStep os s = .ok t) (before : List Code) (h : Idle before)
    (l : List (BitVec 8)) (htype : ∀ c ∈ l, Typeable c)
    (hcodes : arrivalsOf s.serialExists os = ((before ++ l.flatMap stroke).flatMap Code.bytes).map (Prod.mk .keyboard)) :
    t.delivered = codesText [] before ++ l.map (shownAs (capslock before)) ∧ returned t <+: t.delivered ∧
      ∃ u, runAll consStep (List.replicate (unread t) (.getc silence)) t = .ok u ∧ returned u = t.delivered := by
  obtain ⟨hf, hu⟩ := fifo_run hs hl hrun
  exact ⟨typed_delivered hs hshift hrun h htype hcodes, hf.order, fifo_drain hf hu⟩

/-- a and B are typed; the first is read while the keys of the second go down -/
theorem typed_back_letters : ∃ t, runAll consStep [.kbdIntr [1#8, 0x1E#8, 1#8, 0x9E#8, 1#8, 0x2A#8, 0#8],
      .getc [0#8, 1#8, 0x30#8, 0#8], .kbdIntr [1#8, 0xB0#8, 1#8, 0xAA#8, 0#8]] consBoot = .ok t ∧
    t.results = [0x61#32] ∧ t.delivered = [0x61#32, 0x42#32] := by
  have hobs : (runAll consStep [.kbdIntr [1#8, 0x1E#8, 1#8, 0x9E#8, 1#8, 0x2A#8, 0#8],
      .getc [0#8, 1#8, 0x30#8, 0#8], .kbdIntr [1#8, 0xB0#8, 1#8, 0xAA#8, 0#8]] consBoot).map (fun t => t.results) =
      .ok [0x61#32] := by decide +kernel
  cases ht : runAll consStep [.kbdIntr [1#8, 0x1E#8, 1#8, 0x9E#8, 1#8, 0x2A#8, 0#8],
      .getc [0#8, 1#8, 0x30#8, 0#8], .kbdIntr [1#8, 0xB0#8, 1#8, 0xAA#8, 0#8]] consBoot with
  | error e => rw [ht] at hobs; cases hobs
  | ok t =>
    rw [ht] at hobs
    have hlegal := short_run_legal consBoot [.kbdIntr [1#8, 0x1E#8, 1#8, 0x9E#8, 1#8, 0x2A#8, 0#8],
      .getc [0#8, 1#8, 0x30#8, 0#8], .kbdIntr [1#8, 0xB0#8, 1#8, 0xAA#8, 0#8]] (by decide)
    have htyped := typed_back consBoot t _ consBoot_start rfl hlegal ht [] ⟨rfl, rfl⟩ [0x61#8, 0x42#8] (by decide +kernel)
      (by decide +kernel)
    exact ⟨t, rfl, Except.ok.inj hobs, htyped.1.trans (by decide)⟩

end Results

end Jos
