/-
Console input of kern/console.c: cons_intr fills the circular buffer, cons_getc polls the devices and empties it.

A run is a list of calls (`ConsOp`), each with the bytes that the ports answer during the call. cons_intr never compares
the two positions, so nothing bounds what a burst puts in; the invariant `ConsInv` holds all the same, because it counts
what was put in and taken out (`Jos.Lib.Ring`). Results:
- `consIntr_inv`: a burst of any length keeps the invariant;
- `takes_getc`: cons_getc takes out the first character of `backlog`, or returns 0 if there is none;
- `consStep_inv`: every call keeps the invariant;
- `console_fifo`: as long as at most 511 characters are unread, the results are the delivered characters in order;
- `short_run_legal`: a run in which the ports answer fewer than 512 bytes is such a run.
-/
import Jos.Console.Devices
import Jos.Lib.Ring
import Jos.Lib.Run

namespace Jos

open Jos.Lib

def consbufsize : ℕ := 512

/-- the position behind p: `if (p == CONSBUFSIZE) p = 0` -/
def nextPos (p : Word) : Word := if (p + 1#32).toNat = consbufsize then 0#32 else p + 1#32

/-- `cons.buf[cons.wpos++] = c` -/
def consPut (c : Word) : C Unit := modify fun s =>
  { s with
    cons := { s.cons with
      buf := Function.update s.cons.buf s.cons.wpos.toNat (c.setWidth 8)
      wpos := nextPos s.cons.wpos }
    delivered := s.delivered ++ [c] }

/-- `while ((c = (*proc)()) != -1)`. Each round reads at least one byte, so the answers to come bound the rounds. -/
def consIntr (proc : C Word) : ℕ → C Unit
  | 0 => throw .noAnswer
  | fuel + 1 => do
    let c ← proc
    if c = negOne then return ()
    if c = 0#32 then consIntr proc fuel
    else
      consPut c
      consIntr proc fuel

def serialIntr : C Unit := do
  let s ← get
  if s.serialExists then consIntr serialProcData (s.ins.length + 1)

def kbdIntr : C Unit := do
  let s ← get
  consIntr kbdProcData (s.ins.length + 1)

/-- grab the next character from the input buffer -/
def consPop : C Word := do
  let s ← get
  if s.cons.rpos ≠ s.cons.wpos then
    set { s with cons := { s.cons with rpos := nextPos s.cons.rpos } }
    return (s.cons.buf s.cons.rpos.toNat).setWidth 32
  return 0#32

def consGetc : C Word := do
  serialIntr
  kbdIntr
  consPop

/-! ## Runs -/

inductive ConsOp where
  | serialIntr (ins : List (BitVec 8))
  | kbdIntr (ins : List (BitVec 8))
  | getc (ins : List (BitVec 8))
deriving DecidableEq, Repr

/-- what the ports will answer during the call -/
def setIns (ins : List (BitVec 8)) : C Unit := modify fun s => { s with ins := ins }

def noteResult (c : Word) : C Unit := modify fun s => { s with results := s.results ++ [c] }

/-- the call, with what the ports answer -/
def ConsOp.call : ConsOp → C Unit
  | .serialIntr ins => do
    setIns ins
    Jos.serialIntr
  | .kbdIntr ins => do
    setIns ins
    Jos.kbdIntr
  | .getc ins => do
    setIns ins
    noteResult (← consGetc)

def consStep (o : ConsOp) (s : ConsSt) : Except Stuck ConsSt := (o.call.run s).map Prod.snd

/-- the part of the call that delivers characters -/
def ConsOp.polls : ConsOp → C Unit
  | .serialIntr ins => do
    setIns ins
    Jos.serialIntr
  | .kbdIntr ins => do
    setIns ins
    Jos.kbdIntr
  | .getc ins => do
    setIns ins
    Jos.serialIntr
    Jos.kbdIntr

/-- the part that takes one out -/
def ConsOp.takes : ConsOp → C Unit
  | .getc _ => do noteResult (← consPop)
  | _ => return ()

theorem call_eq (o : ConsOp) : o.call = (do o.polls; o.takes) := by
  cases o with
  | serialIntr ins => simp [ConsOp.call, ConsOp.polls, ConsOp.takes]
  | kbdIntr ins => simp [ConsOp.call, ConsOp.polls, ConsOp.takes]
  | getc ins => simp [ConsOp.call, ConsOp.polls, ConsOp.takes, consGetc]

/-- the non-zero results of cons_getc -/
def returned (s : ConsSt) : List Word := s.results.filter (· ≠ 0#32)

/-- how many characters have been delivered and not returned -/
def unread (s : ConsSt) : ℕ := s.delivered.length - (returned s).length

/-- the kernel after boot: the buffer is empty -/
structure ConsStart (s : ConsSt) : Prop where
  rpos : s.cons.rpos = 0#32
  wpos : s.cons.wpos = 0#32
  delivered : s.delivered = []
  results : s.results = []

/-! ## The buffer -/

structure ConsInv (s : ConsSt) : Prop where
  ring : Ring 512 s.cons.buf s.cons.rpos.toNat s.cons.wpos.toNat (s.delivered.map fun c => c.setWidth 8)
    (returned s).length
  bytes : ∀ c ∈ s.delivered, c ≠ 0#32 ∧ c.toNat < 256

/-- what cons_getc will return if nothing more is delivered -/
def backlog (s : ConsSt) : List Word := pending 512 s.delivered (returned s).length

/-- a poll of the devices has delivered characters and done nothing else -/
structure Polled (s t : ConsSt) : Prop where
  inv : ConsInv t
  results : t.results = s.results
  delivered : s.delivered <+: t.delivered

section Buffer

variable {s t : ConsSt}

theorem ConsStart.inv (h : ConsStart s) : ConsInv s := by
  refine ⟨?_, ?_⟩
  · rw [h.rpos, h.wpos, h.delivered, returned, h.results]
    exact ring_start s.cons.buf
  · intro c hc
    rw [h.delivered] at hc
    exact absurd hc (List.not_mem_nil)

theorem nextPos_toNat {p : Word} (h : p.toNat < 512) :
    (nextPos p).toNat = if p.toNat + 1 = 512 then 0 else p.toNat + 1 := by
  have hadd : (p + 1#32).toNat = p.toNat + 1 := BitVec.toNat_add_of_lt (Nat.lt_of_le_of_lt h (by decide))
  rw [nextPos, hadd, consbufsize]
  split_ifs
  · rfl
  · exact hadd

theorem SameInput.inv (h : SameInput s t) (hi : ConsInv s) : ConsInv t := by
  obtain ⟨h1, h2⟩ := hi
  constructor
  · rw [h.cons, h.delivered, returned, h.results]
    exact h1
  · rw [h.delivered]
    exact h2

theorem SameInput.polled (h : SameInput s t) (hi : ConsInv s) : Polled s t :=
  ⟨h.inv hi, h.results, by rw [h.delivered]⟩

theorem Polled.trans {u : ConsSt} (h1 : Polled s t) (h2 : Polled t u) : Polled s u :=
  ⟨h2.inv, h2.results.trans h1.results, h1.delivered.trans h2.delivered⟩

theorem Polled.returned (h : Polled s t) : Jos.returned t = Jos.returned s := by
  rw [Jos.returned, h.results, Jos.returned]

theorem consPut_inv {c : Word} {u : Unit} (hi : ConsInv s) (h0 : c ≠ 0#32) (hc : c.toNat < 256)
    (h : (consPut c).run s = .ok (u, t)) : Polled s t := by
  obtain ⟨-, rfl⟩ := Prod.mk.inj (Prog.modify_ok.1 h)
  refine ⟨⟨?_, ?_⟩, rfl, List.prefix_append ..⟩
  · have hput := hi.ring.put (by decide) (c.setWidth 8)
    rw [← nextPos_toNat (hi.ring.lt (by decide)).2] at hput
    simp only [List.map_append, List.map_cons, List.map_nil]
    exact hput
  · intro d hd
    rcases List.mem_append.1 hd with hd | hd
    · exact hi.bytes d hd
    · obtain rfl := List.mem_singleton.1 hd
      exact ⟨h0, hc⟩

/-- **A burst of any length.** -/
theorem consIntr_inv {proc : C Word}
    (hproc : ∀ {a b : ConsSt} {c : Word}, proc.run a = .ok (c, b) →
      (c = negOne ∨ c.toNat < 256) ∧ SameInput a b ∧ b.ins.length < a.ins.length)
    (fuel : ℕ) {u : Unit} (hi : ConsInv s) (h : (consIntr proc fuel).run s = .ok (u, t)) : Polled s t := by
  induction fuel generalizing s with
  | zero => exact absurd h Prog.throw_ok
  | succ fuel ih =>
    rw [consIntr] at h
    obtain ⟨c, a, ha, h1⟩ := Prog.bind_ok.1 h
    obtain ⟨hc, hsame, -⟩ := hproc ha
    have hpa := hsame.polled hi
    split_ifs at h1 with hneg h0
    · obtain ⟨-, rfl⟩ := Prod.mk.inj (Prog.pure_ok.1 h1)
      exact hpa
    · exact hpa.trans (ih hpa.inv h1)
    · obtain ⟨_, b, hb, h2⟩ := Prog.bind_ok.1 h1
      have hpb := consPut_inv hpa.inv h0 (hc.resolve_left hneg) hb
      exact (hpa.trans hpb).trans (ih hpb.inv h2)

theorem serialIntr_inv {u : Unit} (hi : ConsInv s) (h : serialIntr.run s = .ok (u, t)) : Polled s t := by
  obtain ⟨a, b, hb, h1⟩ := Prog.bind_ok.1 h
  obtain ⟨rfl, rfl⟩ := Prod.mk.inj (Prog.get_ok.1 hb)
  clear h hb
  split_ifs at h1 with hs
  · exact consIntr_inv (fun ha => serialProcData_ok ha) _ hi h1
  · obtain ⟨-, rfl⟩ := Prod.mk.inj (Prog.pure_ok.1 h1)
    exact (SameInput.refl _).polled hi

theorem kbdIntr_inv {u : Unit} (hi : ConsInv s) (h : kbdIntr.run s = .ok (u, t)) : Polled s t := by
  obtain ⟨a, b, hb, h1⟩ := Prog.bind_ok.1 h
  obtain ⟨rfl, rfl⟩ := Prod.mk.inj (Prog.get_ok.1 hb)
  exact consIntr_inv (fun ha => kbdProcData_ok ha) _ hi h1

theorem polls_inv {o : ConsOp} {u : Unit} (hi : ConsInv s) (h : o.polls.run s = .ok (u, t)) : Polled s t := by
  have hset : ∀ {ins : List (BitVec 8)} {x : Unit} {a : ConsSt}, (setIns ins).run s = .ok (x, a) → Polled s a := by
    intro ins x a ha
    obtain ⟨-, rfl⟩ := Prod.mk.inj (Prog.modify_ok.1 ha)
    exact ⟨⟨hi.ring, hi.bytes⟩, rfl, List.prefix_rfl⟩
  cases o with
  | serialIntr ins =>
    obtain ⟨_, a, ha, h1⟩ := Prog.bind_ok.1 h
    exact (hset ha).trans (serialIntr_inv (hset ha).inv h1)
  | kbdIntr ins =>
    obtain ⟨_, a, ha, h1⟩ := Prog.bind_ok.1 h
    exact (hset ha).trans (kbdIntr_inv (hset ha).inv h1)
  | getc ins =>
    obtain ⟨_, a, ha, h1⟩ := Prog.bind_ok.1 h
    obtain ⟨_, b, hb, h2⟩ := Prog.bind_ok.1 h1
    have hpb := (hset ha).trans (serialIntr_inv (hset ha).inv hb)
    exact hpb.trans (kbdIntr_inv hpb.inv h2)

/-- the state after a character has been taken out, with the result noted -/
def ConsSt.taken (s : ConsSt) (c : Word) : ConsSt :=
  { s with cons := { s.cons with rpos := nextPos s.cons.rpos }, results := s.results ++ [c] }

theorem returned_taken {c : Word} (h : c ≠ 0#32) : returned (s.taken c) = returned s ++ [c] := by
  simp [returned, ConsSt.taken, h]

/-- cons_getc takes out the first character of the backlog, or returns 0 if there is none -/
theorem takes_getc (ins : List (BitVec 8)) (hi : ConsInv s) :
    (backlog s = [] ∧ (ConsOp.getc ins).takes.run s = .ok ((), { s with results := s.results ++ [0#32] })) ∨
    ∃ c rest, backlog s = c :: rest ∧ c ≠ 0#32 ∧ (ConsOp.getc ins).takes.run s = .ok ((), s.taken c) ∧
      ConsInv (s.taken c) ∧ backlog (s.taken c) = rest := by
  by_cases hrw : s.cons.rpos = s.cons.wpos
  · refine Or.inl ⟨?_, ?_⟩
    · have := (ring_empty_iff hi.ring).1 (by rw [hrw])
      rwa [pending_map, List.map_eq_nil_iff] at this
    · have hpop : consPop.run s = .ok (0#32, s) := by
        rw [consPop, Prog.run_bind (Prog.get_ok.2 rfl), if_neg (not_not.2 hrw)]
        rfl
      rw [ConsOp.takes, Prog.run_bind hpop]
      rfl
  · have hne : s.cons.rpos.toNat ≠ s.cons.wpos.toNat := fun h => hrw (BitVec.eq_of_toNat_eq h)
    obtain ⟨hpend, hring⟩ := hi.ring.take (by decide) hne
    rw [pending_map] at hpend
    cases hb : backlog s with
    | nil =>
      rw [backlog] at hb
      rw [hb] at hpend
      cases hpend
    | cons c rest =>
      have hmem : c ∈ s.delivered := pending_suffix.subset (show c ∈ backlog s from hb ▸ List.mem_cons_self)
      obtain ⟨h0, hlt⟩ := hi.bytes c hmem
      rw [backlog] at hb
      rw [hb, List.map_cons] at hpend
      have hhead := (List.cons.inj hpend).1
      -- the byte in the buffer is the character that was put in
      have hword : ((s.cons.buf s.cons.rpos.toNat).setWidth 32 : Word) = c := by
        apply BitVec.eq_of_toNat_eq
        rw [← hhead, BitVec.toNat_setWidth, BitVec.toNat_setWidth]
        omega
      have hpop : consPop.run s = .ok (c, { s with cons := { s.cons with rpos := nextPos s.cons.rpos } }) := by
        rw [consPop, Prog.run_bind (Prog.get_ok.2 rfl), if_pos hrw, ← hword]
        rfl
      refine Or.inr ⟨c, rest, rfl, h0, ?_, ⟨?_, hi.bytes⟩, ?_⟩
      · rw [ConsOp.takes, Prog.run_bind hpop]
        rfl
      · rw [returned_taken h0, List.length_append, List.length_singleton]
        change Ring 512 s.cons.buf (nextPos s.cons.rpos).toNat _ _ _
        rw [nextPos_toNat (hi.ring.lt (by decide)).1]
        exact hring
      · rw [backlog, returned_taken h0, List.length_append, List.length_singleton]
        change pending 512 s.delivered _ = _
        rw [pending_succ (by rw [hb]; exact List.cons_ne_nil _ _), hb, List.tail_cons]

theorem consStep_ok {o : ConsOp} :
    consStep o s = .ok t ↔ ∃ a, o.polls.run s = .ok ((), a) ∧ o.takes.run a = .ok ((), t) := by
  rw [consStep, call_eq]
  constructor
  · intro h
    cases hc : (do o.polls; o.takes : C Unit).run s with
    | error e => rw [hc] at h; cases h
    | ok r =>
      rw [hc] at h
      obtain rfl : r.2 = t := Except.ok.inj h
      obtain ⟨_, a, ha, h1⟩ := Prog.bind_ok.1 hc
      exact ⟨a, ha, h1⟩
  · rintro ⟨a, ha, h1⟩
    rw [Prog.run_bind ha, h1]
    rfl

/-- the state after cons_getc has returned 0 -/
theorem ConsInv.noted (hi : ConsInv s) : ConsInv { s with results := s.results ++ [0#32] } := by
  have hret : returned { s with results := s.results ++ [0#32] } = returned s := by simp [returned]
  exact ⟨by rw [hret]; exact hi.ring, hi.bytes⟩

/-- one call keeps the invariant -/
theorem consStep_inv {o : ConsOp} (hi : ConsInv s) (h : consStep o s = .ok t) : ConsInv t := by
  obtain ⟨a, ha, ht⟩ := consStep_ok.1 h
  have hp := (polls_inv hi ha).inv
  cases o with
  | serialIntr ins =>
    obtain ⟨-, rfl⟩ := Prod.mk.inj (Prog.pure_ok.1 ht)
    exact hp
  | kbdIntr ins =>
    obtain ⟨-, rfl⟩ := Prod.mk.inj (Prog.pure_ok.1 ht)
    exact hp
  | getc ins =>
    rcases takes_getc ins hp with ⟨-, hrun⟩ | ⟨c, rest, -, -, hrun, hi', -⟩
    · obtain ⟨-, rfl⟩ := Prod.mk.inj (Except.ok.inj (ht.symm.trans hrun))
      exact hp.noted
    · obtain ⟨-, rfl⟩ := Prod.mk.inj (Except.ok.inj (ht.symm.trans hrun))
      exact hi'

end Buffer

/-! ## First in, first out -/

/-- the characters the call delivers leave at most CONSBUFSIZE-1 unread -/
def AtMost511 (s : ConsSt) (o : ConsOp) : Prop := ∀ t, o.polls.run s = .ok ((), t) → unread t ≤ consbufsize - 1

/-- cons_getc has returned the first of the delivered characters, in order -/
structure Fifo (s : ConsSt) : Prop where
  inv : ConsInv s
  order : returned s <+: s.delivered

section Order

variable {s t : ConsSt}

/-- after the polls of a cons_getc: it returns the next unread character, or 0 if there is none -/
theorem fifo_getc {a : ConsSt} {ins : List (BitVec 8)} (hi : ConsInv a) (ho : returned a <+: a.delivered)
    (hu : unread a ≤ consbufsize - 1) (h : (ConsOp.getc ins).takes.run a = .ok ((), t)) :
    ∃ c, t.results = a.results ++ [c] ∧ t.delivered = a.delivered ∧ ConsInv t ∧
      (c = 0#32 ∧ returned a = a.delivered ∨ c ≠ 0#32 ∧ returned a ++ [c] <+: a.delivered) := by
  have hback : backlog a = a.delivered.drop (returned a).length := by
    refine pending_eq_drop ?_ ho.length_le
    simp only [unread, consbufsize] at hu
    omega
  rcases takes_getc ins hi with ⟨hnil, hrun⟩ | ⟨c, rest, hcons, h0, hrun, hi', -⟩
  · obtain ⟨-, rfl⟩ := Prod.mk.inj (Except.ok.inj (h.symm.trans hrun))
    rw [hback, List.drop_eq_nil_iff] at hnil
    exact ⟨0#32, rfl, rfl, hi.noted, Or.inl ⟨rfl, ho.eq_of_length_le hnil⟩⟩
  · obtain ⟨-, rfl⟩ := Prod.mk.inj (Except.ok.inj (h.symm.trans hrun))
    obtain ⟨l, hl⟩ := ho
    rw [hback, ← hl, List.drop_left] at hcons
    refine ⟨c, rfl, rfl, hi', Or.inr ⟨h0, rest, ?_⟩⟩
    rw [List.append_assoc, List.singleton_append, ← hcons, hl]

theorem fifo_step (o : ConsOp) (hf : Fifo s) (hl : AtMost511 s o) (h : consStep o s = .ok t) : Fifo t := by
  obtain ⟨a, ha, ht⟩ := consStep_ok.1 h
  have hp := polls_inv hf.inv ha
  have ho : returned a <+: a.delivered := by
    rw [hp.returned]
    exact hf.order.trans hp.delivered
  cases o with
  | serialIntr ins =>
    obtain ⟨-, rfl⟩ := Prod.mk.inj (Prog.pure_ok.1 ht)
    exact ⟨hp.inv, ho⟩
  | kbdIntr ins =>
    obtain ⟨-, rfl⟩ := Prod.mk.inj (Prog.pure_ok.1 ht)
    exact ⟨hp.inv, ho⟩
  | getc ins =>
    obtain ⟨c, hres, hdel, hi, hc⟩ := fifo_getc hp.inv ho (hl a ha) ht
    have hret : returned t = returned a ++ [c].filter (· ≠ 0#32) := by
      rw [returned, hres, List.filter_append, returned]
    refine ⟨hi, ?_⟩
    rw [hret, hdel]
    rcases hc with ⟨rfl, -⟩ | ⟨h0, hpre⟩
    · simpa using ho
    · simpa [h0] using hpre

end Order

section Short

variable {s t : ConsSt}

/-- the bytes that the ports answer during the call -/
def ConsOp.answers : ConsOp → List (BitVec 8)
  | .serialIntr ins => ins
  | .kbdIntr ins => ins
  | .getc ins => ins

/-- every delivered character has cost a byte -/
theorem consIntr_cost {proc : C Word}
    (hproc : ∀ {a b : ConsSt} {c : Word}, proc.run a = .ok (c, b) →
      (c = negOne ∨ c.toNat < 256) ∧ SameInput a b ∧ b.ins.length < a.ins.length)
    (fuel : ℕ) {u : Unit} (h : (consIntr proc fuel).run s = .ok (u, t)) :
    t.delivered.length + t.ins.length ≤ s.delivered.length + s.ins.length := by
  induction fuel generalizing s with
  | zero => exact absurd h Prog.throw_ok
  | succ fuel ih =>
    rw [consIntr] at h
    obtain ⟨c, a, ha, h1⟩ := Prog.bind_ok.1 h
    obtain ⟨-, hsame, hlt⟩ := hproc ha
    have hdel := congrArg List.length hsame.delivered
    split_ifs at h1 with hneg h0
    · obtain ⟨-, rfl⟩ := Prod.mk.inj (Prog.pure_ok.1 h1)
      omega
    · have := ih h1
      omega
    · obtain ⟨_, b, hb, h2⟩ := Prog.bind_ok.1 h1
      obtain ⟨-, rfl⟩ := Prod.mk.inj (Prog.modify_ok.1 hb)
      have := ih h2
      simp only [List.length_append, List.length_singleton] at this
      omega

theorem serialIntr_cost {u : Unit} (h : serialIntr.run s = .ok (u, t)) :
    t.delivered.length + t.ins.length ≤ s.delivered.length + s.ins.length := by
  obtain ⟨a, b, hb, h1⟩ := Prog.bind_ok.1 h
  obtain ⟨rfl, rfl⟩ := Prod.mk.inj (Prog.get_ok.1 hb)
  clear h hb
  split_ifs at h1 with hs
  · exact consIntr_cost (fun ha => serialProcData_ok ha) _ h1
  · obtain ⟨-, rfl⟩ := Prod.mk.inj (Prog.pure_ok.1 h1)
    exact le_rfl

theorem kbdIntr_cost {u : Unit} (h : kbdIntr.run s = .ok (u, t)) :
    t.delivered.length + t.ins.length ≤ s.delivered.length + s.ins.length := by
  obtain ⟨a, b, hb, h1⟩ := Prog.bind_ok.1 h
  obtain ⟨rfl, rfl⟩ := Prod.mk.inj (Prog.get_ok.1 hb)
  exact consIntr_cost (fun ha => kbdProcData_ok ha) _ h1

theorem polls_cost {o : ConsOp} (h : o.polls.run s = .ok ((), t)) :
    t.delivered.length ≤ s.delivered.length + o.answers.length := by
  cases o with
  | serialIntr ins =>
    obtain ⟨_, a, ha, h1⟩ := Prog.bind_ok.1 h
    obtain ⟨-, rfl⟩ := Prod.mk.inj (Prog.modify_ok.1 ha)
    exact le_trans (Nat.le_add_right _ _) (serialIntr_cost h1)
  | kbdIntr ins =>
    obtain ⟨_, a, ha, h1⟩ := Prog.bind_ok.1 h
    obtain ⟨-, rfl⟩ := Prod.mk.inj (Prog.modify_ok.1 ha)
    exact le_trans (Nat.le_add_right _ _) (kbdIntr_cost h1)
  | getc ins =>
    obtain ⟨_, a, ha, h1⟩ := Prog.bind_ok.1 h
    obtain ⟨-, rfl⟩ := Prod.mk.inj (Prog.modify_ok.1 ha)
    obtain ⟨_, b, hb, h2⟩ := Prog.bind_ok.1 h1
    exact le_trans (Nat.le_add_right _ _) ((kbdIntr_cost h2).trans (serialIntr_cost hb))

theorem takes_delivered {o : ConsOp} (h : o.takes.run s = .ok ((), t)) : t.delivered = s.delivered := by
  cases o with
  | serialIntr ins => obtain ⟨-, rfl⟩ := Prod.mk.inj (Prog.pure_ok.1 h); rfl
  | kbdIntr ins => obtain ⟨-, rfl⟩ := Prod.mk.inj (Prog.pure_ok.1 h); rfl
  | getc ins =>
    obtain ⟨c, a, ha, h1⟩ := Prog.bind_ok.1 h
    obtain ⟨-, rfl⟩ := Prod.mk.inj (Prog.modify_ok.1 h1)
    obtain ⟨x, b, hb, h2⟩ := Prog.bind_ok.1 ha
    obtain ⟨rfl, rfl⟩ := Prod.mk.inj (Prog.get_ok.1 hb)
    clear h h1 ha hb
    split_ifs at h2 with hne
    · obtain ⟨_, w, hw, h3⟩ := Prog.bind_ok.1 h2
      obtain ⟨-, rfl⟩ := Prod.mk.inj (Prog.set_ok.1 hw)
      obtain ⟨-, rfl⟩ := Prod.mk.inj (Prog.pure_ok.1 h3)
      rfl
    · obtain ⟨-, rfl⟩ := Prod.mk.inj (Prog.pure_ok.1 h2)
      rfl

/-- a run in which the ports answer fewer than 512 bytes leaves fewer than 512 characters unread -/
theorem short_run_legal (s : ConsSt) (os : List ConsOp)
    (h : s.delivered.length + (os.map fun o => o.answers.length).sum < consbufsize) : LegalRun consStep AtMost511 s os := by
  induction os generalizing s with
  | nil => trivial
  | cons o os ih =>
    rw [List.map_cons, List.sum_cons] at h
    refine ⟨?_, fun t ht => ih t ?_⟩
    · intro t ht
      have := polls_cost ht
      unfold unread
      omega
    · obtain ⟨a, ha, hat⟩ := consStep_ok.1 ht
      have := polls_cost ha
      rw [takes_delivered hat]
      omega

end Short

/-- **Console input is a FIFO.** In every run from boot in which at most 511 delivered characters are unread at any time,
the positions stay inside the buffer and the non-zero results of cons_getc are the first delivered characters, in order;
the next cons_getc returns the next of them, and 0 only when none is unread. -/
theorem console_fifo (s t : ConsSt) (os : List ConsOp) (hs : ConsStart s) (hl : LegalRun consStep AtMost511 s os)
    (hrun : runAll consStep os s = .ok t) :
    t.cons.rpos.toNat < consbufsize ∧ t.cons.wpos.toNat < consbufsize ∧ returned t <+: t.delivered ∧
      ∀ ins u, AtMost511 t (.getc ins) → consStep (.getc ins) t = .ok u → ∃ c, u.results = t.results ++ [c] ∧
        (c = 0#32 ∧ returned t = u.delivered ∨ c ≠ 0#32 ∧ returned t ++ [c] <+: u.delivered) := by
  have hstart : Fifo s := ⟨hs.inv, by rw [returned, hs.results]; exact List.nil_prefix⟩
  have hf := runAll_keeps (fun _ o _ hf hl h => fifo_step o hf hl h) s t os hstart hl hrun
  obtain ⟨hr, hw⟩ := hf.inv.ring.lt (by decide)
  refine ⟨hr, hw, hf.order, fun ins u hleg hu => ?_⟩
  obtain ⟨a, ha, ht⟩ := consStep_ok.1 hu
  have hp := polls_inv hf.inv ha
  have ho : returned a <+: a.delivered := by
    rw [hp.returned]
    exact hf.order.trans hp.delivered
  obtain ⟨c, hres, hdel, -, hc⟩ := fifo_getc hp.inv ho (hleg a ha) ht
  rw [hp.results] at hres
  rw [hp.returned, ← hdel] at hc
  exact ⟨c, hres, hc⟩

/-- boot with a serial port, and nothing typed yet -/
def consBoot : ConsSt where
  serialExists := true
  shift := 0
  cons := ⟨fun _ => 0, 0, 0⟩
  ins := []
  outs := []
  delivered := []
  results := []

theorem consBoot_start : ConsStart consBoot := ⟨rfl, rfl, rfl, rfl⟩

/-- line status and keyboard status without data -/
def silence : List (BitVec 8) := [0#8, 0#8]

/-- l arrives at the serial port and a at the keyboard, between two calls of cons_getc -/
theorem console_fifo_typed : ∃ t, runAll consStep [.getc silence, .serialIntr [1#8, 0x6C#8, 0#8],
      .kbdIntr [1#8, 0x1E#8, 0#8], .getc silence] consBoot = .ok t ∧
    t.results = [0#32, 0x6C#32] ∧ t.delivered = [0x6C#32, 0x61#32] ∧ returned t <+: t.delivered := by
  have hobs : (runAll consStep [.getc silence, .serialIntr [1#8, 0x6C#8, 0#8], .kbdIntr [1#8, 0x1E#8, 0#8],
      .getc silence] consBoot).map (fun t => (t.results, t.delivered)) =
      .ok ([0#32, 0x6C#32], [0x6C#32, 0x61#32]) := by decide +kernel
  cases ht : runAll consStep [.getc silence, .serialIntr [1#8, 0x6C#8, 0#8], .kbdIntr [1#8, 0x1E#8, 0#8],
      .getc silence] consBoot with
  | error e => rw [ht] at hobs; cases hobs
  | ok t =>
    rw [ht] at hobs
    obtain ⟨hres, hdel⟩ := Prod.mk.inj (Except.ok.inj hobs)
    have hlegal := short_run_legal consBoot [.getc silence, .serialIntr [1#8, 0x6C#8, 0#8],
      .kbdIntr [1#8, 0x1E#8, 0#8], .getc silence] (by decide)
    exact ⟨t, rfl, hres, hdel, (console_fifo consBoot t _ consBoot_start hlegal ht).2.2.1⟩

end Jos
