/-
The stack that mon_backtrace walks: what compiled calls leave on it.

entry.S clears the frame pointer in front of the call of i386_init. A function that is called pushes the frame pointer and
sets it to the stack pointer; it may change the stack pointer as it likes below that, store anywhere but on a saved frame
pointer or return address, and goes back through both. The active calls are kept beside the machine, innermost first.
Results:
- `load32_store32`, `load32_store32_of_far`: what a push writes, and what it leaves alone;
- `Stack.call_word`: the words of a call, from its frame pointer on;
- `Active.step`: every step of a call keeps the frames of the active calls;
- `backtrace_calls`: in every run from entry.S, mon_backtrace prints the active calls (`backtrace_calls_nested`).
-/
import Jos.Lib.Run
import Jos.Monitor.Backtrace

namespace Jos

open Jos.Lib

/-! ## Words in memory -/

section Words

variable {m : Image} {a b w : Word}

theorem load32_store32 : load32 (store32 m a w) a = w := by
  have hself : (a - a).toNat = 0 := by rw [BitVec.sub_self]; rfl
  have hat : ∀ k : Word, k.toNat < 4 → store32 m a w (a + k) = (w >>> (8 * k.toNat)).setWidth 8 := by
    intro k hk
    have hsub : a + k - a = k := by rw [BitVec.add_comm, BitVec.add_sub_cancel]
    rw [store32, hsub]
    exact if_pos hk
  have h0 : store32 m a w a = w.setWidth 8 := by
    rw [store32, if_pos (by rw [hself]; decide), hself]
    rfl
  rw [load32, hat 3#32 (by decide), hat 2#32 (by decide), hat 1#32 (by decide), h0]
  apply BitVec.eq_of_toNat_eq
  simp only [Cpu.append_toNat, BitVec.toNat_setWidth, BitVec.toNat_ushiftRight, Nat.shiftRight_eq_div_pow]
  have hlt := w.isLt
  simp
  omega

theorem load32_congr {m' : Image} (h : ∀ k : Word, k.toNat < 4 → m' (a + k) = m (a + k)) : load32 m' a = load32 m a := by
  have h0 := h 0#32 (by decide)
  rw [BitVec.add_zero] at h0
  rw [load32, load32, h 3#32 (by decide), h 2#32 (by decide), h 1#32 (by decide), h0]

/-- a word that does not overlap the one stored -/
theorem load32_store32_of_far (h : a.toNat + 4 ≤ b.toNat) (hb : b.toNat + 4 ≤ 2 ^ 32) : load32 (store32 m a w) b = load32 m b := by
  apply load32_congr
  intro k hk
  have hadd : (b + k).toNat = b.toNat + k.toNat := by
    rw [BitVec.toNat_add]
    omega
  have hsub : (b + k - a).toNat = b.toNat + k.toNat - a.toNat := by
    rw [BitVec.toNat_sub, hadd]
    omega
  rw [store32, if_neg (by omega)]

/-- a byte that is none of the word's -/
theorem store32_of_ne (h : ∀ k < 4, b ≠ a + BitVec.ofNat 32 k) : store32 m a w b = m b := by
  refine if_neg fun hlt => h _ hlt ?_
  rw [BitVec.ofNat_toNat, BitVec.setWidth_eq, BitVec.add_comm, BitVec.sub_add_cancel]

/-- a byte of the word, whatever was there -/
theorem store32_at (m m' : Image) {k : ℕ} (hk : k < 4) :
    store32 m' a w (a + BitVec.ofNat 32 k) = store32 m a w (a + BitVec.ofNat 32 k) := by
  have hsub : (a + BitVec.ofNat 32 k - a).toNat = k := by
    rw [BitVec.add_comm, BitVec.add_sub_cancel, BitVec.toNat_ofNat]
    omega
  rw [store32, store32, if_pos (by rw [hsub]; exact hk), if_pos (by rw [hsub]; exact hk)]

end Words

/-! ## Calls -/

structure Stack where
  mem : Image
  esp : Word
  ebp : Word

namespace Stack

/-- `push w` -/
def push (w : Word) (s : Stack) : Stack := { s with mem := store32 s.mem (s.esp - 4#32) w, esp := s.esp - 4#32 }

/-- the arguments, the last one first, and `call` -/
def call (args : List Word) (ret : Word) (s : Stack) : Stack := (args.foldr push s).push ret

/-- `push %ebp; mov %esp,%ebp` -/
def enter (s : Stack) : Stack := { s.push s.ebp with ebp := (s.push s.ebp).esp }

/-- `leave; ret` -/
def leave (s : Stack) : Stack := { s with esp := s.ebp + 8#32, ebp := load32 s.mem s.ebp }

end Stack

/-- an active call: its frame, and the address it returns to -/
structure Activation where
  frame : Word
  ret : Word
deriving DecidableEq, Repr

/-- the machine, with its active calls -/
structure Running where
  stack : Stack
  calls : List Activation

inductive CallOp where
  | call (args : List Word) (ret : Word)
  /-- a store of the function that is running -/
  | store (a : Word) (b : Byte)
  /-- a new stack pointer: room for locals, and arguments that are dropped -/
  | adjust (a : Word)
  | leave

namespace CallOp

def step : CallOp → Running → Except Stop Running
  | .call args ret, s =>
    let t := (s.stack.call args ret).enter
    .ok { stack := t, calls := ⟨t.ebp, ret⟩ :: s.calls }
  | .store a b, s => .ok { s with stack := { s.stack with mem := Function.update s.stack.mem a b } }
  | .adjust a, s => .ok { s with stack := { s.stack with esp := a } }
  | .leave, s => .ok { stack := s.stack.leave, calls := s.calls.tail }

/-- a call has room on the stack, and nothing is stored on what an active call returns to -/
def Legal (s : Running) : CallOp → Prop
  | .call args _ => 4 * (args.length + 2) < s.stack.esp.toNat
  | .store a _ => ∀ c ∈ s.calls, 8 ≤ (a - c.frame).toNat
  | .adjust a => ∀ c ∈ s.calls, a ≤ c.frame
  | .leave => s.calls ≠ []

instance (s : Running) (o : CallOp) : Decidable (o.Legal s) :=
  match o with
  | .call args _ => inferInstanceAs (Decidable (4 * (args.length + 2) < s.stack.esp.toNat))
  | .store a _ => inferInstanceAs (Decidable (∀ c ∈ s.calls, 8 ≤ (a - c.frame).toNat))
  | .adjust a => inferInstanceAs (Decidable (∀ c ∈ s.calls, a ≤ c.frame))
  | .leave => inferInstanceAs (Decidable (s.calls ≠ []))

end CallOp

/-- in front of the call of i386_init: `movl $0x0,%ebp` and `movl $(bootstacktop),%esp` -/
def Running.boot (m : Image) (bootstacktop : Word) : Running := ⟨⟨m, bootstacktop, 0#32⟩, []⟩

/-- the frames of the active calls, each above the one before and the first of them not below lo -/
def Active (m : Image) : ℕ → Word → List Activation → Prop
  | _, ebp, [] => ebp = 0#32
  | lo, ebp, c :: cs => ebp = c.frame ∧ lo ≤ c.frame.toNat ∧ 0 < c.frame.toNat ∧ c.frame.toNat + 8 ≤ 2 ^ 32 ∧
    frameWord m c.frame 1 = c.ret ∧ Active m (c.frame.toNat + 8) (frameWord m c.frame 0) cs

/-- the state of the machine goes with the active calls -/
def Running.Inv (s : Running) : Prop := Active s.stack.mem s.stack.esp.toNat s.stack.ebp s.calls

section Steps

variable {m m' : Image} {lo lo' : ℕ} {ebp : Word} {cs : List Activation} {s : Stack}

theorem Active.mono (h : Active m lo ebp cs) (hlo : ∀ c ∈ cs, lo' ≤ c.frame.toNat) : Active m lo' ebp cs := by
  cases cs with
  | nil => exact h
  | cons c cs => exact ⟨h.1, hlo c List.mem_cons_self, h.2.2⟩

theorem Active.above (h : Active m lo ebp cs) : ∀ c ∈ cs, lo ≤ c.frame.toNat := by
  induction cs generalizing lo ebp with
  | nil => exact fun c hc => absurd hc List.not_mem_nil
  | cons c cs ih =>
    obtain ⟨-, hlo, -, -, -, hrest⟩ := h
    intro d hd
    rcases List.mem_cons.1 hd with rfl | hd
    · exact hlo
    · have := ih hrest d hd
      omega

/-- the frames are kept if their two words are -/
theorem Active.congr (h : Active m lo ebp cs)
    (hm : ∀ c ∈ cs, c.frame.toNat + 8 ≤ 2 ^ 32 → lo ≤ c.frame.toNat → ∀ i < 2, frameWord m' c.frame i = frameWord m c.frame i) :
    Active m' lo ebp cs := by
  induction cs generalizing lo ebp with
  | nil => exact h
  | cons c cs ih =>
    obtain ⟨he, hlo, hpos, hhi, hret, hrest⟩ := h
    have hc := hm c List.mem_cons_self hhi hlo
    refine ⟨he, hlo, hpos, hhi, (hc 1 (by decide)).trans hret, ?_⟩
    rw [hc 0 (by decide)]
    exact ih hrest fun d hd hdhi hdlo => hm d (List.mem_cons_of_mem c hd) hdhi (by omega)

/-- a list of pushes: the stack pointer goes down, and what is above it stays -/
theorem foldr_push (ws : List Word) (s : Stack) (h : 4 * ws.length ≤ s.esp.toNat) :
    (ws.foldr Stack.push s).esp.toNat = s.esp.toNat - 4 * ws.length ∧
      ∀ b : Word, s.esp.toNat ≤ b.toNat → b.toNat + 4 ≤ 2 ^ 32 → load32 (ws.foldr Stack.push s).mem b = load32 s.mem b := by
  induction ws with
  | nil => exact ⟨rfl, fun b _ _ => rfl⟩
  | cons w ws ih =>
    rw [List.length_cons] at h
    obtain ⟨hesp, hmem⟩ := ih (by omega)
    have hsub : ((ws.foldr Stack.push s).esp - 4#32).toNat = (ws.foldr Stack.push s).esp.toNat - 4 :=
      BitVec.toNat_sub_of_le (show (4#32).toNat ≤ _ by rw [hesp]; change 4 ≤ _; omega)
    refine ⟨?_, fun b hb hb' => ?_⟩
    · change ((ws.foldr Stack.push s).esp - 4#32).toNat = _
      rw [hsub, hesp, List.length_cons]
      omega
    · change load32 (store32 (ws.foldr Stack.push s).mem ((ws.foldr Stack.push s).esp - 4#32) w) b = _
      rw [load32_store32_of_far (by rw [hsub, hesp]; omega) hb', hmem b hb hb']

theorem foldr_push_ebp (ws : List Word) (s : Stack) : (ws.foldr Stack.push s).ebp = s.ebp := by
  induction ws with
  | nil => rfl
  | cons w ws ih => exact ih

/-- the address k + 4 bytes above the word pushed last is k bytes above the one before it -/
theorem pushed_offset (esp : Word) (k : ℕ) : esp - 4#32 + BitVec.ofNat 32 (k + 4) = esp + BitVec.ofNat 32 k := by
  rw [Nat.add_comm, BitVec.ofNat_add, ← BitVec.add_assoc, BitVec.sub_add_cancel]

/-- the words that are pushed stand in the order of the list -/
theorem foldr_push_word (ws : List Word) (h : 4 * ws.length ≤ s.esp.toNat) {i : ℕ} {w : Word} (hi : ws[i]? = some w) :
    load32 (ws.foldr Stack.push s).mem ((ws.foldr Stack.push s).esp + BitVec.ofNat 32 (4 * i)) = w := by
  induction ws generalizing i with
  | nil => cases hi
  | cons v ws ih =>
    rw [List.length_cons] at h
    obtain ⟨hesp, -⟩ := foldr_push ws s (by omega)
    have hsub : ((ws.foldr Stack.push s).esp - 4#32).toNat = (ws.foldr Stack.push s).esp.toNat - 4 :=
      BitVec.toNat_sub_of_le (show (4#32).toNat ≤ _ by rw [hesp]; change 4 ≤ _; omega)
    change load32 (store32 (ws.foldr Stack.push s).mem ((ws.foldr Stack.push s).esp - 4#32) v)
      ((ws.foldr Stack.push s).esp - 4#32 + BitVec.ofNat 32 (4 * i)) = w
    cases i with
    | zero =>
      obtain rfl : v = w := Option.some.inj hi
      rw [BitVec.add_zero, load32_store32]
    | succ i =>
      have hlt := (List.getElem?_eq_some_iff.1 hi).1
      rw [List.length_cons] at hlt
      have hesp' := s.esp.isLt
      have hadd : ((ws.foldr Stack.push s).esp + BitVec.ofNat 32 (4 * i)).toNat = (ws.foldr Stack.push s).esp.toNat + 4 * i := by
        rw [BitVec.toNat_add, BitVec.toNat_ofNat]
        omega
      rw [Nat.mul_succ, pushed_offset, load32_store32_of_far (by omega) (by omega)]
      exact ih (by omega) hi

/-- a byte that is none of theirs -/
theorem foldr_push_mem {ws : List Word} {a : Word}
    (ha : ∀ k < 4 * ws.length, a ≠ (ws.foldr Stack.push s).esp + BitVec.ofNat 32 k) :
    (ws.foldr Stack.push s).mem a = s.mem a := by
  induction ws with
  | nil => rfl
  | cons w ws ih =>
    rw [List.length_cons] at ha
    refine (store32_of_ne fun k hk => ha k (by omega)).trans (ih fun k hk heq => ha (k + 4) (by omega) ?_)
    exact heq.trans (pushed_offset _ k).symm

/-- a byte of theirs, whatever was there -/
theorem foldr_push_congr {ws : List Word} {esp ebp a : Word}
    (ha : m' a = m a ∨ ∃ k < 4 * ws.length, a = (ws.foldr Stack.push ⟨m, esp, ebp⟩).esp + BitVec.ofNat 32 k) :
    (ws.foldr Stack.push ⟨m', esp, ebp⟩).mem a = (ws.foldr Stack.push ⟨m, esp, ebp⟩).mem a := by
  have hesp : ∀ ws : List Word,
      (ws.foldr Stack.push ⟨m', esp, ebp⟩).esp = (ws.foldr Stack.push ⟨m, esp, ebp⟩).esp := by
    intro ws
    induction ws with
    | nil => rfl
    | cons w ws ih => exact congrArg (· - 4#32) ih
  induction ws with
  | nil =>
    rcases ha with ha | ⟨k, hk, -⟩
    · exact ha
    · exact absurd hk (Nat.not_lt_zero k)
  | cons w ws ih =>
    let u : Stack := ws.foldr Stack.push ⟨m, esp, ebp⟩
    have hmem : ∀ t : Stack, (t.push w).mem = store32 t.mem (t.esp - 4#32) w := fun t => rfl
    rw [List.foldr_cons, List.foldr_cons, hmem, hmem, hesp ws]
    by_cases hlow : ∃ k < 4, a = u.esp - 4#32 + BitVec.ofNat 32 k
    · obtain ⟨k, hk, rfl⟩ := hlow
      exact store32_at _ _ hk
    · have hne : ∀ k < 4, a ≠ u.esp - 4#32 + BitVec.ofNat 32 k := fun k hk heq => hlow ⟨k, hk, heq⟩
      rw [store32_of_ne hne, store32_of_ne hne]
      refine ih (ha.imp_right ?_)
      rintro ⟨k, hk, heq⟩
      rw [List.length_cons] at hk
      have hk4 : 4 ≤ k := not_lt.1 fun h => hne k h heq
      refine ⟨k - 4, by omega, ?_⟩
      rw [← pushed_offset, Nat.sub_add_cancel hk4]
      exact heq

/-- what a call leaves on the stack, once its frame is entered -/
theorem Stack.call_mem (s : Stack) (args : List Word) (ret : Word) :
    (s.call args ret).enter.mem = ((s.ebp :: ret :: args).foldr Stack.push s).mem := by
  have hebp : (s.call args ret).ebp = s.ebp := foldr_push_ebp (ret :: args) s
  change ((s.call args ret).push (s.call args ret).ebp).mem = _
  rw [hebp]
  rfl

/-- the words of a call from its frame pointer on: the frame pointer of its caller, the return address and the arguments -/
theorem Stack.call_word (args : List Word) {ret : Word} (h : 4 * (args.length + 2) ≤ s.esp.toNat) {i : ℕ} {w : Word}
    (hi : (s.ebp :: ret :: args)[i]? = some w) : frameWord (s.call args ret).enter.mem (s.call args ret).enter.ebp i = w := by
  rw [frameWord, Stack.call_mem]
  exact foldr_push_word (s.ebp :: ret :: args) h hi

/-- a function that is called: its frame is below everything that was on the stack -/
theorem Active.call (h : Active s.mem s.esp.toNat s.ebp cs) (args : List Word) (ret : Word)
    (hroom : 4 * (args.length + 2) < s.esp.toNat) :
    Active (s.call args ret).enter.mem (s.call args ret).enter.esp.toNat (s.call args ret).enter.ebp
      (⟨(s.call args ret).enter.ebp, ret⟩ :: cs) := by
  let u : Stack := (ret :: args).foldr Stack.push s
  have hlen : (ret :: args).length = args.length + 1 := rfl
  obtain ⟨hesp, hmem⟩ := foldr_push (ret :: args) s (by omega)
  change u.esp.toNat = _ at hesp
  have hframe : (u.esp - 4#32).toNat = u.esp.toNat - 4 :=
    BitVec.toNat_sub_of_le (show (4#32).toNat ≤ _ by rw [hesp]; change 4 ≤ _; omega)
  have hlt := s.esp.isLt
  have hsaved : frameWord (u.push u.ebp).mem (u.esp - 4#32) 0 = s.ebp := Stack.call_word args (le_of_lt hroom) rfl
  have hret : frameWord (u.push u.ebp).mem (u.esp - 4#32) 1 = ret := Stack.call_word args (le_of_lt hroom) rfl
  change Active (u.push u.ebp).mem (u.esp - 4#32).toNat (u.esp - 4#32) (⟨u.esp - 4#32, ret⟩ :: cs)
  refine ⟨rfl, le_refl _, ?_, ?_, hret, ?_⟩
  · change 0 < (u.esp - 4#32).toNat
    omega
  · change (u.esp - 4#32).toNat + 8 ≤ 2 ^ 32
    omega
  · change Active (u.push u.ebp).mem ((u.esp - 4#32).toNat + 8) (frameWord (u.push u.ebp).mem (u.esp - 4#32) 0) cs
    rw [hsaved]
    refine (h.congr fun c hc hhi hlo i hi => ?_).mono fun c hc => ?_
    · have hword : (c.frame + BitVec.ofNat 32 (4 * i)).toNat = c.frame.toNat + 4 * i := by
        rw [BitVec.toNat_add, BitVec.toNat_ofNat]
        omega
      change load32 (store32 u.mem (u.esp - 4#32) u.ebp) (c.frame + BitVec.ofNat 32 (4 * i)) = _
      rw [load32_store32_of_far (by rw [hframe, hesp, hword]; omega) (by omega)]
      exact hmem _ (by omega) (by omega)
    · have := h.above c hc
      omega

/-- **One step** keeps the frames of the active calls. -/
theorem Active.step (o : CallOp) (s : Running) (h : s.Inv) (hl : CallOp.Legal s o) :
    ∃ t, CallOp.step o s = .ok t ∧ t.Inv := by
  cases o with
  | call args ret => exact ⟨_, rfl, Active.call h args ret hl⟩
  | store a b =>
    refine ⟨_, rfl, Active.congr h fun c hc hhi _ i hi => load32_congr fun k hk => Function.update_of_ne ?_ _ _⟩
    intro heq
    have hfar := hl c hc
    have hsub : (a - c.frame).toNat = (BitVec.ofNat 32 (4 * i) + k).toNat := by
      rw [← heq, BitVec.add_assoc, BitVec.add_comm, BitVec.add_sub_cancel]
    rw [hsub, BitVec.toNat_add, BitVec.toNat_ofNat] at hfar
    omega
  | adjust a => exact ⟨_, rfl, Active.mono h fun c hc => hl c hc⟩
  | leave =>
    obtain ⟨stack, calls⟩ := s
    cases calls with
    | nil => exact absurd rfl hl
    | cons c cs =>
      obtain ⟨hebp, -, -, -, -, hrest⟩ := h
      have hsaved : frameWord stack.mem c.frame 0 = load32 stack.mem stack.ebp := by
        have hebp : stack.ebp = c.frame := hebp
        rw [hebp]
        exact congrArg (load32 stack.mem) (BitVec.add_zero _)
      refine ⟨_, rfl, ?_⟩
      change Active stack.mem (stack.ebp + 8#32).toNat (load32 stack.mem stack.ebp) cs
      rw [← hsaved]
      refine hrest.mono fun d hd => ?_
      have habove := hrest.above d hd
      have hebp : stack.ebp = c.frame := hebp
      rw [hebp, BitVec.toNat_add]
      exact le_trans (Nat.mod_le _ _) habove

/-- the walk over the active calls ends at the first of them -/
theorem Active.callers {c : Activation} (h : Active m lo ebp (c :: cs)) :
    ∃ fs f, Callers m ebp fs f ∧ frameWord m f 0 = 0#32 ∧ fs ++ [f] = (c :: cs).map Activation.frame ∧
      ∀ d ∈ c :: cs, frameWord m d.frame 1 = d.ret := by
  induction cs generalizing lo ebp c with
  | nil =>
    obtain ⟨rfl, -, -, -, hret, hend⟩ := h
    refine ⟨[], c.frame, Callers.here _, hend, rfl, ?_⟩
    intro d hd
    rw [List.mem_singleton.1 hd]
    exact hret
  | cons d cs ih =>
    obtain ⟨rfl, -, -, -, hret, hrest⟩ := h
    obtain ⟨fs, f, hwalk, hend, hframes, hrets⟩ := ih hrest
    obtain ⟨hsaved, -, hpos, -⟩ := hrest
    have hne : frameWord m c.frame 0 ≠ 0#32 := by
      rw [hsaved]
      intro h0
      rw [h0] at hpos
      exact absurd hpos (lt_irrefl 0)
    refine ⟨c.frame :: fs, f, Callers.up hne hwalk, hend, ?_, ?_⟩
    · rw [List.cons_append, hframes]
      rfl
    · rintro e (_ | ⟨_, he⟩)
      · exact hret
      · exact hrets e he

end Steps

/-- **The active calls.** From the start of the kernel on, whatever is called, stored and returned from, as long as no store
hits a saved frame pointer or return address: mon_backtrace prints one entry for each active call, innermost first, and the
last one is the first call. -/
theorem backtrace_calls (D : Debug) (m : Image) (bootstacktop : Word) (ops : List CallOp)
    (hl : LegalRun CallOp.step CallOp.Legal (Running.boot m bootstacktop) ops) :
    ∃ s, runAll CallOp.step ops (Running.boot m bootstacktop) = .ok s ∧
      (s.calls ≠ [] → (∀ c ∈ s.calls, ulim ≤ c.ret) →
        ∃ N, ∀ fuel, N ≤ fuel → monBacktrace fuel D s.stack.mem s.stack.ebp =
          .ok (0#32, (str "Stack backtrace:\n").map int ++
            s.calls.flatMap fun c => frameText s.stack.mem c.frame ++ positionText D c.ret)) := by
  obtain ⟨s, hrun, hinv⟩ := runAll_inv (I := Running.Inv) (fun s o hi ho => Active.step o s hi ho)
    (Running.boot m bootstacktop) ops rfl hl
  refine ⟨s, hrun, fun hne hk => ?_⟩
  obtain ⟨c, cs, hcalls⟩ := List.exists_cons_of_ne_nil hne
  rw [Running.Inv, hcalls] at hinv
  obtain ⟨fs, f, hwalk, hend, hframes, hrets⟩ := hinv.callers
  rw [← hcalls] at hframes hrets
  have hkernel : ∀ g ∈ fs ++ [f], InKernel s.stack.mem g := by
    intro g hg
    rw [hframes] at hg
    obtain ⟨d, hd, rfl⟩ := List.mem_map.1 hg
    rw [InKernel, hrets d hd]
    exact hk d hd
  have htext : (fs ++ [f]).flatMap (callText D s.stack.mem) =
      s.calls.flatMap fun c => frameText s.stack.mem c.frame ++ positionText D c.ret := by
    rw [hframes, List.flatMap_map]
    apply List.flatMap_congr
    intro d hd
    rw [callText, hrets d hd]
  rw [← htext]
  exact monBacktrace_prints D hwalk hend hkernel

/-- the table of one file, one function and two lines -/
def twoLinesDebug : Debug where
  stabs := twoLines
  str := twoLinesStr
  header e he := by
    obtain rfl := Option.some.inj he
    decide
  nul := rfl
  small := by decide

/-- i386_init has called a function with the argument 7, which has stored a local variable -/
theorem backtrace_calls_nested : ∃ s,
    runAll CallOp.step [.call [] 0xf0100002#32, .call [7#32] 0xf0100001#32, .adjust 0xf010ff00#32, .store 0xf010ffe8#32 1#8]
      (Running.boot (fun _ => 0#8) 0xf0110000#32) = .ok s ∧
    s.calls = [⟨0xf010ffec#32, 0xf0100001#32⟩, ⟨0xf010fff8#32, 0xf0100002#32⟩] ∧
    ∃ N, ∀ fuel, N ≤ fuel → monBacktrace fuel twoLinesDebug s.stack.mem s.stack.ebp =
      .ok (0#32, (str "Stack backtrace:\n").map int ++
        s.calls.flatMap fun c => frameText s.stack.mem c.frame ++ positionText twoLinesDebug c.ret) := by
  let ops : List CallOp :=
    [.call [] 0xf0100002#32, .call [7#32] 0xf0100001#32, .adjust 0xf010ff00#32, .store 0xf010ffe8#32 1#8]
  have hl : LegalRun CallOp.step CallOp.Legal (Running.boot (fun _ => 0#8) 0xf0110000#32) ops := by
    refine ⟨by decide, fun s1 h1 => ?_⟩
    obtain rfl := Except.ok.inj h1
    refine ⟨by decide, fun s2 h2 => ?_⟩
    obtain rfl := Except.ok.inj h2
    refine ⟨by decide, fun s3 h3 => ?_⟩
    obtain rfl := Except.ok.inj h3
    exact ⟨by decide, fun s4 _ => trivial⟩
  obtain ⟨s, hrun, hprints⟩ := backtrace_calls twoLinesDebug (fun _ => 0#8) 0xf0110000#32 ops hl
  have hcalls : s.calls = [⟨0xf010ffec#32, 0xf0100001#32⟩, ⟨0xf010fff8#32, 0xf0100002#32⟩] := by
    obtain rfl := Except.ok.inj hrun
    decide
  refine ⟨s, hrun, hcalls, hprints ?_ ?_⟩
  · rw [hcalls]
    exact List.cons_ne_nil _ _
  · rw [hcalls]
    decide

end Jos
