/-
The commands of the kernel monitor (kern/monitor.c) beside mon_backtrace.

A command is a sequence of calls of cprintf. It is called on runcmd's stack, where mon_backtrace finds the words of its own
call. Results:
- `cprintfs_prints`: what a sequence of calls prints is what each of them prints, in order;
- `monHelp_prints`, `monKerninfo_prints`: the two commands return 0 and print their texts;
- `Env.enter_word`, `Env.enter_mem`: the words of the call, and what they leave alone;
- `Env.enter_frameText`: so a backtrace begins with its own call, argc first.
-/
import Jos.Monitor.Calls
import Jos.Monitor.Runcmd

namespace Jos

open Jos.Lib

/-! ## kern/monitor.c -/

/-- the addresses that the linker gives to _start, entry, etext, edata and end -/
structure Symbols where
  start : Word
  entry : Word
  etext : Word
  edata : Word
  endk : Word

/-- calls of cprintf, one after the other: what they print -/
def cprintfs (fuel : ℕ) (m : Bytes) : List (List Byte × VaList) → Except Stop (List Word)
  | [] => .ok []
  | (fmt, va) :: calls => do
    let r ← vcprintf fuel (.lit fmt 0) va m
    return r.2.out ++ (← cprintfs fuel m calls)

def helpCalls : List (List Byte × VaList) :=
  commands.map fun c => (str "%s - %s\n", ⟨fun _ => 0#32, fun i => .lit (if i = 0 then c.name else c.desc) 0⟩)

def monHelp (fuel : ℕ) (m : Bytes) : Except Stop (Word × List Word) := do return (0#32, ← cprintfs fuel m helpCalls)

/-- two arguments -/
def pair (a b : Word) : VaList := VaList.ofWords fun i => if i = 0 then a else b

def kerninfoCalls (k : Symbols) : List (List Byte × VaList) :=
  [(str "Special kernel symbols:\n", VaList.ofWords fun _ => 0#32),
    (str "  _start                  %08x (phys)\n", VaList.ofWords fun _ => k.start),
    (str "  entry  %08x (virt)  %08x (phys)\n", pair k.entry (k.entry - kernbase)),
    (str "  etext  %08x (virt)  %08x (phys)\n", pair k.etext (k.etext - kernbase)),
    (str "  edata  %08x (virt)  %08x (phys)\n", pair k.edata (k.edata - kernbase)),
    (str "  end    %08x (virt)  %08x (phys)\n", pair k.endk (k.endk - kernbase)),
    (str "Kernel executable memory footprint: %dKB\n",
      VaList.ofWords fun _ => (roundup (k.endk - k.entry) 1024#32).sdiv 1024#32)]

def monKerninfo (fuel : ℕ) (k : Symbols) (m : Bytes) : Except Stop (Word × List Word) := do
  return (0#32, ← cprintfs fuel m (kerninfoCalls k))

/-- what the monitor is called with: the kernel's tables, the buffer of readline, and the frame of runcmd, which is at the same
place for every line. What stands on the stack above the words of a call (the rest of that frame, and the frames of the
callers) is in the memory, and is taken to stay as it is. -/
structure Env where
  debug : Debug
  symbols : Symbols
  buf : Word
  /-- the address of the array argv, and what it holds before runcmd sets it -/
  argvAt : Word
  argv : ℕ → Word
  tf : Word
  /-- in front of the call of a command, and the address that the call returns to -/
  esp : Word
  ebp : Word
  ret : Word

/-- argc, argv and tf are pushed, and the command is entered -/
def Env.enter (E : Env) (argc : ℕ) (m : Bytes) : Stack :=
  (Stack.call [BitVec.ofNat 32 argc, E.argvAt, E.tf] E.ret ⟨m, E.esp, E.ebp⟩).enter

/-- `commands[i].func`, entered with this stack -/
def command (fuel : ℕ) (E : Env) (s : Stack) : ℕ → Except Stop (Word × List Word)
  | 0 => monHelp fuel s.mem
  | 1 => monKerninfo fuel E.symbols s.mem
  | _ => monBacktrace fuel E.debug s.mem s.ebp

/-! ## What they print -/

/-- "NAME - DESCRIPTION", of every command -/
def helpText : List Word :=
  commands.flatMap fun c => c.name.map int ++ ((str " - ").map int ++ (c.desc.map int ++ (str "\n").map int))

/-- "  NAME  ADDR (virt)  ADDR - KERNBASE (phys)" -/
def symbolText (name : String) (a : Word) : List Word :=
  (str name).map int ++ (hex8 a ++ ((str " (virt)  ").map int ++ (hex8 (a - kernbase) ++ (str " (phys)\n").map int)))

def kerninfoText (k : Symbols) : List Word :=
  (str "Special kernel symbols:\n").map int ++ ((str "  _start                  ").map int ++ (hex8 k.start ++ ((str " (phys)\n").map int ++
    (symbolText "  entry  " k.entry ++ (symbolText "  etext  " k.etext ++ (symbolText "  edata  " k.edata ++
      (symbolText "  end    " k.endk ++ ((str "Kernel executable memory footprint: ").map int ++
        (signedText ((roundup (k.endk - k.entry) 1024#32).sdiv 1024#32) ++ (str "KB\n").map int)))))))))

/-- what a command prints that is entered with this stack, above which are these frames -/
def commandText (E : Env) (s : Stack) (frames : List Word) : ℕ → List Word
  | 0 => helpText
  | 1 => kerninfoText E.symbols
  | _ => (str "Stack backtrace:\n").map int ++ (s.ebp :: frames).flatMap (callText E.debug s.mem)

/-! ## The calls -/

section Calls

variable {m : Bytes}

theorem cprintfs_prints {calls : List (List Byte × VaList)} {outs : List (List Word)}
    (h : List.Forall₂ (fun call out => Prints m call.1 call.2 out) calls outs) :
    ∃ N, ∀ fuel, N ≤ fuel → cprintfs fuel m calls = .ok outs.flatten := by
  induction h with
  | nil => exact ⟨0, fun fuel _ => rfl⟩
  | cons hcall _ ih =>
    obtain ⟨N, hN⟩ := hcall
    obtain ⟨K, hK⟩ := ih
    refine ⟨max N K, fun fuel hfuel => ?_⟩
    obtain ⟨hNf, hKf⟩ := max_le_iff.1 hfuel
    exact Prog.except_bind_ok.2 ⟨_, hN fuel hNf, Prog.except_bind_ok.2 ⟨_, hK fuel hKf, rfl⟩⟩

/-- a string of the table of commands, which is ASCII -/
structure Label (l : List Byte) : Prop where
  short : l.length < 2 ^ 31
  nul : 0#8 ∉ l
  ascii : l.map (shown false) = l.map int

theorem helpLine_prints (m : Bytes) {name desc : List Byte} (hn : Label name) (hd : Label desc) :
    Prints m (str "%s - %s\n") ⟨fun _ => 0#32, fun i => .lit (if i = 0 then name else desc) 0⟩
      (name.map int ++ ((str " - ").map int ++ (desc.map int ++ (str "\n").map int))) := by
  let a : Args := ⟨fun _ => 0#32, fun i => if i = 0 then name else desc⟩
  have hsplit : str "%s - %s\n" = str "%s" ++ (str " - " ++ (str "%s" ++ (str "\n" ++ []))) := by simp [str]
  have htext : render a 0 (pieces (str "%s - %s\n")) =
      name.map int ++ ((str " - ").map int ++ (desc.map int ++ (str "\n").map int)) := by
    have h0 : a.text 0 = name := rfl
    have h1 : a.text 1 = desc := rfl
    rw [hsplit, render_string (by rw [h0]; exact hn.short), render_literal (by decide),
      render_string (by rw [h1]; exact hd.short), render_literal (by decide), h0, h1, hn.ascii, hd.ascii]
    rfl
  have hl : ∀ i, 0#8 ∉ a.text i := by
    intro i h
    change 0#8 ∈ (if i = 0 then name else desc) at h
    split_ifs at h
    · exact hn.nul h
    · exact hd.nul h
  rw [← htext]
  exact vcprintf_strings (by decide) (by decide) a.text hl m

theorem monHelp_prints (m : Bytes) : ∃ N, ∀ fuel, N ≤ fuel → monHelp fuel m = .ok (0#32, helpText) := by
  have hlabels : ∀ c ∈ commands, Label c.name ∧ Label c.desc := by
    intro c hc
    simp only [commands, List.mem_cons, List.not_mem_nil, or_false] at hc
    rcases hc with rfl | rfl | rfl
    · exact ⟨⟨by decide, by decide, by decide⟩, ⟨by decide, by decide, by decide⟩⟩
    · exact ⟨⟨by decide, by decide, by decide⟩, ⟨by decide, by decide, by decide⟩⟩
    · exact ⟨⟨by decide, by decide, by decide⟩, ⟨by decide, by decide, by decide⟩⟩
  have hlines : List.Forall₂ (fun call out => Prints m call.1 call.2 out) helpCalls
      (commands.map fun c => c.name.map int ++ ((str " - ").map int ++ (c.desc.map int ++ (str "\n").map int))) := by
    rw [helpCalls, List.forall₂_map_left_iff, List.forall₂_map_right_iff, List.forall₂_same]
    intro c hc
    exact helpLine_prints m (hlabels c hc).1 (hlabels c hc).2
  obtain ⟨N, hN⟩ := cprintfs_prints hlines
  refine ⟨N, fun fuel hfuel => Prog.except_bind_ok.2 ⟨_, hN fuel hfuel, ?_⟩⟩
  rw [helpText, List.flatMap_def]
  rfl

/-- the line of a symbol -/
theorem symbolLine_prints (m : Bytes) {name : String} (hname : chr '%' ∉ str name) (a : Word) {f : List Byte}
    (hf : f = str name ++ (str "%08x" ++ (str " (virt)  " ++ (str "%08x" ++ (str " (phys)\n" ++ [])))))
    (h0 : 0#8 ∉ f) (hreqs : ∀ x ∈ requests none f 0, x.1 ≠ chr 'e' ∧ x.1 ≠ chr 's') :
    Prints m f (pair a (a - kernbase)) (symbolText name a) := by
  have htext : render ⟨fun i => if i = 0 then a else a - kernbase, fun _ => []⟩ 0 (pieces f) = symbolText name a := by
    rw [hf, render_literal hname, render_hex, render_literal (by decide), render_hex, render_literal (by decide)]
    rfl
  rw [← htext]
  exact vcprintf_words h0 hreqs _ m

theorem startLine_prints (m : Bytes) (a : Word) :
    Prints m (str "  _start                  %08x (phys)\n") (VaList.ofWords fun _ => a)
      ((str "  _start                  ").map int ++ (hex8 a ++ (str " (phys)\n").map int)) := by
  have hsplit : str "  _start                  %08x (phys)\n" =
      str "  _start                  " ++ (str "%08x" ++ (str " (phys)\n" ++ [])) := by simp [str]
  have htext : render ⟨fun _ => a, fun _ => []⟩ 0 (pieces (str "  _start                  %08x (phys)\n")) =
      (str "  _start                  ").map int ++ (hex8 a ++ (str " (phys)\n").map int) := by
    rw [hsplit, render_literal (by decide), render_hex, render_literal (by decide)]
    rfl
  rw [← htext]
  exact vcprintf_words (by decide) (by decide) _ m

theorem footprintLine_prints (m : Bytes) (w : Word) :
    Prints m (str "Kernel executable memory footprint: %dKB\n") (VaList.ofWords fun _ => w)
      ((str "Kernel executable memory footprint: ").map int ++ (signedText w ++ (str "KB\n").map int)) := by
  have hsplit : str "Kernel executable memory footprint: %dKB\n" =
      str "Kernel executable memory footprint: " ++ (str "%d" ++ (str "KB\n" ++ [])) := by simp [str]
  have htext : render ⟨fun _ => w, fun _ => []⟩ 0 (pieces (str "Kernel executable memory footprint: %dKB\n")) =
      (str "Kernel executable memory footprint: ").map int ++ (signedText w ++ (str "KB\n").map int) := by
    rw [hsplit, render_literal (by decide), render_decimal, render_literal (by decide)]
    rfl
  rw [← htext]
  exact vcprintf_words (by decide) (by decide) _ m

theorem monKerninfo_prints (k : Symbols) (m : Bytes) : ∃ N, ∀ fuel, N ≤ fuel →
    monKerninfo fuel k m = .ok (0#32, kerninfoText k) := by
  have htitle : Prints m (str "Special kernel symbols:\n") (VaList.ofWords fun _ => 0#32)
      ((str "Special kernel symbols:\n").map int) := literal_prints (by decide) (by decide) _ m
  have hentry : Prints m (str "  entry  %08x (virt)  %08x (phys)\n") (pair k.entry (k.entry - kernbase))
      (symbolText "  entry  " k.entry) := symbolLine_prints m (by decide) k.entry (by simp [str]) (by decide) (by decide)
  have hetext : Prints m (str "  etext  %08x (virt)  %08x (phys)\n") (pair k.etext (k.etext - kernbase))
      (symbolText "  etext  " k.etext) := symbolLine_prints m (by decide) k.etext (by simp [str]) (by decide) (by decide)
  have hedata : Prints m (str "  edata  %08x (virt)  %08x (phys)\n") (pair k.edata (k.edata - kernbase))
      (symbolText "  edata  " k.edata) := symbolLine_prints m (by decide) k.edata (by simp [str]) (by decide) (by decide)
  have hend : Prints m (str "  end    %08x (virt)  %08x (phys)\n") (pair k.endk (k.endk - kernbase))
      (symbolText "  end    " k.endk) := symbolLine_prints m (by decide) k.endk (by simp [str]) (by decide) (by decide)
  have hlines : List.Forall₂ (fun call out => Prints m call.1 call.2 out) (kerninfoCalls k) [_, _, _, _, _, _, _] :=
    .cons htitle (.cons (startLine_prints m k.start) (.cons hentry (.cons hetext (.cons hedata (.cons hend
      (.cons (footprintLine_prints m ((roundup (k.endk - k.entry) 1024#32).sdiv 1024#32)) .nil))))))
  obtain ⟨N, hN⟩ := cprintfs_prints hlines
  refine ⟨N, fun fuel hfuel => Prog.except_bind_ok.2 ⟨_, hN fuel hfuel, ?_⟩⟩
  simp only [List.flatten_cons, List.flatten_nil, List.append_nil, kerninfoText, List.append_assoc]
  rfl

end Calls

/-! ## The words of a call -/

section Enter

variable {E : Env} {m mem : Bytes} {argc : ℕ} {a : Word}

/-- the frame of the command is 20 bytes below -/
theorem Env.enter_ebp (E : Env) (argc : ℕ) (m : Bytes) : (E.enter argc m).ebp = E.esp - 20#32 := by
  change E.esp - 4#32 - 4#32 - 4#32 - 4#32 - 4#32 = _
  simp only [sub_sub]
  rfl

/-- the saved frame pointer, the return address, argc, argv and tf -/
theorem Env.enter_word (h : 20 ≤ E.esp.toNat) {i : ℕ} {w : Word}
    (hi : [E.ebp, E.ret, BitVec.ofNat 32 argc, E.argvAt, E.tf][i]? = some w) :
    frameWord (E.enter argc m).mem (E.enter argc m).ebp i = w :=
  Stack.call_word [BitVec.ofNat 32 argc, E.argvAt, E.tf] h hi

/-- nothing else is written -/
theorem Env.enter_mem (ha : ∀ k < 20, a ≠ E.esp - 20#32 + BitVec.ofNat 32 k) : (E.enter argc m).mem a = m a := by
  rw [Env.enter, Stack.call_mem]
  refine foldr_push_mem fun k hk => ?_
  have hesp := E.enter_ebp argc m
  change _ ≠ (E.enter argc m).ebp + BitVec.ofNat 32 k
  rw [hesp]
  exact ha k hk

/-- and they are the same whatever was on the stack -/
theorem Env.enter_congr (ha : mem a = m a ∨ ∃ k < 20, a = E.esp - 20#32 + BitVec.ofNat 32 k) :
    (E.enter argc mem).mem a = (E.enter argc m).mem a := by
  rw [Env.enter, Env.enter, Stack.call_mem, Stack.call_mem]
  refine foldr_push_congr (ha.imp_right ?_)
  rintro ⟨k, hk, heq⟩
  refine ⟨k, hk, ?_⟩
  rw [← E.enter_ebp argc m] at heq
  exact heq

/-- the two words above them -/
theorem Env.enter_above (h : 20 ≤ E.esp.toNat) (hfit : E.esp.toNat + 8 ≤ 2 ^ 32) {i : ℕ} (hi : i < 2) :
    frameWord (E.enter argc m).mem (E.enter argc m).ebp (i + 5) = frameWord m E.esp i := by
  have haddr : E.esp - 20#32 + BitVec.ofNat 32 (4 * (i + 5)) = E.esp + BitVec.ofNat 32 (4 * i) := by
    rw [Nat.mul_add, Nat.add_comm, BitVec.ofNat_add, ← BitVec.add_assoc, BitVec.sub_add_cancel]
  have hnat : (E.esp + BitVec.ofNat 32 (4 * i)).toNat = E.esp.toNat + 4 * i := by
    rw [BitVec.toNat_add, BitVec.toNat_ofNat]
    omega
  obtain ⟨-, hkept⟩ := foldr_push [E.ebp, E.ret, BitVec.ofNat 32 argc, E.argvAt, E.tf] ⟨m, E.esp, E.ebp⟩ h
  rw [frameWord, E.enter_ebp, haddr, Env.enter, Stack.call_mem]
  refine hkept _ ?_ ?_
  · rw [hnat]
    exact Nat.le_add_right _ _
  · rw [hnat]
    omega

/-- a backtrace begins with its own call: argc, argv and tf are the first words that it prints as arguments -/
theorem Env.enter_frameText (h : 20 ≤ E.esp.toNat) (hfit : E.esp.toNat + 8 ≤ 2 ^ 32) :
    frameText (E.enter argc m).mem (E.enter argc m).ebp =
      (str "  ebp ").map int ++ (hex8 (E.esp - 20#32) ++ ((str "  eip ").map int ++ (hex8 E.ret ++ ((str "  args").map int ++
        (([BitVec.ofNat 32 argc, E.argvAt, E.tf, frameWord m E.esp 0, frameWord m E.esp 1].flatMap fun w =>
          int (chr ' ') :: hex8 w) ++ [int (chr '\n')]))))) := by
  have hret : frameWord (E.enter argc m).mem (E.enter argc m).ebp 1 = E.ret := Env.enter_word h rfl
  have hargs : (List.range 5).map (fun i => frameWord (E.enter argc m).mem (E.enter argc m).ebp (i + 2)) =
      [BitVec.ofNat 32 argc, E.argvAt, E.tf, frameWord m E.esp 0, frameWord m E.esp 1] := by
    have hrange : List.range 5 = [0, 1, 2, 3, 4] := rfl
    have h3 : frameWord (E.enter argc m).mem (E.enter argc m).ebp (0 + 5) = frameWord m E.esp 0 :=
      Env.enter_above h hfit (by decide)
    have h4 : frameWord (E.enter argc m).mem (E.enter argc m).ebp (1 + 5) = frameWord m E.esp 1 :=
      Env.enter_above h hfit (by decide)
    simp only [hrange, List.map_cons, List.map_nil]
    rw [h3, h4, Env.enter_word (w := BitVec.ofNat 32 argc) h rfl, Env.enter_word (w := E.argvAt) h rfl,
      Env.enter_word (w := E.tf) h rfl]
  rw [frameText, hret, E.enter_ebp, ← hargs, List.flatMap_map, E.enter_ebp]

end Enter

end Jos
