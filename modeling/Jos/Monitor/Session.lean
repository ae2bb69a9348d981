/-
The kernel monitor: its loop over readline and runcmd (kern/monitor.c).

Everything that is typed and printed goes through cputchar, so a session is a text: a prompt, the echo of a line, and what its
command prints, line after line. `answer` is what one line comes to; a command sees the words of its own call on the stack, so
that a backtrace shows how many words the line had. Results:
- `runLine_prints`: a line that is run prints its answer, returns 0 and writes to the line buffer and to the stack of the call
  only;
- `monitorLoop_line`: one round of the loop;
- `monitor_session`: every input is a session, and no input makes monitor return (`monitor_session_backtrace`);
- `keyboard_session`: the same from the scan codes of the keyboard (`keyboard_session_help`).
-/
import Jos.Console.Readline
import Jos.Console.Typing
import Jos.Monitor.Commands

namespace Jos

open Jos.Lib

/-! ## kern/monitor.c -/

/-- the end of runcmd: the result, the memory and what has been printed -/
def called (fuel : ℕ) (E : Env) (s : Parse) : Result → Except Stop (Word × Bytes × List Word)
  | .zero out => .ok (0#32, s.mem, out)
  | .call i => do
    let t := E.enter s.argc s.mem
    let (ret, out) ← command fuel E t i
    return (ret, t.mem, out)

/-- runcmd with its command -/
def runLine (fuel : ℕ) (E : Env) (m : Bytes) (buf : Word) : Except Stop (Word × Bytes × List Word) := do
  let (s, r) ← runcmd fuel m buf E.argv
  called fuel E s r

/-- monitor waits in readline for a character, or it has returned -/
inductive Monitoring where
  | waiting (s : Line)
  | returned (mem : Bytes) (scr : Crt)

/-- `while (1)` -/
def monitorLoop (fuel : ℕ) (E : Env) : ℕ → List Word → Bytes → Crt → Except Stop Monitoring
  | 0, _, _, _ => .error .steps
  | n + 1, input, m, scr => do
    let (reading, rest) ← readlineStream fuel E.buf (.lit (str "K> ") 0) m scr input
    match reading with
    | .on s => return .waiting s
    | .done s buf =>
      if buf ≠ 0#32 then do
        let (ret, m, out) ← runLine fuel E s.mem buf
        if ret.slt 0#32 then return .returned m (cputchars s.scr out)
        else monitorLoop fuel E n rest m (cputchars s.scr out)
      else monitorLoop fuel E n rest s.mem s.scr

def welcomeCalls : List (List Byte × VaList) :=
  [(str "Welcome to the JOS kernel monitor!\n", VaList.ofWords fun _ => 0#32),
    (str "Type 'help' for a list of commands.\n", VaList.ofWords fun _ => 0#32)]

def monitor (fuel : ℕ) (E : Env) (input : List Word) (m : Bytes) (scr : Crt) : Except Stop Monitoring := do
  let out ← cprintfs fuel m welcomeCalls
  monitorLoop fuel E fuel input m (cputchars scr out)

/-! ## What a session is -/

/-- what a line with these words comes to; the words of a line buffer are not at 0 -/
def answer (E : Env) (m : Bytes) (frames : List Word) (ws : List (List Byte)) : List Word :=
  match reply E.buf ws with
  | .zero out => out
  | .call i => commandText E (E.enter ws.length m) frames i

/-- a line that was typed and ended: the prompt, its echo, and its answer -/
def lineText (E : Env) (m : Bytes) (frames : List Word) (typed : List Byte) : List Word :=
  (str "K> ").map int ++ (echoes [] typed ++ (int (chr '\n') :: answer E m frames (words white (typed.foldl keep []))))

/-! ## Lines -/

section Lines

variable {E : Env} {m : Bytes} {buf : Word} {s : Line} {l : List Byte} {c : Byte} {frames : List Word}

theorem reply_arg {arg arg' : Word} {ws : List (List Byte)} (h : ws ≠ [] → ws.length ≤ maxArgs - 1 → arg ≠ 0#32)
    (h' : arg' ≠ 0#32) : reply arg ws = reply arg' ws := by
  cases ws with
  | nil => rfl
  | cons w ws =>
    rw [reply, reply]
    by_cases hfull : maxArgs - 1 < (w :: ws).length
    · rw [if_pos hfull, if_pos hfull]
    · have harg : arg ≠ 0#32 := h (List.cons_ne_nil w ws) (not_lt.1 hfull)
      rw [if_neg hfull, if_neg hfull, unknownText, unknownText, if_neg harg, if_neg h']

/-- a command that is called is in the table, and argc counts the words -/
theorem reply_call {arg : Word} {ws : List (List Byte)} {i : ℕ} (h : reply arg ws = .call i) :
    i < commands.length ∧ ws.length ≤ maxArgs - 1 := by
  cases ws with
  | nil => cases h
  | cons w ws =>
    rw [reply] at h
    by_cases hfull : maxArgs - 1 < (w :: ws).length
    · rw [if_pos hfull] at h
      cases h
    · rw [if_neg hfull] at h
      cases hfind : commands.findIdx? fun c => c.name = w with
      | none =>
        rw [hfind] at h
        cases h
      | some j =>
        rw [hfind] at h
        obtain rfl := Result.call.inj h
        exact ⟨(List.findIdx?_eq_some_iff_getElem.1 hfind).1, not_lt.1 hfull⟩

/-- the memory is that of m, but for the line buffer and the words of a call -/
def Beyond (m : Bytes) (E : Env) (mem : Bytes) : Prop :=
  ∀ a, (∀ j < bufLen, a ≠ E.buf + BitVec.ofNat 32 j) → (∀ k < 20, a ≠ E.esp - 20#32 + BitVec.ofNat 32 k) → mem a = m a

theorem Beyond.enter {mem : Bytes} (h : Beyond m E mem) (argc : ℕ) : Beyond m E (E.enter argc mem).mem :=
  fun a ha hk => (Env.enter_mem hk).trans (h a ha hk)

/-- every command returns 0 and prints its text, whatever is in the line buffer -/
def Answers (E : Env) (m : Bytes) (frames : List Word) : Prop :=
  ∀ mem, Beyond m E mem → ∀ argc, ∀ i < commands.length, ∃ N, ∀ fuel, N ≤ fuel →
    command fuel E (E.enter argc mem) i = .ok (0#32, commandText E (E.enter argc m) frames i)

/-- the command of a line that is parsed -/
theorem called_prints (hE : Answers E m frames) {t : Parse} (hmem : Beyond m E t.mem) {ws : List (List Byte)}
    (hargc : ws.length ≤ maxArgs - 1 → t.argc = ws.length) : ∃ N mem', Beyond m E mem' ∧ ∀ fuel, N ≤ fuel →
      called fuel E t (reply E.buf ws) = .ok (0#32, mem', answer E m frames ws) := by
  rw [answer]
  cases hreply : reply E.buf ws with
  | zero out => exact ⟨0, t.mem, hmem, fun fuel _ => rfl⟩
  | call i =>
    obtain ⟨hi, hroom⟩ := reply_call hreply
    obtain ⟨N, hN⟩ := hE t.mem hmem ws.length i hi
    refine ⟨N, (E.enter ws.length t.mem).mem, hmem.enter ws.length, fun fuel hfuel => ?_⟩
    rw [called, hargc hroom]
    exact Prog.except_bind_ok.2 ⟨_, hN fuel hfuel, rfl⟩

/-- **A line is run**: it prints its answer, returns 0, and nothing but the line buffer and the words of a call is written. -/
theorem runLine_prints (hE : Answers E m frames) (hbuf : 0 < E.buf.toNat) (hfit : E.buf.toNat + bufLen ≤ 2 ^ 32)
    {mem : Bytes} (hmem : Beyond m E mem) (h0 : 0#8 ∉ l) (hlen : l.length < bufLen)
    (h : Reads (Bytes.reader mem) (.mem E.buf) (l ++ [0#8])) :
    ∃ N mem', Beyond m E mem' ∧ ∀ fuel, N ≤ fuel →
      runLine fuel E mem E.buf = .ok (0#32, mem', answer E m frames (words white l)) := by
  have hbufLen : bufLen = 1024 := rfl
  obtain ⟨N, s, o, hrun, honly, -, hargs, -, hreply⟩ := runcmd_replies h0 h E.argv
  have hsmem : Beyond m E s.mem := by
    intro a ha hk
    rcases honly a with hsame | ⟨-, i, c, hi, -, heq⟩
    · exact hsame.trans (hmem a ha hk)
    · have hi := (List.getElem?_eq_some_iff.1 hi).1
      exact absurd heq (ha i (by omega))
  -- the first word is in the buffer, which does not begin at 0
  have hfirst : words white l ≠ [] → (words white l).length ≤ maxArgs - 1 → s.argv 0 ≠ 0#32 := by
    intro hne hroom
    obtain ⟨w, ws, hws⟩ := List.exists_cons_of_ne_nil hne
    obtain ⟨⟨k, hk, hptr⟩, hw, -⟩ := (hargs hroom).2.1 0 w (by rw [hws]; rfl)
    have hpos := List.length_pos_of_ne_nil hw
    intro hz
    rw [hptr] at hz
    have hnat := congrArg BitVec.toNat hz
    rw [BitVec.toNat_add, BitVec.toNat_ofNat] at hnat
    change _ = 0 at hnat
    omega
  have hne : E.buf ≠ 0#32 := fun hz => by
    rw [hz] at hbuf
    exact absurd hbuf (lt_irrefl 0)
  have ho : o = reply E.buf (words white l) := (hreply (by omega)).trans (reply_arg hfirst hne)
  obtain ⟨K, mem', hmem', hcalled⟩ := called_prints hE hsmem fun hroom => (hargs hroom).1
  refine ⟨max N K, mem', hmem', fun fuel hfuel => ?_⟩
  obtain ⟨hNf, hKf⟩ := max_le_iff.1 hfuel
  rw [runLine, hrun fuel hNf, ho]
  exact hcalled fuel hKf

end Lines

/-! ## The session -/

section Session

variable {E : Env} {m mem : Bytes} {scr : Crt} {t : Term} {frames : List Word}

/-- the frames of the callers, from runcmd's on: all of them are called from the kernel and lie above the words of the call, and
neither they nor those words are in the line buffer -/
structure Walk (m : Bytes) (E : Env) (frames : List Word) : Prop where
  path : ∃ fs f, frames = fs ++ [f] ∧ Callers m E.ebp fs f ∧ frameWord m f 0 = 0#32
  called : ulim ≤ E.ret
  kernel : ∀ g ∈ frames, InKernel m g
  room : 20 ≤ E.esp.toNat
  above : ∀ g ∈ frames, E.esp ≤ g ∧ g.toNat + 28 ≤ 2 ^ 32
  apart : ∀ g ∈ (E.esp - 20#32) :: frames, ∀ k < 28, ∀ j < bufLen, g + BitVec.ofNat 32 k ≠ E.buf + BitVec.ofNat 32 j

theorem Callers.congr {ebp f : Word} {fs : List Word} (h : Callers m ebp fs f)
    (hm : ∀ g ∈ fs, frameWord mem g 0 = frameWord m g 0) : Callers mem ebp fs f := by
  induction h with
  | here ebp => exact Callers.here ebp
  | @up ebp fs f hne _ ih =>
    have h0 := hm ebp List.mem_cons_self
    refine Callers.up (h0 ▸ hne) ?_
    rw [h0]
    exact ih fun g hg => hm g (List.mem_cons_of_mem _ hg)

/-- seven words whose bytes are the same -/
theorem frameWord_congr {g : Word} (h : ∀ k < 28, mem (g + BitVec.ofNat 32 k) = m (g + BitVec.ofNat 32 k)) {i : ℕ}
    (hi : i < 7) : frameWord mem g i = frameWord m g i := by
  refine load32_congr fun k hk => ?_
  have hbyte := h (4 * i + k.toNat) (by omega)
  rwa [BitVec.ofNat_add, ← BitVec.add_assoc, BitVec.ofNat_toNat, BitVec.setWidth_eq] at hbyte

/-- which are all that a backtrace reads of a frame -/
theorem callText_congr (D : Debug) {g : Word} (h : ∀ k < 28, mem (g + BitVec.ofNat 32 k) = m (g + BitVec.ofNat 32 k)) :
    callText D mem g = callText D m g := by
  have hwords : ((List.range 5).flatMap fun i => int (chr ' ') :: hex8 (frameWord mem g (i + 2))) =
      (List.range 5).flatMap fun i => int (chr ' ') :: hex8 (frameWord m g (i + 2)) := by
    apply List.flatMap_congr
    intro i hi
    have hlt := List.mem_range.1 hi
    rw [frameWord_congr h (by omega)]
  rw [callText, callText, frameText, frameText, hwords, frameWord_congr h (by decide)]

/-- the frames of the callers are beyond the line buffer and the words of the call -/
theorem Walk.bytes_eq (h : Walk m E frames) (hmem : Beyond m E mem) {g : Word} (hg : g ∈ frames) :
    ∀ k < 28, mem (g + BitVec.ofNat 32 k) = m (g + BitVec.ofNat 32 k) := by
  intro k hk
  refine hmem _ (fun j hj => h.apart g (List.mem_cons_of_mem _ hg) k hk j hj) fun n hn heq => ?_
  obtain ⟨hle, hfit⟩ := h.above g hg
  have hroom := h.room
  have hsub : (E.esp - 20#32).toNat = E.esp.toNat - 20 := BitVec.toNat_sub_of_le hroom
  have hnat := congrArg BitVec.toNat heq
  rw [BitVec.le_def] at hle
  rw [BitVec.toNat_add, BitVec.toNat_add, BitVec.toNat_ofNat, BitVec.toNat_ofNat, hsub] at hnat
  omega

/-- the frame of the command itself is the same, whatever is in the line buffer -/
theorem Walk.own_eq (h : Walk m E frames) (hmem : Beyond m E mem) (argc : ℕ) : ∀ k < 28,
    (E.enter argc mem).mem (E.esp - 20#32 + BitVec.ofNat 32 k) = (E.enter argc m).mem (E.esp - 20#32 + BitVec.ofNat 32 k) := by
  intro k hk
  apply Env.enter_congr
  by_cases hlow : ∃ n < 20, E.esp - 20#32 + BitVec.ofNat 32 k = E.esp - 20#32 + BitVec.ofNat 32 n
  · exact Or.inr hlow
  · exact Or.inl (hmem _ (fun j hj => h.apart _ List.mem_cons_self k hk j hj) fun n hn heq => hlow ⟨n, hn, heq⟩)

theorem Walk.ebp_ne (h : Walk m E frames) : E.ebp ≠ 0#32 := by
  obtain ⟨fs, f, hframes, hpath, -⟩ := h.path
  have hfirst : E.ebp ∈ frames := by
    rw [hframes]
    cases hpath with
    | here => exact List.mem_cons_self
    | up => exact List.mem_cons_self
  have hle := (h.above _ hfirst).1
  have hroom := h.room
  rw [BitVec.le_def] at hle
  intro h0
  have hzero : E.ebp.toNat = 0 := by
    rw [h0]
    rfl
  omega

/-- mon_backtrace from a frame of its own below those of the callers -/
theorem Walk.prints (h : Walk m E frames) {s : Stack} (hsaved : frameWord s.mem s.ebp 0 = E.ebp)
    (hret : frameWord s.mem s.ebp 1 = E.ret)
    (hbytes : ∀ g ∈ frames, ∀ k < 28, s.mem (g + BitVec.ofNat 32 k) = m (g + BitVec.ofNat 32 k)) :
    ∃ N, ∀ fuel, N ≤ fuel → monBacktrace fuel E.debug s.mem s.ebp =
      .ok (0#32, (str "Stack backtrace:\n").map int ++ (s.ebp :: frames).flatMap (callText E.debug s.mem)) := by
  obtain ⟨fs, f, rfl, hpath, hend⟩ := h.path
  have hwalk : Callers s.mem s.ebp (s.ebp :: fs) f := by
    refine Callers.up (hsaved ▸ h.ebp_ne) ?_
    rw [hsaved]
    exact hpath.congr fun g hg => frameWord_congr (hbytes g (List.mem_append_left [f] hg)) (by decide)
  have hlast : frameWord s.mem f 0 = 0#32 :=
    (frameWord_congr (hbytes f (List.mem_append_right fs List.mem_cons_self)) (by decide)).trans hend
  refine monBacktrace_prints E.debug hwalk hlast fun g hg => ?_
  rcases List.mem_cons.1 hg with rfl | hg
  · rw [InKernel, hret]
    exact h.called
  · rw [InKernel, frameWord_congr (hbytes g hg) (by decide)]
    exact h.kernel g hg

/-- what it prints does not depend on the line buffer -/
theorem Walk.text_eq (h : Walk m E frames) (hmem : Beyond m E mem) (argc : ℕ) :
    ((E.enter argc mem).ebp :: frames).flatMap (callText E.debug (E.enter argc mem).mem) =
      ((E.enter argc m).ebp :: frames).flatMap (callText E.debug (E.enter argc m).mem) := by
  have hm : Beyond m E m := fun a _ _ => rfl
  rw [List.flatMap_cons, List.flatMap_cons, E.enter_ebp, E.enter_ebp, callText_congr E.debug (h.own_eq hmem argc)]
  refine congrArg (_ ++ ·) (List.flatMap_congr fun g hg => ?_)
  rw [callText_congr E.debug (h.bytes_eq (hmem.enter argc) hg), callText_congr E.debug (h.bytes_eq (hm.enter argc) hg)]

theorem Walk.answers (h : Walk m E frames) : Answers E m frames := by
  intro mem hmem argc i hi
  have hlen : commands.length = 3 := rfl
  have hcases : i = 0 ∨ i = 1 ∨ i = 2 := by omega
  rcases hcases with rfl | rfl | rfl
  · exact monHelp_prints _
  · exact monKerninfo_prints E.symbols _
  · have hprints := h.prints (s := E.enter argc mem) (Env.enter_word h.room rfl) (Env.enter_word h.room rfl)
      fun g hg => h.bytes_eq (hmem.enter argc) hg
    rw [h.text_eq hmem argc] at hprints
    exact hprints

theorem prompt_isPrompt (m : Bytes) : IsPrompt m (.lit (str "K> ") 0) (str "K> ") :=
  Or.inr ⟨by decide, Reads.lit fun _ => rfl⟩

theorem prompt_text : promptText (.lit (str "K> ") 0) (str "K> ") = (str "K> ").map int := by decide

/-- **One round**: a line that is typed and ended. -/
theorem monitorLoop_line (hE : Answers E m frames) (hbuf : 0 < E.buf.toNat) (hfit : E.buf.toNat + bufLen ≤ 2 ^ 32)
    (hmem : Beyond m E mem) (hscr : Visible scr t) {typed : List Byte} (htyped : ∀ c ∈ typed, ¬ EndOfLine c) {c : Byte}
    (hc : EndOfLine c) : ∃ N mem', Beyond m E mem' ∧ ∀ fuel, N ≤ fuel → ∀ n rest,
      monitorLoop fuel E (n + 1) (typed.map int ++ int c :: rest) mem scr =
        monitorLoop fuel E n rest mem' (cputchars scr (lineText E m frames typed)) := by
  let l := typed.foldl keep []
  obtain ⟨N, hN⟩ := readlineStream_line (prompt_isPrompt mem) E.buf hscr
  obtain ⟨s, hs, hsscr, hstream⟩ := hN typed htyped
  obtain ⟨u, hu, huscr, hend⟩ := readlineLoop_end hs hc
  have humem : Beyond m E u.mem := fun a ha hk => (hu.rest a ha).trans (hmem a ha hk)
  have hbufLen : bufLen = 1024 := rfl
  have hroom := hs.room
  obtain ⟨K, mem', hmem', hline⟩ := runLine_prints hE hbuf hfit humem hu.nul (by omega) hu.text
  refine ⟨max N K, mem', hmem', fun fuel hfuel n rest => ?_⟩
  obtain ⟨hNf, hKf⟩ := max_le_iff.1 hfuel
  have hne : E.buf ≠ 0#32 := fun h0 => by
    rw [h0] at hbuf
    exact absurd hbuf (lt_irrefl 0)
  have hscreen : cputchars u.scr (answer E m frames (words white l)) = cputchars scr (lineText E m frames typed) := by
    rw [huscr, hsscr, prompt_text, lineText, cputchars_append, cputchars_append, cputchars_append]
    rfl
  rw [monitorLoop, hstream fuel hNf, hend fuel]
  change (if E.buf ≠ 0#32 then _ else _) = _
  rw [if_pos hne, hline fuel hKf]
  -- 0 is not negative: the loop goes on
  exact congrArg (monitorLoop fuel E n rest mem') hscreen

/-- a line that is not ended: monitor waits for the rest of it -/
theorem monitorLoop_wait (hscr : Visible scr t) {typed : List Byte} (htyped : ∀ c ∈ typed, ¬ EndOfLine c) (E : Env)
    (mem : Bytes) : ∃ N s, Holds mem E.buf s (typed.foldl keep []) ∧
      s.scr = cputchars scr ((str "K> ").map int ++ echoes [] typed) ∧
      ∀ fuel, N ≤ fuel → ∀ n, monitorLoop fuel E (n + 1) (typed.map int) mem scr = .ok (.waiting s) := by
  obtain ⟨N, hN⟩ := readlineStream_line (prompt_isPrompt mem) E.buf hscr
  obtain ⟨s, hs, hsscr, hstream⟩ := hN typed htyped
  rw [prompt_text] at hsscr
  refine ⟨N, s, hs, hsscr, fun fuel hfuel n => ?_⟩
  have hread := hstream fuel hfuel []
  rw [List.append_nil] at hread
  rw [monitorLoop, hread]
  rfl

/-- the lines of a session, each with the character that ends it -/
def typedText (lines : List (List Byte × Byte)) (last : List Byte) : List Byte :=
  lines.flatMap (fun p => p.1 ++ [p.2]) ++ last

/-- **The loop** over the lines of a session. -/
theorem monitorLoop_session (hE : Answers E m frames) (hbuf : 0 < E.buf.toNat) (hfit : E.buf.toNat + bufLen ≤ 2 ^ 32)
    {last : List Byte} (hlast : ∀ c ∈ last, ¬ EndOfLine c) {lines : List (List Byte × Byte)}
    (hlines : ∀ p ∈ lines, (∀ c ∈ p.1, ¬ EndOfLine c) ∧ EndOfLine p.2) (hmem : Beyond m E mem) (hscr : Visible scr t) :
    ∃ N s mem', Beyond m E mem' ∧ Holds mem' E.buf s (last.foldl keep []) ∧
      s.scr = cputchars scr ((lines.flatMap fun p => lineText E m frames p.1) ++ ((str "K> ").map int ++ echoes [] last)) ∧
      ∀ fuel, N ≤ fuel → ∀ n, lines.length < n →
        monitorLoop fuel E n ((typedText lines last).map int) mem scr = .ok (.waiting s) := by
  induction lines generalizing mem scr t with
  | nil =>
    obtain ⟨N, s, hs, hsscr, hrun⟩ := monitorLoop_wait hscr hlast E mem
    refine ⟨N, s, mem, hmem, hs, hsscr, fun fuel hfuel n hn => ?_⟩
    obtain ⟨n, rfl⟩ := Nat.exists_eq_add_of_lt hn
    exact hrun fuel hfuel _
  | cons p lines ih =>
    obtain ⟨htyped, hend⟩ := hlines p List.mem_cons_self
    obtain ⟨N, mem₁, hmem₁, hround⟩ := monitorLoop_line hE hbuf hfit hmem hscr htyped hend
    obtain ⟨K, s, mem', hmem', hs, hsscr, hrun⟩ := ih (fun q hq => hlines q (List.mem_cons_of_mem p hq)) hmem₁
      (cputchars_visible hscr (lineText E m frames p.1))
    refine ⟨max N K, s, mem', hmem', hs, ?_, fun fuel hfuel n hn => ?_⟩
    · rw [hsscr, List.flatMap_cons, List.append_assoc, ← cputchars_append]
    · obtain ⟨hNf, hKf⟩ := max_le_iff.1 hfuel
      rw [List.length_cons] at hn
      obtain ⟨n, rfl⟩ := Nat.exists_eq_add_of_lt hn
      have hsplit : (typedText (p :: lines) last).map int =
          p.1.map int ++ int p.2 :: (typedText lines last).map int := by
        simp [typedText]
      rw [hsplit, hround fuel hNf]
      exact hrun fuel hKf _ (by omega)

theorem welcome_prints (m : Bytes) : ∃ N, ∀ fuel, N ≤ fuel → cprintfs fuel m welcomeCalls =
    .ok ((str "Welcome to the JOS kernel monitor!\n").map int ++
      (str "Type 'help' for a list of commands.\n").map int) := by
  have hlines : List.Forall₂ (fun call out => Prints m call.1 call.2 out) welcomeCalls [_, _] :=
    .cons (literal_prints (by decide) (by decide) _ m) (.cons (literal_prints (by decide) (by decide) _ m) .nil)
  obtain ⟨N, hN⟩ := cprintfs_prints hlines
  refine ⟨N, fun fuel hfuel => (hN fuel hfuel).trans ?_⟩
  simp only [List.flatten_cons, List.flatten_nil, List.append_nil]

/-- monitor from its welcome on -/
theorem monitor_prints (hwalk : Walk m E frames) (hbuf : 0 < E.buf.toNat) (hfit : E.buf.toNat + bufLen ≤ 2 ^ 32)
    (hscr : Visible scr t) {lines : List (List Byte × Byte)} {last : List Byte}
    (hlines : ∀ p ∈ lines, (∀ c ∈ p.1, ¬ EndOfLine c) ∧ EndOfLine p.2) (hlast : ∀ c ∈ last, ¬ EndOfLine c) :
    ∃ N s mem, (∀ fuel, N ≤ fuel → monitor fuel E ((typedText lines last).map int) m scr = .ok (.waiting s)) ∧
      Beyond m E mem ∧ Holds mem E.buf s (last.foldl keep []) ∧
      s.scr = cputchars scr ((str "Welcome to the JOS kernel monitor!\n").map int ++
        ((str "Type 'help' for a list of commands.\n").map int ++ ((lines.flatMap fun p => lineText E m frames p.1) ++
          ((str "K> ").map int ++ echoes [] last)))) := by
  obtain ⟨N, hwelcome⟩ := welcome_prints m
  obtain ⟨K, s, mem, hmem, hs, hsscr, hrun⟩ := monitorLoop_session hwalk.answers hbuf hfit hlast hlines
    (fun a _ _ => rfl : Beyond m E m) (cputchars_visible hscr _)
  refine ⟨max (max N K) (lines.length + 1), s, mem, fun fuel hfuel => ?_, hmem, hs, ?_⟩
  · obtain ⟨hNK, hlen⟩ := max_le_iff.1 hfuel
    obtain ⟨hNf, hKf⟩ := max_le_iff.1 hNK
    rw [monitor, hwelcome fuel hNf]
    exact hrun fuel hKf fuel hlen
  · rw [hsscr, ← cputchars_append, List.append_assoc]

/-- **A session.** Whatever is typed, monitor does not return: each ended line is edited, echoed, run and answered in order,
and the last one is waited for. The screen is that text, printed from where the cursor was; only the line buffer and the words
of the commands' calls have been written, and the buffer holds the last line. -/
theorem monitor_session (E : Env) (m : Bytes) (frames : List Word) (hwalk : Walk m E frames)
    (hbuf : 0 < E.buf.toNat) (hfit : E.buf.toNat + bufLen ≤ 2 ^ 32) (scr : Crt) (t : Term) (hscr : Visible scr t)
    (lines : List (List Byte × Byte)) (last : List Byte)
    (hlines : ∀ p ∈ lines, (∀ c ∈ p.1, ¬ EndOfLine c) ∧ EndOfLine p.2) (hlast : ∀ c ∈ last, ¬ EndOfLine c) :
    ∃ N s mem, (∀ fuel, N ≤ fuel → monitor fuel E ((typedText lines last).map int) m scr = .ok (.waiting s)) ∧
      Beyond m E mem ∧ Holds mem E.buf s (last.foldl keep []) ∧
      s.scr = cputchars scr ((str "Welcome to the JOS kernel monitor!\n").map int ++
        ((str "Type 'help' for a list of commands.\n").map int ++ ((lines.flatMap fun p => lineText E m frames p.1) ++
          ((str "K> ").map int ++ echoes [] last)))) :=
  monitor_prints hwalk hbuf hfit hscr hlines hlast

/-- a stack on which runcmd has been called from the kernel, and nothing called the function that did -/
def oneFrame : Bytes := fun a => if a = 0x8007#32 then 0xF0#8 else 0#8

def oneFrameEnv : Env where
  debug := ⟨[], [0#8], (fun e he => by cases he), rfl, by decide⟩
  symbols := ⟨0#32, 0#32, 0#32, 0#32, 0#32⟩
  buf := 0x1000#32
  argvAt := 0x7FB0#32
  argv _ := 0#32
  tf := 0#32
  esp := 0x7F98#32
  ebp := 0x8000#32
  ret := 0xF0100000#32

theorem oneFrame_walk : Walk oneFrame oneFrameEnv [0x8000#32] := by
  have hown : (oneFrameEnv.esp - 20#32).toNat = 0x7F84 := rfl
  have hframe : (0x8000#32 : Word).toNat = 0x8000 := rfl
  have hesp : oneFrameEnv.esp ≤ 0x8000#32 := by decide
  refine ⟨⟨[], 0x8000#32, rfl, Callers.here _, by decide⟩, by decide, ?_, by decide, ?_, ?_⟩
  · intro g hg
    rw [List.mem_singleton.1 hg]
    decide
  · intro g hg
    rw [List.mem_singleton.1 hg, hframe]
    exact ⟨hesp, by omega⟩
  · intro g hg k hk j hj heq
    have hat : g.toNat = 0x7F84 ∨ g.toNat = 0x8000 := by
      rcases List.mem_cons.1 hg with rfl | hg
      · exact Or.inl hown
      · rw [List.mem_singleton.1 hg]
        exact Or.inr hframe
    have hj' : j < 1024 := hj
    have hnat := congrArg BitVec.toNat heq
    rw [BitVec.toNat_add, BitVec.toNat_add, BitVec.toNat_ofNat, BitVec.toNat_ofNat] at hnat
    change (g.toNat + k % 2 ^ 32) % 2 ^ 32 = (0x1000 + j % 2 ^ 32) % 2 ^ 32 at hnat
    omega

/-- a backtrace with a word behind it, and the beginning of a second line -/
theorem monitor_session_backtrace : ∃ (N : ℕ) (s : Line), ∀ fuel, N ≤ fuel →
    monitor fuel oneFrameEnv ((typedText [(str "backtrace x", chr '\n')] (str "ker")).map int) oneFrame
        ⟨fun _ => blankCell, 0#16, 0x3d4#32, [], []⟩ = .ok (.waiting s) := by
  obtain ⟨N, s, mem, hrun, -⟩ := monitor_session oneFrameEnv oneFrame [0x8000#32] oneFrame_walk (by decide) (by decide) _ _
    (start_visible (s := ⟨fun _ => blankCell, 0#16, 0x3d4#32, [], []⟩) (by decide) rfl)
    [(str "backtrace x", chr '\n')] (str "ker") (by decide) (by decide)
  exact ⟨N, s, hrun⟩

/-- **From the keys to the screen.** The lines are typed at the keyboard, cons_getc has returned what came of the scan codes,
and monitor has answered. -/
theorem keyboard_session (E : Env) (m : Bytes) (frames : List Word) (hwalk : Walk m E frames)
    (hbuf : 0 < E.buf.toNat) (hfit : E.buf.toNat + bufLen ≤ 2 ^ 32) (scr : Crt) (t : Term) (hscr : Visible scr t)
    (lines : List (List Byte)) (hlines : ∀ l ∈ lines, ∀ c ∈ l, Typeable c ∧ ¬ EndOfLine c)
    (u v : ConsSt) (os : List ConsOp) (hu : ConsStart u) (hshift : u.shift = 0#32) (hl : LegalRun consStep AtMost511 u os)
    (hrun : runAll consStep os u = .ok v)
    (hcodes : arrivalsOf u.serialExists os =
      (((lines.flatMap fun l => l ++ [chr '\n']).flatMap stroke).flatMap Code.bytes).map (Prod.mk .keyboard))
    (hread : (lines.flatMap fun l => l ++ [chr '\n']).length ≤ (returned v).length) :
    ∃ N s mem, (∀ fuel, N ≤ fuel → monitor fuel E (returned v) m scr = .ok (.waiting s)) ∧ Holds mem E.buf s [] ∧
      s.scr = cputchars scr ((str "Welcome to the JOS kernel monitor!\n").map int ++
        ((str "Type 'help' for a list of commands.\n").map int ++ ((lines.flatMap fun l => lineText E m frames l) ++
          (str "K> ").map int))) := by
  let typed := lines.flatMap fun l => l ++ [chr '\n']
  have htype : ∀ c ∈ typed, Typeable c := by
    intro c hc
    obtain ⟨l, hmem, hcl⟩ := List.mem_flatMap.1 hc
    rcases List.mem_append.1 hcl with hcl | hcl
    · exact (hlines l hmem c hcl).1
    · rw [List.mem_singleton.1 hcl]
      decide +kernel
  have hdel : v.delivered = typed.map int := typed_delivered hu hshift hrun (⟨rfl, rfl⟩ : Idle []) htype hcodes
  have hall : returned v = typed.map int := by
    rw [← hdel]
    refine (fifo_run hu hl hrun).1.order.eq_of_length_le ?_
    rw [hdel, List.length_map]
    exact hread
  have hsession : typed = typedText (lines.map fun l => (l, chr '\n')) [] := by
    rw [typedText, List.flatMap_map, List.append_nil]
  have hended : ∀ p ∈ lines.map fun l => (l, chr '\n'), (∀ c ∈ p.1, ¬ EndOfLine c) ∧ EndOfLine p.2 := by
    intro p hp
    obtain ⟨l, hmem, rfl⟩ := List.mem_map.1 hp
    exact ⟨fun c hc => (hlines l hmem c hc).2, Or.inl rfl⟩
  obtain ⟨N, s, mem, hprints, -, hs, hsscr⟩ := monitor_prints hwalk hbuf hfit hscr hended (fun c hc => absurd hc List.not_mem_nil)
  refine ⟨N, s, mem, ?_, hs, ?_⟩
  · rw [hall, hsession]
    exact hprints
  · rw [hsscr, List.flatMap_map, echoes, List.append_nil]

/-- "help" and Enter at the keyboard, each key pressed and released -/
def helpKeys : List ConsOp :=
  .kbdIntr [1#8, 0x23#8, 1#8, 0xA3#8, 1#8, 0x12#8, 1#8, 0x92#8, 1#8, 0x26#8, 1#8, 0xA6#8, 1#8, 0x19#8, 1#8, 0x99#8,
    1#8, 0x1C#8, 1#8, 0x9C#8, 0#8] :: List.replicate 5 (.getc silence)

/-- "help" is typed, read and answered -/
theorem keyboard_session_help : ∃ v N s, runAll consStep helpKeys consBoot = .ok v ∧
    ∀ fuel, N ≤ fuel → monitor fuel oneFrameEnv (returned v) oneFrame ⟨fun _ => blankCell, 0#16, 0x3d4#32, [], []⟩ =
      .ok (.waiting s) := by
  have hobs : (runAll consStep helpKeys consBoot).map returned = .ok ((str "help\n").map int) := by decide +kernel
  cases hv : runAll consStep helpKeys consBoot with
  | error e => rw [hv] at hobs; cases hobs
  | ok v =>
    rw [hv] at hobs
    have hret : returned v = (str "help\n").map int := Except.ok.inj hobs
    have hlegal := short_run_legal consBoot helpKeys (by decide)
    obtain ⟨N, s, mem, hprints, -⟩ := keyboard_session oneFrameEnv oneFrame [0x8000#32] oneFrame_walk (by decide) (by decide) _ _
      (start_visible (s := ⟨fun _ => blankCell, 0#16, 0x3d4#32, [], []⟩) (by decide) rfl) [str "help"] (by decide +kernel)
      consBoot v _ consBoot_start rfl hlegal hv (by decide +kernel) (by rw [hret]; decide)
    exact ⟨v, N, s, rfl, hprints⟩

end Session

end Jos
