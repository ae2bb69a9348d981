/-
mon_backtrace (kern/monitor.c): the walk along the saved frame pointers.

The frame pointer of a call points at the frame pointer of its caller, which is 0 for the first call; the return address is
the word above it. `Callers m ebp fs f` is the walk from ebp over the frames fs to the frame f. Results:
- `debuginfoEip_rounds`: what debuginfo_eip returns does not depend on the rounds that it may use;
- `backtraceFrame_prints`: one frame is one line, and one more where there is debugging information;
- `backtrace_returns`: mon_backtrace returns exactly if the walk reaches a frame whose caller is 0, through return addresses
  in the kernel, and it prints the frames in order.
-/
import Jos.Kdebug.Safety
import Jos.Lib.StringOps
import Jos.Printf.Texts

namespace Jos

open Jos.Lib

/-! ## kern/monitor.c -/

/-- the debugging information that the linker has put into the kernel -/
structure Debug where
  stabs : List Stab
  str : List Byte
  header : Header stabs
  nul : str.getLast? = some 0#8
  small : str.length < 2 ^ 31

/-- a `char *` of an Eipdebuginfo -/
def Name.ptr (s : List Byte) : Name → Ptr
  | .unknown => .lit (str "<unknown>") 0
  | .stabstr i => .lit s i

def frameFormat : List Byte := str "  ebp %08x  eip %08x  args %08x %08x %08x %08x %08x\n"

def infoFormat : List Byte := str "       %s:%d: %.*s+%d\n"

/-- `*(stack_smernik + i)` -/
def frameWord (m : Image) (ebp : Word) (i : ℕ) : Word := load32 m (ebp + BitVec.ofNat 32 (4 * i))

/-- the arguments of the line of a frame: stack_smernik, and the words from the return address on -/
def frameArgs (m : Image) (ebp : Word) (i : ℕ) : Word := if i = 0 then ebp else frameWord m ebp i

/-- the arguments of the line of its position -/
def infoArgs (D : Debug) (eip : Word) (info : Eipdebuginfo) : VaList where
  word
    | 1 => BitVec.ofInt 32 info.eipLine
    | 2 => BitVec.ofNat 32 info.eipFnNamelen
    | 4 => eip - info.eipFnAddr
    | _ => 0#32
  str
    | 0 => info.eipFile.ptr D.str
    | _ => info.eipFnName.ptr D.str

/-- one round of the loop: what it prints -/
def backtraceFrame (fuel : ℕ) (D : Debug) (m : Image) (ebp : Word) : Except Stop (List Word) := do
  let line ← vcprintf fuel (.lit frameFormat 0) (VaList.ofWords (frameArgs m ebp)) m
  let (r, info) ← debuginfoEip fuel D.stabs D.str (frameWord m ebp 1)
  if ¬ r < 0 then do
    let pos ← vcprintf fuel (.lit infoFormat 0) (infoArgs D (frameWord m ebp 1) info) m
    return line.2.out ++ pos.2.out
  else return line.2.out

/-- `do ... while (stack_smernik != NULL)` -/
def backtraceLoop (fuel : ℕ) (D : Debug) (m : Image) : ℕ → Word → Except Stop (List Word)
  | 0, _ => .error .steps
  | n + 1, ebp => do
    let out ← backtraceFrame fuel D m ebp
    if frameWord m ebp 0 ≠ 0#32 then return out ++ (← backtraceLoop fuel D m n (frameWord m ebp 0))
    else return out

/-- the result, and what has been printed; ebp is what read_ebp returns -/
def monBacktrace (fuel : ℕ) (D : Debug) (m : Image) (ebp : Word) : Except Stop (Word × List Word) := do
  let title ← vcprintf fuel (.lit (str "Stack backtrace:\n") 0) (VaList.ofWords fun _ => 0#32) m
  return (0#32, title.2.out ++ (← backtraceLoop fuel D m fuel ebp))

/-! ## What a backtrace is -/

/-- the characters of a name, up to its NUL -/
def Name.text (s : List Byte) (n : Name) : List Byte := (n.bytes s).takeWhile fun c => c ≠ 0#8

/-- "  ebp EBP  eip EIP  args A1 A2 A3 A4 A5" -/
def frameText (m : Image) (ebp : Word) : List Word :=
  (str "  ebp ").map int ++ (hex8 ebp ++ ((str "  eip ").map int ++ (hex8 (frameWord m ebp 1) ++
    ((str "  args").map int ++ (((List.range 5).flatMap fun i => int (chr ' ') :: hex8 (frameWord m ebp (i + 2))) ++
      [int (chr '\n')])))))

/-- "       FILE:LINE: FUNCTION+OFFSET" -/
def infoText (D : Debug) (eip : Word) (info : Eipdebuginfo) : List Word :=
  (str "       ").map int ++ ((info.eipFile.text D.str).map (shown false) ++ ((str ":").map int ++
    (signedText (BitVec.ofInt 32 info.eipLine) ++ ((str ": ").map int ++
      (((info.eipFnName.text D.str).take info.eipFnNamelen).map (shown false) ++ ((str "+").map int ++
        (signedText (eip - info.eipFnAddr) ++ [int (chr '\n')])))))))

/-- what debuginfo_eip has found; 2 n + 1 rounds are enough for n entries -/
def Debug.find (D : Debug) (eip : Word) : Option Eipdebuginfo :=
  match debuginfoEip (2 * D.stabs.length + 1) D.stabs D.str eip with
  | .ok (r, info) => if r < 0 then none else some info
  | .error _ => none

def positionText (D : Debug) (eip : Word) : List Word :=
  match D.find eip with
  | some info => infoText D eip info
  | none => []

/-- from the frame ebp over the frames fs to the frame f, none of them the last but f -/
inductive Callers (m : Image) : Word → List Word → Word → Prop
  | here (ebp : Word) : Callers m ebp [] ebp
  | up {ebp : Word} {fs : List Word} {f : Word} : frameWord m ebp 0 ≠ 0#32 → Callers m (frameWord m ebp 0) fs f →
    Callers m ebp (ebp :: fs) f

/-! ## debuginfo_eip -/

section Info

variable {t : List Stab} {s : List Byte} {addr : Word} {r : ℤ} {info : Eipdebuginfo} {n k : ℕ}

theorem stabBinsearch_rounds (hnk : n ≤ k) {type : Byte} {left right : ℤ} {p : ℤ × ℤ}
    (h : stabBinsearch n t type left right addr = .ok p) : stabBinsearch k t type left right addr = .ok p := by
  obtain ⟨u, hu, hset⟩ := Prog.except_bind_ok.1 h
  exact Prog.except_bind_ok.2 ⟨u, searchLoop_rounds hnk hu, hset⟩

/-- the searches are all that the rounds are for -/
theorem debuginfoEip_rounds (hnk : n ≤ k) (h : debuginfoEip n t s addr = .ok (r, info)) :
    debuginfoEip k t s addr = .ok (r, info) := by
  rw [debuginfoEip] at h ⊢
  by_cases hu : addr < ulim
  · rw [if_pos hu] at h
    cases h
  · rw [if_neg hu] at h ⊢
    by_cases hn : s.getLast? ≠ some 0#8
    · rw [if_pos hn] at h ⊢
      exact h
    · rw [if_neg hn] at h ⊢
      obtain ⟨⟨lfile, rfile⟩, hs1, h⟩ := Prog.except_bind_ok.1 h
      refine Prog.except_bind_ok.2 ⟨(lfile, rfile), stabBinsearch_rounds hnk hs1, ?_⟩
      by_cases hl0 : lfile = 0
      · exact (if_pos hl0).trans ((if_pos hl0).symm.trans h)
      · refine (if_neg hl0).trans ?_
        obtain ⟨⟨lfun, rfun⟩, hs2, h⟩ := Prog.except_bind_ok.1 ((if_neg hl0).symm.trans h)
        refine Prog.except_bind_ok.2 ⟨(lfun, rfun), stabBinsearch_rounds hnk hs2, ?_⟩
        obtain ⟨sc, hsc, h⟩ := Prog.except_bind_ok.1 h
        obtain ⟨len, hlen, h⟩ := Prog.except_bind_ok.1 h
        obtain ⟨⟨lline, rline⟩, hs3, h⟩ := Prog.except_bind_ok.1 h
        exact Prog.except_bind_ok.2 ⟨sc, hsc, Prog.except_bind_ok.2 ⟨len, hlen,
          Prog.except_bind_ok.2 ⟨(lline, rline), stabBinsearch_rounds hnk hs3, h⟩⟩⟩

/-- the file of the entry found is the literal, or it starts inside the string table -/
theorem finish_file {info info' : Eipdebuginfo} (hname : NameStart s info.eipFile) {lfile lfun rfun lline : ℤ}
    (h : finish t s info lfile lfun rfun lline = .ok info') : NameStart s info'.eipFile := by
  obtain ⟨line, -, h⟩ := Prog.except_bind_ok.1 h
  obtain ⟨f, -, h⟩ := Prog.except_bind_ok.1 h
  obtain ⟨file, hfile, h⟩ := Prog.except_bind_ok.1 h
  obtain ⟨narg, -, h⟩ := Prog.except_bind_ok.1 h
  obtain rfl := Except.ok.inj h
  change NameStart s file
  rw [fileName] at hfile
  split_ifs at hfile
  · obtain ⟨e, -, hfile⟩ := Prog.except_bind_ok.1 hfile
    obtain rfl := Except.ok.inj hfile
    exact nameAt_start e hname
  · obtain rfl := Except.ok.inj hfile
    exact hname

/-- the function search does not look for the file -/
theorem scope_file {info : Eipdebuginfo} {sc : Scope} {lfile rfile lfun rfun : ℤ}
    (h : scope t s info addr lfile rfile lfun rfun = .ok sc) : sc.info.eipFile = info.eipFile := by
  rw [scope] at h
  split_ifs at h
  · obtain ⟨e, -, h⟩ := Prog.except_bind_ok.1 h
    obtain rfl := Except.ok.inj h
    rfl
  · obtain rfl := Except.ok.inj h
    rfl

/-- an index that is not below 0: a bracket one entry below the range would start with an entry of the type -/
theorem bracket_low (hh : Header t) {type : Byte} (htype : type = nSO ∨ type = nFUN ∨ type = nSLINE) {lo i r : ℤ}
    (hlo : 0 ≤ lo) (h : i = lo ∧ r = lo - 1 ∨ lo - 1 ≤ i ∧ i ≤ r ∧ (i = lo - 1 → ∃ v, Has t type lo v)) : 0 ≤ i := by
  rcases h with ⟨rfl, -⟩ | ⟨h1, -, h3⟩
  · exact hlo
  · by_contra hneg
    obtain ⟨v, hv⟩ := h3 (by omega)
    obtain rfl : lo = 0 := by omega
    exact hh.not_has htype v hv

/-- debuginfo_eip on a kernel address: its answer, whatever rounds it may use, and the strings of the answer -/
theorem debuginfo_answers (D : Debug) {addr : Word} (hu : ulim ≤ addr) : ∃ r info,
    (∀ fuel, 2 * D.stabs.length + 1 ≤ fuel → debuginfoEip fuel D.stabs D.str addr = .ok (r, info)) ∧
      NameStart D.str info.eipFile ∧ NameSlice D.str info := by
  suffices h : ∃ p : ℤ × Eipdebuginfo, debuginfoEip (2 * D.stabs.length + 1) D.stabs D.str addr = .ok p ∧
      NameStart D.str p.2.eipFile ∧ NameSlice D.str p.2 by
    obtain ⟨⟨r, info⟩, hrun, hfile, hname⟩ := h
    exact ⟨r, info, fun fuel hf => debuginfoEip_rounds hf hrun, hfile, hname⟩
  have hrounds : ∀ {lo hi : ℤ}, 0 ≤ lo → hi < D.stabs.length → searchRounds lo hi ≤ 2 * D.stabs.length + 1 := by
    intro lo hi h0 hlt
    rw [searchRounds]
    omega
  have hall : Readable D.stabs 0 (D.stabs.length - 1) := ⟨le_refl _, by omega⟩
  rw [debuginfoEip, if_neg (BitVec.not_lt.2 hu), if_neg (not_not.2 D.nul)]
  obtain ⟨lfile, rfile, hs1, hrf, hfiles⟩ := search_bounds nSO addr hall (by omega) (hrounds hall.1 hall.2)
  have hlfile := bracket_low D.header (Or.inl rfl) (le_refl 0) hfiles
  by_cases hl0 : lfile = 0
  · exact ⟨_, Prog.except_bind_ok.2 ⟨_, hs1, if_pos hl0⟩, Or.inl rfl, Or.inl ⟨rfl, rfl⟩⟩
  · have hlr : lfile ≤ rfile + 1 := by omega
    have hfile : Readable D.stabs lfile rfile := ⟨hlfile, by omega⟩
    obtain ⟨lfun, rfun, hs2, hrfun, hfuns⟩ := search_bounds nFUN addr hfile hlr (hrounds hfile.1 hfile.2)
    have hlfun := bracket_low D.header (Or.inr (Or.inl rfl)) hlfile hfuns
    have hfun : lfun = lfile ∧ rfun = lfile - 1 ∨ 0 ≤ lfun ∧ lfun ≤ rfun := hfuns.imp_right fun h => ⟨hlfun, h.2.1⟩
    obtain ⟨sc, hsc, hname, hline, hle, hrl⟩ := scope_safe (infoStart addr) addr (Or.inl rfl) hfile hlr hfun hrfun
    have hscfile : sc.info.eipFile = .unknown := scope_file hsc
    obtain ⟨n, hstr, hslice⟩ := strfind_slice sc.info D.nul hname
    obtain ⟨lline, rline, hs3, hrline, hlines⟩ := search_bounds nSLINE sc.addr hline hle (hrounds hline.1 hline.2)
    have hlline := bracket_low D.header (Or.inr (Or.inr rfl)) hline.1 hlines
    suffices hrest : ∃ p : ℤ × Eipdebuginfo, (if lline ≤ rline then (do
          return (0, ← finish D.stabs D.str { sc.info with eipFnNamelen := n } lfile lfun rfun lline) :
            Except Stop (ℤ × Eipdebuginfo))
        else .ok (-1, { sc.info with eipFnNamelen := n })) = .ok p ∧
        NameStart D.str p.2.eipFile ∧ NameSlice D.str p.2 by
      obtain ⟨p, hend, hfinal⟩ := hrest
      refine ⟨p, Prog.except_bind_ok.2 ⟨_, hs1, ?_⟩, hfinal⟩
      refine (if_neg hl0).trans ?_
      exact Prog.except_bind_ok.2 ⟨_, hs2, Prog.except_bind_ok.2 ⟨sc, hsc, Prog.except_bind_ok.2 ⟨n, hstr,
        Prog.except_bind_ok.2 ⟨_, hs3, hend⟩⟩⟩⟩
    by_cases hlines' : lline ≤ rline
    · obtain ⟨le, hle'⟩ := (show Readable D.stabs 0 rfile from ⟨le_refl _, hfile.2⟩).stabAt hlline (by omega)
      obtain ⟨info', hfin, -, -, hnm, hlen⟩ := finish_run D.str { sc.info with eipFnNamelen := n } hfile hlr
        (by omega) hlfun hrfun hle'
      refine ⟨(0, info'), (if_pos hlines').trans (Prog.except_bind_ok.2 ⟨info', hfin, rfl⟩), ?_, ?_⟩
      · have hname : NameStart D.str { sc.info with eipFnNamelen := n }.eipFile := Or.inl hscfile
        exact finish_file hname hfin
      · unfold NameSlice at hslice ⊢
        rw [hnm, hlen]
        exact hslice
    · exact ⟨_, if_neg hlines', Or.inl hscfile, hslice⟩

end Info

/-! ## One frame -/

section Frame

variable {D : Debug} {m : Image} {ebp : Word}

theorem frameLine_prints (m : Image) (ebp : Word) : ∃ N, ∀ fuel, N ≤ fuel →
    vcprintf fuel (.lit frameFormat 0) (VaList.ofWords (frameArgs m ebp)) m =
      .ok (0#32, { mem := m, cnt := 0#32, out := frameText m ebp }) := by
  have htext : render ⟨frameArgs m ebp, fun _ => []⟩ 0 (pieces frameFormat) = frameText m ebp := by
    have hsplit : frameFormat = str "  ebp " ++ (str "%08x" ++ (str "  eip " ++ (str "%08x" ++ (str "  args " ++
        (str "%08x" ++ (str " " ++ (str "%08x" ++ (str " " ++ (str "%08x" ++ (str " " ++ (str "%08x" ++ (str " " ++
          (str "%08x" ++ (str "\n" ++ [])))))))))))))) := by simp [frameFormat, str]
    rw [hsplit, render_literal (by decide), render_hex, render_literal (by decide), render_hex, render_literal (by decide),
      render_hex, render_literal (by decide), render_hex, render_literal (by decide), render_hex,
      render_literal (by decide), render_hex, render_literal (by decide), render_hex, render_literal (by decide)]
    rfl
  rw [← htext]
  exact vcprintf_words (by decide) (by decide) _ m

theorem Name.text_nul (s : List Byte) (n : Name) : 0#8 ∉ n.text s := by
  intro h
  have hall := List.all_takeWhile (l := n.bytes s) (p := fun c => c ≠ 0#8)
  exact absurd (List.all_eq_true.1 hall _ h) (by decide)

theorem takeWhile_nul {l : List Byte} (h : 0#8 ∈ l) : ∃ r, l = l.takeWhile (fun c => c ≠ 0#8) ++ 0#8 :: r := by
  induction l with
  | nil => exact absurd h List.not_mem_nil
  | cons c l ih =>
    by_cases hc : c = 0#8
    · subst hc
      exact ⟨l, rfl⟩
    · obtain ⟨r, hr⟩ := ih ((List.mem_cons.1 h).resolve_left (Ne.symm hc))
      refine ⟨r, ?_⟩
      have htake : (c :: l).takeWhile (fun c => c ≠ 0#8) = c :: l.takeWhile (fun c => c ≠ 0#8) :=
        List.takeWhile_cons_of_pos (decide_eq_true hc)
      rw [htake, List.cons_append, ← hr]

/-- a name stands where its pointer points to -/
theorem Name.text_stands {τ : Type} {k : Sink τ} {t : τ} {s : List Byte} (hs : s.getLast? = some 0#8) {n : Name}
    (hn : NameStart s n) : Text k t (strArg (n.ptr s)) (n.text s ++ [0#8]) := by
  have hnull : ∀ l i, strArg (.lit l i) = .lit l i := fun l i => if_neg fun h => by cases h
  rcases hn with rfl | ⟨i, rfl, hi⟩
  · exact Text.lit (str "<unknown>")
  · obtain ⟨r, hr⟩ := takeWhile_nul (nul_mem_drop hs hi)
    have hlit : Text k t (.lit s 0) (s.take i ++ ((Name.stabstr i).text s ++ [0#8] ++ (r ++ [0#8]))) := by
      have hsplit : s.take i ++ ((Name.stabstr i).text s ++ [0#8] ++ (r ++ [0#8])) = s ++ [0#8] := by
        conv_rhs => rw [← List.take_append_drop i s, hr]
        simp [Name.text, Name.bytes]
      rw [hsplit]
      exact Text.lit s
    have hright := hlit.right.left
    rw [List.length_take, min_eq_left (le_of_lt hi)] at hright
    have hptr : (Ptr.lit s 0).skip i = .lit s i := congrArg (Ptr.lit s) (Nat.zero_add i)
    rw [hptr] at hright
    rw [Name.ptr, hnull]
    exact hright

theorem Name.text_length {s : List Byte} (hs : s.length < 2 ^ 31) (n : Name) : (n.text s).length < 2 ^ 31 := by
  have hle : (n.text s).length ≤ (n.bytes s).length := (List.takeWhile_prefix _).length_le
  cases n with
  | unknown =>
    have hten : ((Name.unknown).bytes s).length = 10 := rfl
    omega
  | stabstr i =>
    refine lt_of_le_of_lt hle (lt_of_le_of_lt ?_ hs)
    rw [Name.bytes, List.length_drop]
    exact Nat.sub_le _ _

theorem infoLine_prints (D : Debug) (m : Image) (eip : Word) {info : Eipdebuginfo} (hfile : NameStart D.str info.eipFile)
    (hname : NameSlice D.str info) : ∃ N, ∀ fuel, N ≤ fuel →
      vcprintf fuel (.lit infoFormat 0) (infoArgs D eip info) m =
        .ok (0#32, { mem := m, cnt := 0#32, out := infoText D eip info }) := by
  let a : Args := ⟨(infoArgs D eip info).word, fun i => if i = 0 then info.eipFile.text D.str else info.eipFnName.text D.str⟩
  have hfn : NameStart D.str info.eipFnName := by
    rcases hname with ⟨h, -⟩ | ⟨i, h, hlt⟩
    · exact Or.inl h
    · exact Or.inr ⟨i, h, by omega⟩
  have hlen : info.eipFnNamelen < 2 ^ 31 := by
    have hsmall := D.small
    rcases hname with ⟨-, h⟩ | ⟨i, -, h⟩ <;> omega
  have hreqs : requests none infoFormat 0 = [(chr 's', 0), (chr 'd', 1), (chr 's', 3), (chr 'd', 4)] := by decide
  have htext : render a 0 (pieces infoFormat) = infoText D eip info := by
    have hsplit : infoFormat = str "       " ++ (str "%s" ++ (str ":" ++ (str "%d" ++ (str ": " ++ (str "%.*s" ++ (str "+" ++
        (str "%d" ++ (str "\n" ++ [])))))))) := by simp [infoFormat, str]
    rw [hsplit, render_literal (by decide), render_string (Name.text_length D.small _), render_literal (by decide),
      render_decimal, render_literal (by decide), render_name (a := a) (n := info.eipFnNamelen) rfl hlen,
      render_literal (by decide), render_decimal, render_literal (by decide)]
    rfl
  rw [← htext]
  refine vcprintf_prints (by decide) a ⟨fun i h => ?_, fun i h => ?_⟩ (Text.lit _) ⟨rfl, fun i h => ?_⟩
  · rw [hreqs] at h
    simp [show chr 'e' ≠ chr 's' by decide, show chr 'e' ≠ chr 'd' by decide] at h
  · by_cases hi : i = 0
    · exact (congrArg (0#8 ∉ ·) (if_pos hi)).mpr (Name.text_nul _ _)
    · exact (congrArg (0#8 ∉ ·) (if_neg hi)).mpr (Name.text_nul _ _)
  · rw [hreqs] at h
    have hcase : i = 0 ∨ i = 3 := by
      simpa [show chr 's' ≠ chr 'd' by decide] using h
    rcases hcase with rfl | rfl
    · exact Name.text_stands D.nul hfile
    · exact Name.text_stands D.nul hfn

/-- **One frame** with a return address in the kernel. -/
theorem backtraceFrame_prints (D : Debug) (m : Image) {ebp : Word} (hu : ulim ≤ frameWord m ebp 1) : ∃ N, ∀ fuel, N ≤ fuel →
    backtraceFrame fuel D m ebp = .ok (frameText m ebp ++ positionText D (frameWord m ebp 1)) := by
  obtain ⟨N, hline⟩ := frameLine_prints m ebp
  obtain ⟨r, info, hrun, hfile, hname⟩ := debuginfo_answers D hu
  obtain ⟨K, hpos⟩ := infoLine_prints D m (frameWord m ebp 1) hfile hname
  refine ⟨max (max N K) (2 * D.stabs.length + 1), fun fuel hfuel => ?_⟩
  obtain ⟨hNK, hD⟩ := max_le_iff.1 hfuel
  obtain ⟨hN, hK⟩ := max_le_iff.1 hNK
  refine Prog.except_bind_ok.2 ⟨_, hline fuel hN, Prog.except_bind_ok.2 ⟨_, hrun fuel hD, ?_⟩⟩
  have hfind : D.find (frameWord m ebp 1) = if r < 0 then none else some info := by
    rw [Debug.find, hrun _ (le_refl _)]
  by_cases hr : r < 0
  · rw [positionText, hfind, if_pos hr, List.append_nil]
    exact if_neg (not_not.2 hr)
  · rw [positionText, hfind, if_neg hr]
    exact (if_pos hr).trans (Prog.except_bind_ok.2 ⟨_, hpos fuel hK, rfl⟩)

/-- a return address below ULIM stops the kernel -/
theorem backtraceFrame_panics (D : Debug) (m : Image) {ebp : Word} (hu : frameWord m ebp 1 < ulim) : ∃ N, ∀ fuel, N ≤ fuel →
    backtraceFrame fuel D m ebp = .error .panic := by
  obtain ⟨N, hline⟩ := frameLine_prints m ebp
  refine ⟨N, fun fuel hfuel => ?_⟩
  rw [backtraceFrame, hline fuel hfuel]
  change (debuginfoEip fuel D.stabs D.str (frameWord m ebp 1) >>= _) = _
  rw [debuginfoEip, if_pos hu]
  rfl

theorem backtraceFrame_kernel {fuel : ℕ} {out : List Word} (h : backtraceFrame fuel D m ebp = .ok out) :
    ulim ≤ frameWord m ebp 1 := by
  by_contra hu
  obtain ⟨line, -, h⟩ := Prog.except_bind_ok.1 h
  obtain ⟨p, hp, -⟩ := Prog.except_bind_ok.1 h
  rw [debuginfoEip, if_pos (BitVec.not_le.1 hu)] at hp
  cases hp

end Frame

/-! ## The walk -/

section Walk

variable {D : Debug} {m : Image} {ebp f : Word} {fs : List Word}

/-- what is printed for a frame -/
def callText (D : Debug) (m : Image) (f : Word) : List Word := frameText m f ++ positionText D (frameWord m f 1)

/-- the return address of a frame is in the kernel -/
def InKernel (m : Image) (f : Word) : Prop := ulim ≤ frameWord m f 1

instance (m : Image) (f : Word) : Decidable (InKernel m f) := inferInstanceAs (Decidable (ulim ≤ frameWord m f 1))

theorem backtraceLoop_prints (D : Debug) (h : Callers m ebp fs f) (hend : frameWord m f 0 = 0#32)
    (hk : ∀ g ∈ fs ++ [f], InKernel m g) : ∃ N, ∀ fuel, N ≤ fuel → ∀ n, fs.length < n →
      backtraceLoop fuel D m n ebp = .ok ((fs ++ [f]).flatMap (callText D m)) := by
  induction h with
  | here ebp =>
    obtain ⟨N, hN⟩ := backtraceFrame_prints D m (hk ebp List.mem_cons_self)
    refine ⟨N, fun fuel hfuel n hn => ?_⟩
    obtain ⟨n, rfl⟩ := Nat.exists_eq_add_of_lt hn
    rw [backtraceLoop, hN fuel hfuel]
    refine (if_neg (not_not.2 hend)).trans ?_
    rw [List.nil_append, List.flatMap_cons, List.flatMap_nil, List.append_nil]
    rfl
  | @up ebp fs f hne _ ih =>
    obtain ⟨N, hN⟩ := backtraceFrame_prints D m (hk ebp List.mem_cons_self)
    obtain ⟨K, hK⟩ := ih hend fun g hg => hk g (List.mem_cons_of_mem _ hg)
    refine ⟨max N K, fun fuel hfuel n hn => ?_⟩
    obtain ⟨hNf, hKf⟩ := max_le_iff.1 hfuel
    obtain ⟨n, rfl⟩ := Nat.exists_eq_add_of_lt hn
    have hrest := hK fuel hKf ((ebp :: fs).length + n) (by rw [List.length_cons]; omega)
    rw [backtraceLoop, hN fuel hNf]
    refine (if_pos hne).trans ?_
    rw [hrest]
    rfl

/-- a frame below ULIM stops the walk -/
theorem backtraceLoop_panics (D : Debug) (h : Callers m ebp fs f) (hk : ∀ g ∈ fs, InKernel m g) (hu : ¬ InKernel m f) :
    ∃ N, ∀ fuel, N ≤ fuel → ∀ n, fs.length < n → backtraceLoop fuel D m n ebp = .error .panic := by
  induction h with
  | here ebp =>
    obtain ⟨N, hN⟩ := backtraceFrame_panics D m (BitVec.not_le.1 hu)
    refine ⟨N, fun fuel hfuel n hn => ?_⟩
    obtain ⟨n, rfl⟩ := Nat.exists_eq_add_of_lt hn
    rw [backtraceLoop, hN fuel hfuel]
    rfl
  | @up ebp fs f hne _ ih =>
    obtain ⟨N, hN⟩ := backtraceFrame_prints D m (hk ebp List.mem_cons_self)
    obtain ⟨K, hK⟩ := ih (fun g hg => hk g (List.mem_cons_of_mem _ hg)) hu
    refine ⟨max N K, fun fuel hfuel n hn => ?_⟩
    obtain ⟨hNf, hKf⟩ := max_le_iff.1 hfuel
    obtain ⟨n, rfl⟩ := Nat.exists_eq_add_of_lt hn
    have hrest := hK fuel hKf ((ebp :: fs).length + n) (by rw [List.length_cons]; omega)
    rw [backtraceLoop, hN fuel hNf]
    refine (if_pos hne).trans ?_
    rw [hrest]
    rfl

/-- a loop that returns has walked to the last frame -/
theorem backtraceLoop_callers {fuel n : ℕ} {out : List Word} (h : backtraceLoop fuel D m n ebp = .ok out) :
    ∃ fs f, Callers m ebp fs f ∧ frameWord m f 0 = 0#32 ∧ ∀ g ∈ fs ++ [f], InKernel m g := by
  induction n generalizing ebp out with
  | zero => cases h
  | succ n ih =>
    obtain ⟨line, hline, h⟩ := Prog.except_bind_ok.1 h
    have hk : InKernel m ebp := backtraceFrame_kernel hline
    by_cases hne : frameWord m ebp 0 ≠ 0#32
    · obtain ⟨rest, hrest, -⟩ := Prog.except_bind_ok.1 ((if_pos hne).symm.trans h)
      obtain ⟨fs, f, hwalk, hend, hall⟩ := ih hrest
      refine ⟨ebp :: fs, f, Callers.up hne hwalk, hend, ?_⟩
      rintro g (_ | ⟨_, hg⟩)
      · exact hk
      · exact hall g hg
    · refine ⟨[], ebp, Callers.here ebp, not_not.1 hne, ?_⟩
      intro g hg
      rw [List.mem_singleton.1 hg]
      exact hk

/-- the whole call, along a walk to the last frame -/
theorem monBacktrace_prints (D : Debug) (h : Callers m ebp fs f) (hend : frameWord m f 0 = 0#32)
    (hk : ∀ g ∈ fs ++ [f], InKernel m g) : ∃ N, ∀ fuel, N ≤ fuel → monBacktrace fuel D m ebp =
      .ok (0#32, (str "Stack backtrace:\n").map int ++ (fs ++ [f]).flatMap (callText D m)) := by
  obtain ⟨N, hN⟩ := literal_prints (f := str "Stack backtrace:\n") (by decide) (by decide) (VaList.ofWords fun _ => 0#32) m
  obtain ⟨K, hK⟩ := backtraceLoop_prints D h hend hk
  refine ⟨max (max N K) (fs.length + 1), fun fuel hfuel => ?_⟩
  obtain ⟨hNK, hlen⟩ := max_le_iff.1 hfuel
  obtain ⟨hNf, hKf⟩ := max_le_iff.1 hNK
  exact Prog.except_bind_ok.2 ⟨_, hN fuel hNf, Prog.except_bind_ok.2 ⟨_, hK fuel hKf fuel hlen, rfl⟩⟩

/-- **Backtrace.** mon_backtrace returns exactly if the saved frame pointers lead to a frame whose caller is 0, through
return addresses in the kernel only; it prints the title and those frames in order, each with its position where the stab
table has one. The first return address below ULIM on the way stops the kernel instead. -/
theorem backtrace_returns (D : Debug) (m : Image) (ebp : Word) :
    (∀ out, (∃ N, ∀ fuel, N ≤ fuel → monBacktrace fuel D m ebp = .ok (0#32, out)) ↔
      ∃ fs f, Callers m ebp fs f ∧ frameWord m f 0 = 0#32 ∧ (∀ g ∈ fs ++ [f], InKernel m g) ∧
        out = (str "Stack backtrace:\n").map int ++ (fs ++ [f]).flatMap (callText D m)) ∧
    ∀ fs f, Callers m ebp fs f → (∀ g ∈ fs, InKernel m g) → ¬ InKernel m f →
      ∃ N, ∀ fuel, N ≤ fuel → monBacktrace fuel D m ebp = .error .panic := by
  refine ⟨fun out => ⟨?_, ?_⟩, ?_⟩
  · rintro ⟨N, hN⟩
    obtain ⟨title, -, hrest⟩ := Prog.except_bind_ok.1 (hN N (le_refl N))
    obtain ⟨rest, hloop, -⟩ := Prog.except_bind_ok.1 hrest
    obtain ⟨fs, f, hwalk, hend, hk⟩ := backtraceLoop_callers hloop
    obtain ⟨K, hK⟩ := monBacktrace_prints D hwalk hend hk
    have hboth := (hN (max N K) (le_max_left N K)).symm.trans (hK (max N K) (le_max_right N K))
    exact ⟨fs, f, hwalk, hend, hk, (Prod.mk.inj (Except.ok.inj hboth)).2⟩
  · rintro ⟨fs, f, hwalk, hend, hk, rfl⟩
    exact monBacktrace_prints D hwalk hend hk
  · intro fs f hwalk hk hu
    obtain ⟨N, hN⟩ := literal_prints (f := str "Stack backtrace:\n") (by decide) (by decide) (VaList.ofWords fun _ => 0#32) m
    obtain ⟨K, hK⟩ := backtraceLoop_panics D hwalk hk hu
    refine ⟨max (max N K) (fs.length + 1), fun fuel hfuel => ?_⟩
    obtain ⟨hNK, hlen⟩ := max_le_iff.1 hfuel
    obtain ⟨hNf, hKf⟩ := max_le_iff.1 hNK
    rw [monBacktrace, hN fuel hNf]
    change (backtraceLoop fuel D m fuel ebp >>= _) = _
    rw [hK fuel hKf fuel hlen]
    rfl

end Walk

end Jos
