/-
debuginfo_eip (kern/kdebug.c): the source position of an instruction address.

Three searches, each in the range the one before has left: the file (N_SO), the function (N_FUN) and, on addresses relative
to the function, the line (N_SLINE). A name is an offset into the string table. Results:
- `strfind_run`: strfind ends at the first ':' or at the NUL;
- `debuginfo_run`, `debuginfo_scope`: what debuginfo_eip does with the results of the searches;
- `InFunction.positioned`: it gives the right position where no search is disturbed by the entry at the next address;
- `debuginfo_position`: and only there, on a table in which an entry too far shows (`Telling`);
- `debuginfo_next_line`: a table in which the line search is disturbed and the line is the next one.
-/
import Jos.Kdebug.Bisect

namespace Jos

open Jos.Lib

/-- a `char *` that debuginfo_eip hands out -/
inductive Name where
  /-- "<unknown>" -/
  | unknown
  /-- stabstr + i -/
  | stabstr (i : ℕ)
deriving DecidableEq, Repr

structure Eipdebuginfo where
  eipFile : Name
  eipLine : ℤ
  eipFnName : Name
  eipFnNamelen : ℕ
  eipFnAddr : Word
  eipFnNarg : ℕ
deriving DecidableEq, Repr

/-- the bytes that can be read from a name on -/
def Name.bytes (str : List Byte) : Name → List Byte
  | .unknown => [0x3C, 0x75, 0x6E, 0x6B, 0x6E, 0x6F, 0x77, 0x6E, 0x3E, 0x00]
  | .stabstr i => str.drop i

/-- `strfind(s, c) - s` of lib/string.c -/
def strfind (c : Byte) : List Byte → Except Stop ℕ
  | [] => .error .fault
  | b :: s => if b = 0#8 ∨ b = c then .ok 0 else do return (← strfind c s) + 1

/-- `if (stabs[i].n_strx < stabstr_end - stabstr)` -/
def nameAt (str : List Byte) (e : Stab) (default : Name) : Name :=
  if e.nStrx.toNat < str.length then .stabstr e.nStrx.toNat else default

/-- the search backwards for the file, k rounds from lline = lfile + k - 1 -/
def fileStab (t : List Stab) (lfile : ℤ) : ℕ → Except Stop ℤ
  | 0 => .ok (lfile - 1)
  | k + 1 => do
    let e ← stabAt t (lfile + k)
    if e.nType ≠ nSOL ∧ (e.nType ≠ nSO ∨ e.nValue = 0#32) then fileStab t lfile k else return lfile + k

/-- `for (lline = lfun + 1; lline < rfun && stabs[lline].n_type == N_PSYM; lline++)`, at most k rounds -/
def countArgs (t : List Stab) (rfun : ℤ) : ℕ → ℤ → Except Stop ℕ
  | 0, _ => .ok 0
  | k + 1, lline => do
    if rfun ≤ lline then
      return 0
    if (← stabAt t lline).nType = nPSYM then
      return (← countArgs t rfun k (lline + 1)) + 1
    return 0

/-- what the function search has given: the info, the address to search for and the range -/
structure Scope where
  info : Eipdebuginfo
  addr : Word
  lline : ℤ
  rline : ℤ

/-- `if (lfun <= rfun)` -/
def scope (t : List Stab) (str : List Byte) (info : Eipdebuginfo) (addr : Word) (lfile rfile lfun rfun : ℤ) :
    Except Stop Scope :=
  if lfun ≤ rfun then do
    let e ← stabAt t lfun
    return { info := { info with eipFnName := nameAt str e info.eipFnName, eipFnAddr := e.nValue }
             addr := addr - e.nValue, lline := lfun, rline := rfun }
  else .ok { info := { info with eipFnAddr := addr }, addr := addr, lline := lfile, rline := rfile }

/-- `if (lline >= lfile && ...)` -/
def fileName (t : List Stab) (str : List Byte) (default : Name) (lfile lline : ℤ) : Except Stop Name :=
  if lfile ≤ lline then do return nameAt str (← stabAt t lline) default else .ok default

/-- `if (lfun < rfun)` -/
def fnNarg (t : List Stab) (lfun rfun : ℤ) : Except Stop ℕ :=
  if lfun < rfun then countArgs t rfun (rfun - lfun).toNat (lfun + 1) else .ok 0

/-- from the line found on -/
def finish (t : List Stab) (str : List Byte) (info : Eipdebuginfo) (lfile lfun rfun lline : ℤ) :
    Except Stop Eipdebuginfo := do
  let line ← stabAt t lline
  let file ← fileName t str info.eipFile lfile (← fileStab t lfile (lline - lfile + 1).toNat)
  let narg ← fnNarg t lfun rfun
  return { info with eipLine := line.nDesc.toNat, eipFile := file, eipFnNarg := narg }

def infoStart (addr : Word) : Eipdebuginfo where
  eipFile := .unknown
  eipLine := 0
  eipFnName := .unknown
  eipFnNamelen := 9
  eipFnAddr := addr
  eipFnNarg := 0

/-- the result and *info -/
def debuginfoEip (fuel : ℕ) (t : List Stab) (str : List Byte) (addr : Word) : Except Stop (ℤ × Eipdebuginfo) := do
  if addr < ulim then
    throw .panic
  if str.getLast? ≠ some 0#8 then
    return (-1, infoStart addr)
  let (lfile, rfile) ← stabBinsearch fuel t nSO 0 (t.length - 1) addr
  if lfile = 0 then
    return (-1, infoStart addr)
  let (lfun, rfun) ← stabBinsearch fuel t nFUN lfile rfile addr
  let sc ← scope t str (infoStart addr) addr lfile rfile lfun rfun
  let info := { sc.info with eipFnNamelen := ← strfind 0x3A#8 (sc.info.eipFnName.bytes str) }
  let (lline, rline) ← stabBinsearch fuel t nSLINE sc.lline sc.rline sc.addr
  if lline ≤ rline then
    return (0, ← finish t str info lfile lfun rfun lline)
  return (-1, info)

/-! ## What the table says -/

/-- a stab table as the linker emits it, with its string table -/
structure WellFormed (t : List Stab) (str : List Byte) : Prop where
  header : ∀ v, ¬ Has t nSO 0 v
  files : Sorted t nSO 0 (t.length - 1)
  /-- within a file -/
  funs : ∀ lo hi, (∀ j v, lo < j → j ≤ hi → ¬ Has t nSO j v) → Sorted t nFUN lo hi
  /-- within a function -/
  lines : ∀ f hi, (∃ v, Has t nFUN f v) → (∀ j v, f < j → j ≤ hi → ¬ Has t nFUN j v ∧ ¬ Has t nSO j v) →
    Sorted t nSLINE f hi
  /-- the first line of a function -/
  first : ∀ f i v, (∃ w, Has t nFUN f w) → f < i → Has t nSLINE i v →
    (∀ j w, f < j → j < i → ¬ Has t nFUN j w ∧ ¬ Has t nSO j w ∧ ¬ Has t nSLINE j w) → v = 0#32
  strx : ∀ e ∈ t, e.nStrx.toNat < str.length
  nul : str.getLast? = some 0#8

/-- addr lies in the function fn..fn' of the file lf..lf', which has lines -/
structure InFunction (t : List Stab) (addr : Word) (lf lf' fn fn' : ℤ) : Prop where
  file : LastUpTo t nSO 0 (t.length - 1) addr lf
  fileEnd : RegionEnd t nSO (t.length - 1) lf lf'
  fun_ : LastUpTo t nFUN lf lf' addr fn
  funEnd : RegionEnd t nFUN lf' fn fn'
  lines : ∃ i v, fn < i ∧ i ≤ fn' ∧ Has t nSLINE i v

/-- the characters of a name up to the first ':' -/
def nameLength (s : List Byte) : ℕ := (s.takeWhile fun b => b ≠ 0#8 ∧ b ≠ 0x3A#8).length

section Info

variable {t : List Stab} {str : List Byte} {addr : Word} {lf lf' fn fn' : ℤ}

/-- strfind ends at the first ':' or at the NUL -/
theorem strfind_run {s : List Byte} (h : 0#8 ∈ s) : strfind 0x3A#8 s = .ok (nameLength s) := by
  induction s with
  | nil => exact absurd h List.not_mem_nil
  | cons b s ih =>
    rw [strfind, nameLength]
    by_cases hb : b = 0#8 ∨ b = 0x3A#8
    · rw [if_pos hb, List.takeWhile_cons_of_neg]
      · rfl
      · rw [decide_eq_true_iff]
        exact fun hne => hb.elim hne.1 hne.2
    · have hmem : 0#8 ∈ s := (List.mem_cons.1 h).resolve_left fun heq => hb (Or.inl heq.symm)
      rw [if_neg hb, List.takeWhile_cons_of_pos, ih hmem]
      · rfl
      · rw [decide_eq_true_iff]
        exact not_or.1 hb

theorem nul_mem_drop (h : str.getLast? = some 0#8) {i : ℕ} (hi : i < str.length) : 0#8 ∈ str.drop i := by
  have hne : str.drop i ≠ [] := by
    rw [Ne, List.drop_eq_nil_iff]
    omega
  have hlast : (str.drop i).getLast? = some 0#8 := by
    rw [List.getLast?_drop, if_neg (by omega), h]
  exact List.mem_of_getLast? hlast

theorem stabAt_mem {i : ℤ} {e : Stab} (h : stabAt t i = .ok e) : e ∈ t := List.mem_of_getElem? (stabAt_ok.1 h).2

theorem fileStab_ends {lo hi : ℤ} (h : Readable t lo hi) {k : ℕ} (hk : lo + k ≤ hi + 1) :
    ∃ f, fileStab t lo k = .ok f ∧ f < lo + k := by
  induction k with
  | zero => exact ⟨_, rfl, by simp⟩
  | succ k ih =>
    push_cast at hk
    obtain ⟨e, he⟩ := h.stabAt (i := lo + k) (by omega) (by omega)
    obtain ⟨f, hf, hlt⟩ := ih (by omega)
    by_cases hskip : e.nType ≠ nSOL ∧ (e.nType ≠ nSO ∨ e.nValue = 0#32)
    · exact ⟨f, Prog.except_bind_ok.2 ⟨e, he, (if_pos hskip).trans hf⟩, by push_cast; omega⟩
    · exact ⟨lo + k, Prog.except_bind_ok.2 ⟨e, he, if_neg hskip⟩, by push_cast; omega⟩

theorem countArgs_ends {lo hi : ℤ} (h : Readable t lo hi) (k : ℕ) {i : ℤ} (hi' : lo ≤ i) :
    ∃ n, countArgs t hi k i = .ok n := by
  induction k generalizing i with
  | zero => exact ⟨0, rfl⟩
  | succ k ih =>
    rw [countArgs]
    by_cases hle : hi ≤ i
    · exact ⟨0, if_pos hle⟩
    · obtain ⟨e, he⟩ := h.stabAt hi' (le_of_lt (not_le.1 hle))
      obtain ⟨n, hn⟩ := ih (i := i + 1) (by omega)
      rw [if_neg hle]
      by_cases htype : e.nType = nPSYM
      · exact ⟨n + 1, Prog.except_bind_ok.2 ⟨e, he, (if_pos htype).trans (Prog.except_bind_ok.2 ⟨n, hn, rfl⟩)⟩⟩
      · exact ⟨0, Prog.except_bind_ok.2 ⟨e, he, if_neg htype⟩⟩

/-- the last part only adds the line, the file and the number of arguments -/
theorem finish_run (str : List Byte) (info : Eipdebuginfo) {lo hi ln : ℤ} (h : Readable t lo hi) (hlo : lo ≤ hi + 1)
    (hln : ln ≤ hi) {r : ℤ} (hfn : 0 ≤ fn) (hr : r ≤ hi) {le : Stab} (hle : stabAt t ln = .ok le) :
    ∃ info', finish t str info lo fn r ln = .ok info' ∧ info'.eipLine = le.nDesc.toNat ∧
      info'.eipFnAddr = info.eipFnAddr ∧ info'.eipFnName = info.eipFnName ∧
      info'.eipFnNamelen = info.eipFnNamelen := by
  obtain ⟨f, hf, hflt⟩ := fileStab_ends h (k := (ln - lo + 1).toNat) (by omega)
  obtain ⟨file, hfile⟩ : ∃ file, fileName t str info.eipFile lo f = .ok file := by
    rw [fileName]
    by_cases hlf : lo ≤ f
    · obtain ⟨e, he⟩ := h.stabAt hlf (by omega)
      exact ⟨_, (if_pos hlf).trans (Prog.except_bind_ok.2 ⟨e, he, rfl⟩)⟩
    · exact ⟨_, if_neg hlf⟩
  obtain ⟨narg, hnarg⟩ : ∃ narg, fnNarg t fn r = .ok narg := by
    rw [fnNarg]
    by_cases hlt : fn < r
    · have hread : Readable t 0 r := ⟨le_refl _, lt_of_le_of_lt hr h.2⟩
      obtain ⟨n, hn⟩ := countArgs_ends hread (r - fn).toNat (i := fn + 1) (by omega)
      exact ⟨n, (if_pos hlt).trans hn⟩
    · exact ⟨0, if_neg hlt⟩
  refine ⟨{ info with eipLine := le.nDesc.toNat, eipFile := file, eipFnNarg := narg }, ?_, rfl, rfl, rfl, rfl⟩
  rw [finish, hle]
  refine Prog.except_bind_ok.2 ⟨le, rfl, Prog.except_bind_ok.2 ⟨f, hf, ?_⟩⟩
  exact Prog.except_bind_ok.2 ⟨file, hfile, Prog.except_bind_ok.2 ⟨narg, hnarg, rfl⟩⟩

/-- entry 0 is no file -/
theorem InFunction.file_ne (h : InFunction t addr lf lf' fn fn') (hw : WellFormed t str) : lf ≠ 0 := by
  rintro rfl
  obtain ⟨v, hv, -⟩ := h.file.has
  exact hw.header v hv

theorem InFunction.bounds (h : InFunction t addr lf lf' fn fn') :
    0 ≤ lf ∧ lf ≤ fn ∧ fn ≤ fn' ∧ fn' ≤ lf' ∧ lf' ≤ t.length - 1 :=
  ⟨h.file.low, h.fun_.low, h.funEnd.low, h.funEnd.high, h.fileEnd.high⟩

/-- the first line of the function is at offset 0, so some line is not above any offset -/
theorem InFunction.line (h : InFunction t addr lf lf' fn fn') (hw : WellFormed t str) (off : Word) :
    ∃ ln, LastUpTo t nSLINE fn fn' off ln := by
  obtain ⟨v, hfv, -⟩ := h.fun_.has
  obtain ⟨i, w, hfi, hi, hiw⟩ := h.lines
  obtain ⟨j, ⟨hj1, hj2, u, hju⟩, hmin⟩ := Int.exists_least_of_bdd
    (P := fun j => fn < j ∧ j ≤ fn' ∧ ∃ v, Has t nSLINE j v) ⟨fn, fun j hj => le_of_lt hj.1⟩ ⟨i, hfi, hi, w, hiw⟩
  obtain ⟨-, hb2, -, hb4, -⟩ := h.bounds
  have hzero : u = 0#32 := hw.first fn j u ⟨v, hfv⟩ hj1 hju fun k x hk hkj => by
    refine ⟨h.funEnd.none k x hk (by omega), h.fileEnd.none k x (by omega) (by omega), fun hx => ?_⟩
    have := hmin k ⟨hk, by omega, x, hx⟩
    omega
  refine exists_lastUpTo ⟨j, u, le_of_lt hj1, hj2, hju, ?_⟩
  rw [hzero, BitVec.le_def]
  exact Nat.zero_le _

/-- what debuginfo_eip does with the results of the three searches -/
theorem debuginfo_run {e le : Stab} {ln ln' : ℤ} {fuel : ℕ} (hw : WellFormed t str) (hu : ulim ≤ addr)
    (hin : InFunction t addr lf lf' fn fn') (he : stabAt t fn = .ok e)
    (hs1 : stabBinsearch fuel t nSO 0 (t.length - 1) addr = .ok (lf, lf'))
    (hs2 : stabBinsearch fuel t nFUN lf lf' addr = .ok (fn, fn'))
    (hs3 : stabBinsearch fuel t nSLINE fn fn' (addr - e.nValue) = .ok (ln, ln')) (hle' : ln ≤ ln')
    (hhigh : ln' ≤ fn') (hle : stabAt t ln = .ok le) :
    ∃ info, debuginfoEip fuel t str addr = .ok (0, info) ∧ info.eipFnAddr = e.nValue ∧
      info.eipFnName = .stabstr e.nStrx.toNat ∧ info.eipFnNamelen = nameLength (str.drop e.nStrx.toNat) ∧
      info.eipLine = le.nDesc.toNat := by
  obtain ⟨hb1, hb2, hb3, hb4, hb5⟩ := hin.bounds
  have hreadf : Readable t lf lf' := ⟨hb1, by omega⟩
  have hstrx : e.nStrx.toNat < str.length := hw.strx e (stabAt_mem he)
  have hname : nameAt str e .unknown = .stabstr e.nStrx.toNat := if_pos hstrx
  have hscope : scope t str (infoStart addr) addr lf lf' fn fn' = .ok
      { info := { infoStart addr with eipFnName := .stabstr e.nStrx.toNat, eipFnAddr := e.nValue }
        addr := addr - e.nValue, lline := fn, rline := fn' } := by
    rw [scope, if_pos hb3, he, ← hname]
    rfl
  have hlen : strfind 0x3A#8 (str.drop e.nStrx.toNat) = .ok (nameLength (str.drop e.nStrx.toNat)) :=
    strfind_run (nul_mem_drop hw.nul hstrx)
  obtain ⟨info, hfin, hline, haddr, hnm, hnmlen⟩ := finish_run str { infoStart addr with
    eipFnName := .stabstr e.nStrx.toNat, eipFnAddr := e.nValue, eipFnNamelen := nameLength (str.drop e.nStrx.toNat) }
    hreadf (by omega) (by omega) (le_trans hb1 hb2) hb4 hle
  refine ⟨info, ?_, haddr, hnm, hnmlen, hline⟩
  rw [debuginfoEip, if_neg (BitVec.not_lt.2 hu), if_neg (not_not.2 hw.nul)]
  refine Prog.except_bind_ok.2 ⟨(lf, lf'), hs1, ?_⟩
  change (if lf = 0 then _ else _) = _
  rw [if_neg (hin.file_ne hw)]
  refine Prog.except_bind_ok.2 ⟨(fn, fn'), hs2, Prog.except_bind_ok.2 ⟨_, hscope, ?_⟩⟩
  refine Prog.except_bind_ok.2 ⟨_, hlen, Prog.except_bind_ok.2 ⟨(ln, ln'), hs3, ?_⟩⟩
  change (if ln ≤ ln' then _ else _) = _
  rw [if_pos hle']
  exact Prog.except_bind_ok.2 ⟨info, hfin, rfl⟩

theorem InFunction.search_file {fuel : ℕ} (hin : InFunction t addr lf lf' fn fn') (hw : WellFormed t str)
    (h1 : Undisturbed t nSO 0 (t.length - 1) addr) (hf : 2 * t.length + 1 ≤ fuel) :
    stabBinsearch fuel t nSO 0 (t.length - 1) addr = .ok (lf, lf') :=
  h1.run ⟨le_refl _, by omega⟩ hw.files hin.file hin.fileEnd (by rw [searchRounds]; omega)

theorem InFunction.search_function {fuel : ℕ} (hin : InFunction t addr lf lf' fn fn') (hw : WellFormed t str)
    (h2 : Undisturbed t nFUN lf lf' addr) (hf : 2 * t.length + 1 ≤ fuel) :
    stabBinsearch fuel t nFUN lf lf' addr = .ok (fn, fn') := by
  obtain ⟨hb1, hb2, hb3, hb4, hb5⟩ := hin.bounds
  exact h2.run ⟨hb1, by omega⟩ (hw.funs lf lf' hin.fileEnd.none) hin.fun_ hin.funEnd (by rw [searchRounds]; omega)

theorem InFunction.sorted_lines (hin : InFunction t addr lf lf' fn fn') (hw : WellFormed t str) :
    Sorted t nSLINE fn fn' := by
  obtain ⟨hb1, hb2, hb3, hb4, hb5⟩ := hin.bounds
  obtain ⟨v, hv, -⟩ := hin.fun_.has
  exact hw.lines fn fn' ⟨v, hv⟩ fun j w hj hjn =>
    ⟨hin.funEnd.none j w hj hjn, hin.fileEnd.none j w (by omega) (by omega)⟩

/-! ## A table -/

/-- a file with one function of two lines, the second one byte after the first -/
def twoLines : List Stab :=
  [⟨0, 0x00, 4, 0⟩, ⟨1, nSO, 0, 0xf0100000⟩, ⟨5, nFUN, 0, 0xf0100000⟩, ⟨0, nSLINE, 10, 0⟩, ⟨0, nSLINE, 11, 1⟩]

/-- "\0k.c\0f:F\0" -/
def twoLinesStr : List Byte := [0x00, 0x6B, 0x2E, 0x63, 0x00, 0x66, 0x3A, 0x46, 0x00]

theorem twoLines_has {type : Byte} {i : ℤ} {v : Word} (h : Has twoLines type i v) :
    (i = 0 ∧ type = 0x00 ∧ v = 0#32) ∨ (i = 1 ∧ type = nSO ∧ v = 0xf0100000#32) ∨
      (i = 2 ∧ type = nFUN ∧ v = 0xf0100000#32) ∨ (i = 3 ∧ type = nSLINE ∧ v = 0#32) ∨
      (i = 4 ∧ type = nSLINE ∧ v = 1#32) := by
  obtain ⟨e, he, rfl, rfl⟩ := h
  rw [stabAt] at he
  split_ifs at he with h0
  obtain ⟨n, rfl⟩ := Int.eq_ofNat_of_zero_le h0
  rcases n with _ | _ | _ | _ | _ | n
  · obtain rfl := Except.ok.inj he
    exact Or.inl ⟨rfl, rfl, rfl⟩
  · obtain rfl := Except.ok.inj he
    exact Or.inr (Or.inl ⟨rfl, rfl, rfl⟩)
  · obtain rfl := Except.ok.inj he
    exact Or.inr (Or.inr (Or.inl ⟨rfl, rfl, rfl⟩))
  · obtain rfl := Except.ok.inj he
    exact Or.inr (Or.inr (Or.inr (Or.inl ⟨rfl, rfl, rfl⟩)))
  · obtain rfl := Except.ok.inj he
    exact Or.inr (Or.inr (Or.inr (Or.inr ⟨rfl, rfl, rfl⟩)))
  · cases he

theorem twoLines_file {i : ℤ} {v : Word} (h : Has twoLines nSO i v) : i = 1 ∧ v = 0xf0100000#32 := by
  rcases twoLines_has h with ⟨-, h, -⟩ | ⟨hi, -, hv⟩ | ⟨-, h, -⟩ | ⟨-, h, -⟩ | ⟨-, h, -⟩
  · exact absurd h (by decide)
  · exact ⟨hi, hv⟩
  · exact absurd h (by decide)
  · exact absurd h (by decide)
  · exact absurd h (by decide)

theorem twoLines_fun {i : ℤ} {v : Word} (h : Has twoLines nFUN i v) : i = 2 ∧ v = 0xf0100000#32 := by
  rcases twoLines_has h with ⟨-, h, -⟩ | ⟨-, h, -⟩ | ⟨hi, -, hv⟩ | ⟨-, h, -⟩ | ⟨-, h, -⟩
  · exact absurd h (by decide)
  · exact absurd h (by decide)
  · exact ⟨hi, hv⟩
  · exact absurd h (by decide)
  · exact absurd h (by decide)

theorem twoLines_line {i : ℤ} {v : Word} (h : Has twoLines nSLINE i v) : i = 3 ∧ v = 0#32 ∨ i = 4 ∧ v = 1#32 := by
  rcases twoLines_has h with ⟨-, h, -⟩ | ⟨-, h, -⟩ | ⟨-, h, -⟩ | ⟨hi, -, hv⟩ | ⟨hi, -, hv⟩
  · exact absurd h (by decide)
  · exact absurd h (by decide)
  · exact absurd h (by decide)
  · exact Or.inl ⟨hi, hv⟩
  · exact Or.inr ⟨hi, hv⟩

theorem twoLines_wellFormed : WellFormed twoLines twoLinesStr where
  header v h := absurd (twoLines_file h).1 (by decide)
  files i j v w hi hij hj hv hw := by
    rw [(twoLines_file hv).2, (twoLines_file hw).2]
    exact Nat.le_refl _
  funs lo hi _ i j v w hi' hij hj hv hw := by
    rw [(twoLines_fun hv).2, (twoLines_fun hw).2]
    exact Nat.le_refl _
  lines f hi _ _ i j v w hi' hij hj hv hw := by
    rcases twoLines_line hv with ⟨rfl, rfl⟩ | ⟨rfl, rfl⟩
    · exact Nat.zero_le _
    · obtain ⟨-, rfl⟩ := (twoLines_line hw).resolve_left fun h => absurd hij (by omega)
      exact Nat.le_refl _
  first f i v hf hfi hv hnone := by
    obtain ⟨w, hw⟩ := hf
    obtain ⟨rfl, -⟩ := twoLines_fun hw
    rcases twoLines_line hv with ⟨-, h⟩ | ⟨rfl, -⟩
    · exact h
    · exact absurd ⟨_, rfl, rfl, rfl⟩ (hnone 3 0#32 (by decide) (by decide)).2.2
  strx := by decide
  nul := rfl

theorem twoLines_inFunction {addr : Word} (h : 0xf0100000#32 ≤ addr) : InFunction twoLines addr 1 4 2 4 where
  file := ⟨by decide, by decide, ⟨_, ⟨_, rfl, rfl, rfl⟩, h⟩, fun j v hj _ hv => absurd (twoLines_file hv).1 (by omega)⟩
  fileEnd := ⟨by decide, by decide, fun j v hj _ hv => absurd (twoLines_file hv).1 (by omega), Or.inl rfl⟩
  fun_ := ⟨by decide, by decide, ⟨_, ⟨_, rfl, rfl, rfl⟩, h⟩, fun j v hj _ hv => absurd (twoLines_fun hv).1 (by omega)⟩
  funEnd := ⟨by decide, by decide, fun j v hj _ hv => absurd (twoLines_fun hv).1 (by omega), Or.inl rfl⟩
  lines := ⟨3, _, by decide, by decide, _, rfl, rfl, rfl⟩

/-! ## The position -/

/-- debuginfo_eip gives the function of entry e, by its address and its name up to the first ':', and the number of its last
line that does not start after addr -/
def Positioned (fuel : ℕ) (t : List Stab) (str : List Byte) (addr : Word) (fn fn' : ℤ) (e : Stab) : Prop :=
  ∃ ln le info, LastUpTo t nSLINE fn fn' (addr - e.nValue) ln ∧ stabAt t ln = .ok le ∧
    debuginfoEip fuel t str addr = .ok (0, info) ∧ info.eipFnAddr = e.nValue ∧
    info.eipFnName = .stabstr e.nStrx.toNat ∧ info.eipFnNamelen = nameLength (str.drop e.nStrx.toNat) ∧
    info.eipLine = le.nDesc.toNat

/-- entries that are too far show: none of those searched for is at the last address, the functions of a file are not below
its N_SO, and the lines of the function that start after the address have other numbers than the one before it -/
structure Telling (t : List Stab) (addr : Word) (fn fn' : ℤ) (e : Stab) : Prop where
  last : ∀ i, ¬ Has t nSO i (~~~0#32) ∧ ¬ Has t nFUN i (~~~0#32) ∧ ¬ Has t nSLINE i (~~~0#32)
  behind : ∀ f i v w, Has t nSO f v → f ≤ i → (∀ j u, f < j → j ≤ i → ¬ Has t nSO j u) → Has t nFUN i w → v ≤ w
  numbers : ∀ i j le le', LastUpTo t nSLINE fn fn' (addr - e.nValue) i → stabAt t i = .ok le → fn ≤ j → j ≤ fn' →
    stabAt t j = .ok le' → le'.nType = nSLINE → addr - e.nValue < le'.nValue → le'.nDesc ≠ le.nDesc

/-- each of the three searches is undisturbed -/
def ThreeUndisturbed (t : List Stab) (addr : Word) (lf lf' fn fn' : ℤ) (e : Stab) : Prop :=
  Undisturbed t nSO 0 (t.length - 1) addr ∧ Undisturbed t nFUN lf lf' addr ∧ Undisturbed t nSLINE fn fn' (addr - e.nValue)

theorem InFunction.positioned {e : Stab} {fuel : ℕ} (hin : InFunction t addr lf lf' fn fn') (hw : WellFormed t str)
    (hu : ulim ≤ addr) (he : stabAt t fn = .ok e) (h : ThreeUndisturbed t addr lf lf' fn fn' e)
    (hf : 2 * t.length + 1 ≤ fuel) : Positioned fuel t str addr fn fn' e := by
  obtain ⟨h1, h2, h3⟩ := h
  obtain ⟨hb1, hb2, hb3, hb4, hb5⟩ := hin.bounds
  obtain ⟨ln, hln⟩ := hin.line hw (addr - e.nValue)
  obtain ⟨ln', hln'⟩ : ∃ r, RegionEnd t nSLINE fn' ln r := exists_regionEnd hln.high
  have hread : Readable t fn fn' := ⟨by omega, by omega⟩
  obtain ⟨le, hle⟩ := hread.stabAt hln.low hln.high
  have hs3 : stabBinsearch fuel t nSLINE fn fn' (addr - e.nValue) = .ok (ln, ln') :=
    h3.run hread (hin.sorted_lines hw) hln hln' (by rw [searchRounds]; omega)
  obtain ⟨info, hrun, hinfo⟩ := debuginfo_run hw hu hin he (hin.search_file hw h1 hf) (hin.search_function hw h2 hf) hs3
    hln'.low hln'.high hle
  exact ⟨ln, le, info, hln, hle, hrun, hinfo⟩

/-! ### Searches that go too far -/

theorem finish_fn {info info' : Eipdebuginfo} {lfile lfun rfun lline : ℤ}
    (h : finish t str info lfile lfun rfun lline = .ok info') :
    info'.eipFnAddr = info.eipFnAddr ∧ info'.eipFnName = info.eipFnName := by
  obtain ⟨line, -, h1⟩ := Prog.except_bind_ok.1 h
  obtain ⟨f, -, h2⟩ := Prog.except_bind_ok.1 h1
  obtain ⟨file, -, h3⟩ := Prog.except_bind_ok.1 h2
  obtain ⟨narg, -, h4⟩ := Prog.except_bind_ok.1 h3
  rw [← Except.ok.inj h4]
  exact ⟨rfl, rfl⟩

/-- the function in *info is that of the function search, or unknown -/
theorem debuginfo_scope {fuel : ℕ} {r i j p q : ℤ} {info : Eipdebuginfo} (hu : ulim ≤ addr) (hn : str.getLast? = some 0#8)
    (hs1 : stabBinsearch fuel t nSO 0 (t.length - 1) addr = .ok (i, j)) (hi : i ≠ 0)
    (hs2 : stabBinsearch fuel t nFUN i j addr = .ok (p, q)) (h : debuginfoEip fuel t str addr = .ok (r, info)) :
    q < p ∧ info.eipFnName = .unknown ∨ p ≤ q ∧ ∃ e, stabAt t p = .ok e ∧ info.eipFnAddr = e.nValue := by
  rw [debuginfoEip, if_neg (BitVec.not_lt.2 hu), if_neg (not_not.2 hn)] at h
  obtain ⟨b, hb, h⟩ := Prog.except_bind_ok.1 h
  obtain rfl : (i, j) = b := Except.ok.inj (hs1.symm.trans hb)
  change (if i = 0 then _ else _) = _ at h
  rw [if_neg hi] at h
  obtain ⟨b, hb, h⟩ := Prog.except_bind_ok.1 h
  obtain rfl : (p, q) = b := Except.ok.inj (hs2.symm.trans hb)
  obtain ⟨sc, hsc, h⟩ := Prog.except_bind_ok.1 h
  obtain ⟨len, -, h⟩ := Prog.except_bind_ok.1 h
  obtain ⟨⟨ln, ln'⟩, -, h⟩ := Prog.except_bind_ok.1 h
  -- what follows the function search keeps its address and its name
  have hkeep : info.eipFnAddr = sc.info.eipFnAddr ∧ info.eipFnName = sc.info.eipFnName := by
    change (if ln ≤ ln' then _ else _) = _ at h
    by_cases hle : ln ≤ ln'
    · rw [if_pos hle] at h
      obtain ⟨info', hfin, h⟩ := Prog.except_bind_ok.1 h
      obtain rfl : info' = info := (Prod.mk.inj (Except.ok.inj h)).2
      obtain ⟨haddr, hname⟩ := finish_fn hfin
      exact ⟨haddr, hname⟩
    · rw [if_neg hle] at h
      rw [← (Prod.mk.inj (Except.ok.inj h)).2]
      exact ⟨rfl, rfl⟩
  rw [hkeep.1, hkeep.2]
  by_cases hpq : p ≤ q
  · rw [scope, if_pos hpq] at hsc
    obtain ⟨e, he, hsc⟩ := Prog.except_bind_ok.1 hsc
    rw [← Except.ok.inj hsc]
    exact Or.inr ⟨hpq, e, he, rfl⟩
  · rw [scope, if_neg hpq] at hsc
    rw [← Except.ok.inj hsc]
    exact Or.inl ⟨not_le.1 hpq, rfl⟩

/-- a function search that finds none, or an entry above the address, is not the right one -/
theorem not_positioned {fuel : ℕ} {i j p q : ℤ} {e : Stab} (hn : str.getLast? = some 0#8) (hu : ulim ≤ addr)
    (hin : InFunction t addr lf lf' fn fn') (he : stabAt t fn = .ok e)
    (hs1 : stabBinsearch fuel t nSO 0 (t.length - 1) addr = .ok (i, j)) (hi : i ≠ 0)
    (hs2 : stabBinsearch fuel t nFUN i j addr = .ok (p, q))
    (habove : p ≤ q → ∀ e, stabAt t p = .ok e → addr < e.nValue) : ¬ Positioned fuel t str addr fn fn' e := by
  rintro ⟨ln, le, info, -, -, hrun, haddr, hname, -⟩
  obtain ⟨v, hfun, hv⟩ := hin.fun_.has
  obtain rfl := hfun.nValue he
  rcases debuginfo_scope hu hn hs1 hi hs2 hrun with ⟨-, hunknown⟩ | ⟨hpq, d, hd, hfn⟩
  · rw [hname] at hunknown
    cases hunknown
  · rw [← haddr, hfn] at hv
    exact absurd hv (BitVec.not_le.2 (habove hpq d hd))

theorem InFunction.file_undisturbed {e : Stab} {fuel : ℕ} (hin : InFunction t addr lf lf' fn fn') (hw : WellFormed t str)
    (hu : ulim ≤ addr) (he : stabAt t fn = .ok e) (ht : Telling t addr fn fn' e) (hf : 2 * t.length + 1 ≤ fuel)
    (h : Positioned fuel t str addr fn fn' e) : Undisturbed t nSO 0 (t.length - 1) addr := by
  by_contra hd
  have hread : Readable t 0 (t.length - 1) := ⟨le_refl _, by omega⟩
  obtain ⟨i, r, v, hs1, h0, hir, hrhi, hv, hav, hnone⟩ := stabBinsearch_above hread hw.files
    (disturbed_twice hread hw.files (fun i _ _ => (ht.last i).1) hd)
    (show searchRounds 0 (t.length - 1) ≤ fuel by rw [searchRounds]; omega)
  have hi : i ≠ 0 := by
    rintro rfl
    exact hw.header v hv
  -- the functions of that file are above the address, as its N_SO is
  have hfuns : ∀ k w, i ≤ k → k ≤ r → Has t nFUN k w → addr < w := fun k w hik hkr hk =>
    Nat.lt_of_lt_of_le hav (ht.behind i k v w hv hik (fun j u hj hjk => hnone j u hj (le_trans hjk hkr)) hk)
  obtain ⟨p, q, hs2, hcase⟩ := search_onlyAbove (show Readable t i r from ⟨h0, by omega⟩) hfuns
    (show searchRounds i r ≤ fuel by rw [searchRounds]; omega)
  refine not_positioned hw.nul hu hin he hs1 hi hs2 (fun hpq d hd => ?_) h
  rcases hcase with ⟨hlt, -⟩ | ⟨-, -, rfl | ⟨-, w, hw'⟩ | ⟨hp, hpr, w, hw'⟩⟩
  · exact absurd hpq (not_le.2 hlt)
  · rw [hv.nValue hd]
    exact hav
  · exact absurd hw' (hv.type_ne (by decide) w)
  · rw [hw'.nValue hd]
    exact hfuns p w hp hpr hw'

theorem InFunction.function_undisturbed {e : Stab} {fuel : ℕ} (hin : InFunction t addr lf lf' fn fn')
    (hw : WellFormed t str) (hu : ulim ≤ addr) (he : stabAt t fn = .ok e) (ht : Telling t addr fn fn' e)
    (hf : 2 * t.length + 1 ≤ fuel) (h1 : Undisturbed t nSO 0 (t.length - 1) addr)
    (h : Positioned fuel t str addr fn fn' e) : Undisturbed t nFUN lf lf' addr := by
  by_contra hd
  obtain ⟨hb1, hb2, hb3, hb4, hb5⟩ := hin.bounds
  have hread : Readable t lf lf' := ⟨hb1, by omega⟩
  have hsort := hw.funs lf lf' hin.fileEnd.none
  obtain ⟨p, q, v, hs2, -, -, -, hfun, hv, -⟩ := stabBinsearch_above hread hsort
    (disturbed_twice hread hsort (fun i _ _ => (ht.last i).2.1) hd)
    (show searchRounds lf lf' ≤ fuel by rw [searchRounds]; omega)
  refine not_positioned hw.nul hu hin he (hin.search_file hw h1 hf) (hin.file_ne hw) hs2 (fun _ d hd => ?_) h
  rw [hfun.nValue hd]
  exact hv

theorem InFunction.line_undisturbed {e : Stab} {fuel : ℕ} (hin : InFunction t addr lf lf' fn fn') (hw : WellFormed t str)
    (hu : ulim ≤ addr) (he : stabAt t fn = .ok e) (ht : Telling t addr fn fn' e) (hf : 2 * t.length + 1 ≤ fuel)
    (h1 : Undisturbed t nSO 0 (t.length - 1) addr) (h2 : Undisturbed t nFUN lf lf' addr)
    (h : Positioned fuel t str addr fn fn' e) : Undisturbed t nSLINE fn fn' (addr - e.nValue) := by
  by_contra hd
  obtain ⟨hb1, hb2, hb3, hb4, hb5⟩ := hin.bounds
  have hread : Readable t fn fn' := ⟨by omega, by omega⟩
  obtain ⟨i, q, v, hs3, hlow, hiq, hhigh, ⟨le', hle', htype, rfl⟩, hv, -⟩ := stabBinsearch_above hread (hin.sorted_lines hw)
    (disturbed_twice hread (hin.sorted_lines hw) (fun i _ _ => (ht.last i).2.2) hd)
    (show searchRounds fn fn' ≤ fuel by rw [searchRounds]; omega)
  obtain ⟨info, hrun, -, -, -, hline⟩ := debuginfo_run hw hu hin he (hin.search_file hw h1 hf)
    (hin.search_function hw h2 hf) hs3 hiq hhigh hle'
  obtain ⟨ln, le, info', hln, hle, hrun', -, -, -, hline'⟩ := h
  obtain rfl : info = info' := (Prod.mk.inj (Except.ok.inj (hrun.symm.trans hrun'))).2
  refine ht.numbers ln i le le' hln hle hlow (le_trans hiq hhigh) hle' htype hv (BitVec.eq_of_toNat_eq ?_)
  rw [hline] at hline'
  exact Int.ofNat.inj hline'

/-- **The source position.** Where none of the three searches is disturbed by the entry at the address behind the one it is
for, debuginfo_eip returns 0 with the function's address, its name up to the first ':' and the number of the last line of the
function that does not start after the address. On a table in which entries that are too far show, it does so only there. -/
theorem debuginfo_position (t : List Stab) (str : List Byte) (addr : Word) (lf lf' fn fn' : ℤ) (e : Stab)
    (hw : WellFormed t str) (hu : ulim ≤ addr) (hin : InFunction t addr lf lf' fn fn') (he : stabAt t fn = .ok e)
    (fuel : ℕ) (hf : 2 * t.length + 1 ≤ fuel) :
    (ThreeUndisturbed t addr lf lf' fn fn' e → Positioned fuel t str addr fn fn' e) ∧
    (Telling t addr fn fn' e → Positioned fuel t str addr fn fn' e → ThreeUndisturbed t addr lf lf' fn fn' e) := by
  refine ⟨fun h => hin.positioned hw hu he h hf, fun ht h => ?_⟩
  have h1 := hin.file_undisturbed hw hu he ht hf h
  have h2 := hin.function_undisturbed hw hu he ht hf h1 h
  exact ⟨h1, h2, hin.line_undisturbed hw hu he ht hf h1 h2 h⟩

/-- at the function's first byte the line is that of entry 3 -/
theorem twoLines_first : LastUpTo twoLines nSLINE 2 4 0#32 3 := by
  refine ⟨by decide, by decide, ⟨_, ⟨_, rfl, rfl, rfl⟩, by decide⟩, fun j v hj _ hv => ?_⟩
  rcases twoLines_line hv with ⟨rfl, -⟩ | ⟨-, rfl⟩
  · exact absurd hj (by decide)
  · decide

theorem twoLines_telling : Telling twoLines 0xf0100000#32 2 4 ⟨5, nFUN, 0, 0xf0100000⟩ where
  last i := by
    refine ⟨fun h => ?_, fun h => ?_, fun h => ?_⟩
    · exact absurd (twoLines_file h).2 (by decide)
    · exact absurd (twoLines_fun h).2 (by decide)
    · rcases twoLines_line h with ⟨-, h0⟩ | ⟨-, h1⟩
      · exact absurd h0 (by decide)
      · exact absurd h1 (by decide)
  behind f i v w hv _ _ hw := by
    rw [(twoLines_file hv).2, (twoLines_fun hw).2]
    exact Nat.le_refl _
  numbers i j le le' hi hle _ _ hle' htype hlt := by
    obtain rfl : i = 3 := hi.unique twoLines_first
    obtain rfl := Except.ok.inj hle
    rcases twoLines_line ⟨le', hle', htype, rfl⟩ with ⟨-, h0⟩ | ⟨rfl, -⟩
    · rw [h0] at hlt
      exact absurd hlt (by decide)
    · obtain rfl := Except.ok.inj hle'
      decide

/-- the function's first byte + 5 is undisturbed, and its first byte has the right line only if it is -/
theorem debuginfo_position_twoLines : Positioned 11 twoLines twoLinesStr 0xf0100005#32 2 4 ⟨5, nFUN, 0, 0xf0100000⟩ ∧
    (Positioned 11 twoLines twoLinesStr 0xf0100000#32 2 4 ⟨5, nFUN, 0, 0xf0100000⟩ →
      ThreeUndisturbed twoLines 0xf0100000#32 1 4 2 4 ⟨5, nFUN, 0, 0xf0100000⟩) := by
  have h : ThreeUndisturbed twoLines 0xf0100005#32 1 4 2 4 ⟨5, nFUN, 0, 0xf0100000⟩ := by
    refine ⟨fun p m hm => ?_, fun p m hm => ?_, fun p m hm => ?_⟩
    · exact absurd (twoLines_file hm.at_.has).2 (by decide)
    · exact absurd (twoLines_fun hm.at_.has).2 (by decide)
    · rcases twoLines_line hm.at_.has with ⟨-, h0⟩ | ⟨-, h1⟩
      · exact absurd h0 (by decide)
      · exact absurd h1 (by decide)
  constructor
  · exact (debuginfo_position twoLines twoLinesStr 0xf0100005#32 1 4 2 4 ⟨5, nFUN, 0, 0xf0100000⟩ twoLines_wellFormed
      (by decide) (twoLines_inFunction (by decide)) rfl 11 (by decide)).1 h
  · exact (debuginfo_position twoLines twoLinesStr 0xf0100000#32 1 4 2 4 ⟨5, nFUN, 0, 0xf0100000⟩ twoLines_wellFormed
      (by decide) (twoLines_inFunction (by decide)) rfl 11 (by decide)).2 twoLines_telling

/-- the function's first byte: the last line that does not start after it is 10, the answer is 11 -/
theorem debuginfo_next_line :
    WellFormed twoLines twoLinesStr ∧ ulim ≤ 0xf0100000#32 ∧ InFunction twoLines 0xf0100000#32 1 4 2 4 ∧
      (stabAt twoLines 2).map Stab.nValue = .ok 0xf0100000#32 ∧ LastUpTo twoLines nSLINE 2 4 0#32 3 ∧
      (stabAt twoLines 3).map Stab.nDesc = .ok 10#16 ∧
      (debuginfoEip 11 twoLines twoLinesStr 0xf0100000#32).map (fun p => (p.1, p.2.eipFnAddr, p.2.eipLine)) =
        .ok (0, 0xf0100000#32, 11) :=
  ⟨twoLines_wellFormed, by decide, twoLines_inFunction (by decide), rfl, twoLines_first, rfl, rfl⟩

end Info

end Jos
