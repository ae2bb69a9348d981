/-
The number of arguments that debuginfo_eip counts (kern/kdebug.c).

The loop counts the parameters behind the function's entry up to, but not including, the last entry of its region. That
entry is no parameter of an unbroken run: the line search has found a line in the region, and the entry of the function is
none, so a line stands behind it. Results:
- `search_found`: what stab_binsearch finds in any table, and what kind of entry its bracket starts at;
- `function_entry`: the function's region has at least two entries only if the first is a function or a file;
- `narg_exact`: so the number of arguments is the length of the run of parameters in the whole region.
-/
import Jos.Kdebug.Safety

namespace Jos

open Jos.Lib

/-! ## What a search finds -/

section Search

variable {t : List Stab} {type : Byte} {lo hi : ℤ} {a : Word} {s s' : Search}

/-- *region_left is the left end or an entry of the type, and a match is one in the range -/
structure Matched (t : List Stab) (type : Byte) (lo hi : ℤ) (s : Search) : Prop where
  left : s.left = lo ∨ ∃ v, Has t type s.left v
  any : s.anyMatches = true → ∃ j v, lo ≤ j ∧ j ≤ hi ∧ Has t type j v

theorem matched_step (h : Matched t type lo hi s) (hr : InRange t type lo hi s) (h0 : 0 ≤ lo) (hle : s.l ≤ s.r)
    (hs : Stepped t type s s') : Matched t type lo hi s' := by
  obtain ⟨hlow, hleft, -, -, hhi, -, -⟩ := hr
  obtain ⟨-, hmid⟩ := mid_bounds (s := s) (by omega) hle
  have hprobe : ∀ {m : ℤ} {v : Word}, Probe t type s m v → ∃ j v, lo ≤ j ∧ j ≤ hi ∧ Has t type j v := by
    intro m v hm
    have hml := hm.low
    have hmh := hm.high
    exact ⟨m, v, by omega, by omega, hm.has⟩
  cases hs with
  | none => exact ⟨h.left, h.any⟩
  | below hm => exact ⟨Or.inr ⟨_, hm.has⟩, fun _ => hprobe hm⟩
  | above hm => exact ⟨h.left, fun _ => hprobe hm⟩
  | exact hm => exact ⟨Or.inr ⟨_, hm.has⟩, fun _ => hprobe hm⟩

/-- the bracket i..r that a search of lo..hi has left -/
structure SearchResult (t : List Stab) (type : Byte) (lo hi i r : ℤ) : Prop where
  none : r < i → i = lo
  some : i ≤ r → ∃ j v, lo ≤ j ∧ j ≤ hi ∧ Has t type j v
  high : r ≤ hi
  low : lo ≤ i ∨ i = r ∧ i = lo - 1 ∧ ∃ v, Has t type lo v
  left : i < r → i = lo ∨ ∃ v, Has t type i v

theorem search_found {fuel : ℕ} {i r : ℤ} (h0 : 0 ≤ lo) (hle : lo ≤ hi + 1)
    (h : stabBinsearch fuel t type lo hi a = .ok (i, r)) : SearchResult t type lo hi i r := by
  rw [stabBinsearch_eq] at h
  obtain ⟨s, hs, h⟩ := Prog.except_bind_ok.1 h
  obtain ⟨⟨hr, hm⟩, -⟩ := searchLoop_inv (I := fun s => InRange t type lo hi s ∧ Matched t type lo hi s)
    (fun s hs => le_trans h0 (le_trans hs.1.low hs.1.left))
    (fun s s' hs hle hstep => ⟨inRange_step hs.1 h0 hle hstep, matched_step hs.2 hs.1 h0 hle hstep⟩) _
    ⟨inRange_start hle, Or.inl rfl, fun hany => absurd hany Bool.noConfusion⟩ hs
  obtain ⟨hlow, hleft, hrange, hright, hhi, hnone, hsome⟩ := hr
  cases hany : s.anyMatches with
  | false =>
    have hl := hnone hany
    rw [settle_eq, hany] at h
    obtain ⟨rfl, rfl⟩ := Prod.mk.inj (Except.ok.inj h)
    refine ⟨fun _ => hl, ?_, by omega, Or.inl hlow, ?_⟩ <;>
    · intro hlt
      exact absurd hlt (by omega)
  | true =>
    rw [settle_eq, hany, Bool.not_true, if_neg Bool.false_ne_true] at h
    by_cases hlr : s.right ≤ s.left
    · rw [if_pos hlr] at h
      obtain ⟨rfl, rfl⟩ := Prod.mk.inj (Except.ok.inj h)
      refine ⟨fun hlt => absurd hlt (lt_irrefl _), fun _ => hm.any hany, by omega, ?_,
        fun hlt => absurd hlt (lt_irrefl _)⟩
      by_cases hge : lo ≤ s.right
      · exact Or.inl hge
      · exact Or.inr ⟨rfl, by omega, hsome hany (by omega)⟩
    · rw [if_neg hlr] at h
      obtain ⟨j, hj, h⟩ := Prog.except_bind_ok.1 h
      obtain ⟨rfl, rfl⟩ := Prod.mk.inj (Except.ok.inj h)
      obtain ⟨h1, h2, hcase⟩ := fixup_ok hj
      refine ⟨fun hlt => absurd hlt (by omega), fun _ => hm.any hany, by omega, Or.inl (by omega), fun _ => ?_⟩
      rcases hcase with rfl | hhas
      · exact hm.left
      · exact Or.inr hhas

end Search

/-! ## The parameters -/

section Args

variable {t : List Stab} {str : List Byte} {addr : Word} {lfile rfile lfun rfun : ℤ}

/-- n is the length of the longest run of parameters right behind lfun, up to and including rfun -/
structure ArgRun (t : List Stab) (lfun rfun : ℤ) (n : ℕ) : Prop where
  inside : lfun + n ≤ rfun
  params : ∀ j, lfun < j → j ≤ lfun + n → ∃ v, Has t nPSYM j v
  maximal : lfun + n < rfun → ∀ v, ¬ Has t nPSYM (lfun + n + 1) v

/-- the loop stops at rfun, or before it at the first entry that is no parameter -/
theorem countArgs_run {k n : ℕ} {l : ℤ} (h : countArgs t rfun k l = .ok n) (hl : l ≤ rfun) (hk : (rfun - l).toNat ≤ k) :
    l + n ≤ rfun ∧ (∀ j, l ≤ j → j < l + n → ∃ v, Has t nPSYM j v) ∧
      (l + n < rfun → ∀ v, ¬ Has t nPSYM (l + n) v) := by
  induction k generalizing l n with
  | zero =>
    obtain rfl := Except.ok.inj h
    exact ⟨by simpa using hl, fun j h1 h2 => absurd h2 (by push_cast; omega), fun hlt => absurd hlt (by push_cast; omega)⟩
  | succ k ih =>
    rw [countArgs] at h
    by_cases hend : rfun ≤ l
    · rw [if_pos hend] at h
      obtain rfl := Except.ok.inj h
      exact ⟨by simpa using hl, fun j h1 h2 => absurd h2 (by push_cast; omega),
        fun hlt => absurd hlt (by push_cast; omega)⟩
    · rw [if_neg hend] at h
      obtain ⟨e, he, h⟩ := Prog.except_bind_ok.1 h
      by_cases htype : e.nType = nPSYM
      · rw [if_pos htype] at h
        obtain ⟨n', hn', h⟩ := Prog.except_bind_ok.1 h
        obtain rfl : n' + 1 = n := Except.ok.inj h
        obtain ⟨hin, hparams, hmax⟩ := ih hn' (by omega) (by omega)
        push_cast
        have hassoc : l + (n' + 1 : ℤ) = l + 1 + n' := by ring
        rw [hassoc]
        refine ⟨hin, ?_, hmax⟩
        intro j h1 h2
        rcases eq_or_lt_of_le h1 with rfl | hlt
        · exact ⟨e.nValue, e, he, htype, rfl⟩
        · exact hparams j hlt h2
      · rw [if_neg htype] at h
        obtain rfl := Except.ok.inj h
        refine ⟨by simpa using hl, fun j h1 h2 => absurd h2 (by push_cast; omega), fun _ v => ?_⟩
        rw [Nat.cast_zero, add_zero]
        exact not_has he htype v

/-- **The open bound does no harm** where an entry of the region is no parameter. -/
theorem fnNarg_run {n : ℕ} (hle : lfun ≤ rfun) (h : fnNarg t lfun rfun = .ok n)
    (hline : lfun < rfun → ∃ j, lfun < j ∧ j ≤ rfun ∧ ∀ v, ¬ Has t nPSYM j v) : ArgRun t lfun rfun n := by
  rw [fnNarg] at h
  by_cases hlt : lfun < rfun
  · rw [if_pos hlt] at h
    obtain ⟨hin, hparams, hmax⟩ := countArgs_run h (by omega) (by omega)
    obtain ⟨j, hj1, hj2, hj⟩ := hline hlt
    refine ⟨by omega, fun i h1 h2 => hparams i (by omega) (by omega), fun hn v => ?_⟩
    have hnext : lfun + n + 1 = lfun + 1 + n := by ring
    rw [hnext]
    by_cases hstop : lfun + 1 + n < rfun
    · exact hmax hstop v
    · -- the run has reached the last entry, so that is the one
      have hlast : lfun + 1 + n = j := by
        by_contra hne
        obtain ⟨w, hw⟩ := hparams j (by omega) (by omega)
        exact hj w hw
      rw [hlast]
      exact hj v
  · rw [if_neg hlt] at h
    obtain rfl := Except.ok.inj h
    exact ⟨by simpa using hle, fun j h1 h2 => absurd h2 (by push_cast; omega), fun hn => absurd hn (by push_cast; omega)⟩

/-- **The first entry of a region of two or more is a function or a file.** Only the search for the file can end at an entry
of another type, below a file at the last address, and then the range it leaves is that one entry. -/
theorem function_entry {fuel : ℕ} (hh : Header t) (hfile : stabBinsearch fuel t nSO 0 (t.length - 1) addr = .ok (lfile, rfile))
    (h0 : lfile ≠ 0) (hfun : stabBinsearch fuel t nFUN lfile rfile addr = .ok (lfun, rfun)) (hlt : lfun < rfun) :
    0 ≤ lfun ∧ ∀ v, ¬ Has t nSLINE lfun v := by
  obtain ⟨hnone, -, hhigh, hlow, hleft⟩ := search_found (le_refl _) (by omega) hfile
  have hpos : 1 ≤ lfile ∧ lfile ≤ rfile := by
    rcases hlow with hge | ⟨-, -, v, hv⟩
    · by_contra hneg
      exact h0 (hnone (by omega))
    · exact absurd hv (hh.not_has (Or.inl rfl) v)
  obtain ⟨-, -, hhigh', hlow', hleft'⟩ := search_found (by omega) (by omega) hfun
  have hge : lfile ≤ lfun := by
    rcases hlow' with hge | ⟨heq, -⟩
    · exact hge
    · exact absurd heq (ne_of_lt hlt)
  refine ⟨by omega, ?_⟩
  rcases hleft' hlt with rfl | ⟨v, hv⟩
  · rcases hleft (by omega) with heq | ⟨v, hv⟩
    · exact absurd heq h0
    · exact hv.type_ne (by decide)
  · exact hv.type_ne (by decide)

theorem finish_narg {info info' : Eipdebuginfo} {lline : ℤ} (h : finish t str info lfile lfun rfun lline = .ok info') :
    fnNarg t lfun rfun = .ok info'.eipFnNarg := by
  obtain ⟨line, -, h1⟩ := Prog.except_bind_ok.1 h
  obtain ⟨f, -, h2⟩ := Prog.except_bind_ok.1 h1
  obtain ⟨file, -, h3⟩ := Prog.except_bind_ok.1 h2
  obtain ⟨narg, hnarg, h4⟩ := Prog.except_bind_ok.1 h3
  rw [hnarg, ← Except.ok.inj h4]

/-- what a call that returns 0 has done after its second search -/
theorem debuginfo_narg {fuel : ℕ} {info : Eipdebuginfo} (h : debuginfoEip fuel t str addr = .ok (0, info))
    (hfile : stabBinsearch fuel t nSO 0 (t.length - 1) addr = .ok (lfile, rfile))
    (hfun : stabBinsearch fuel t nFUN lfile rfile addr = .ok (lfun, rfun)) (hle : lfun ≤ rfun) :
    lfile ≠ 0 ∧ fnNarg t lfun rfun = .ok info.eipFnNarg ∧
      ∃ addr' lline rline, stabBinsearch fuel t nSLINE lfun rfun addr' = .ok (lline, rline) ∧ lline ≤ rline := by
  rw [debuginfoEip] at h
  by_cases hpanic : addr < ulim
  · rw [if_pos hpanic] at h
    cases h
  rw [if_neg hpanic] at h
  by_cases hstr : str.getLast? ≠ some 0#8
  · rw [if_pos hstr] at h
    cases (Prod.mk.inj (Except.ok.inj h)).1
  · rw [if_neg hstr] at h
    obtain ⟨p, hp, h⟩ := Prog.except_bind_ok.1 h
    obtain rfl : (lfile, rfile) = p := Except.ok.inj (hfile.symm.trans hp)
    change (if lfile = 0 then _ else _) = _ at h
    by_cases h0 : lfile = 0
    · rw [if_pos h0] at h
      cases (Prod.mk.inj (Except.ok.inj h)).1
    · rw [if_neg h0] at h
      obtain ⟨p, hp, h⟩ := Prog.except_bind_ok.1 h
      obtain rfl : (lfun, rfun) = p := Except.ok.inj (hfun.symm.trans hp)
      obtain ⟨sc, hsc, h⟩ := Prog.except_bind_ok.1 h
      rw [scope, if_pos hle] at hsc
      obtain ⟨e, -, hsc⟩ := Prog.except_bind_ok.1 hsc
      obtain rfl := Except.ok.inj hsc
      obtain ⟨len, -, h⟩ := Prog.except_bind_ok.1 h
      obtain ⟨⟨ln, ln'⟩, hline, h⟩ := Prog.except_bind_ok.1 h
      change (if ln ≤ ln' then _ else _) = _ at h
      by_cases hln : ln ≤ ln'
      · rw [if_pos hln] at h
        obtain ⟨info', hfin, h⟩ := Prog.except_bind_ok.1 h
        obtain rfl : info' = info := (Prod.mk.inj (Except.ok.inj h)).2
        exact ⟨h0, finish_narg hfin, _, _, _, hline, hln⟩
      · rw [if_neg hln] at h
        cases (Prod.mk.inj (Except.ok.inj h)).1

/-- **The number of arguments is exact**: it is the length of the run of parameters behind the function's entry, the last
entry of the region included. -/
theorem narg_exact (t : List Stab) (str : List Byte) (addr : Word) (fuel : ℕ) (info : Eipdebuginfo)
    (lfile rfile lfun rfun : ℤ) (hh : Header t)
    (hfile : stabBinsearch fuel t nSO 0 (t.length - 1) addr = .ok (lfile, rfile))
    (hfun : stabBinsearch fuel t nFUN lfile rfile addr = .ok (lfun, rfun)) (hle : lfun ≤ rfun)
    (h : debuginfoEip fuel t str addr = .ok (0, info)) : ArgRun t lfun rfun info.eipFnNarg := by
  obtain ⟨h0, hnarg, addr', lline, rline, hline, hlr⟩ := debuginfo_narg h hfile hfun hle
  apply fnNarg_run hle hnarg
  intro hlt
  obtain ⟨hge, hentry⟩ := function_entry hh hfile h0 hfun hlt
  obtain ⟨j, v, hj1, hj2, hj⟩ := (search_found hge (by omega) hline).some hlr
  -- the line found is not the function's own entry
  have hne : j ≠ lfun := by
    rintro rfl
    exact hentry v hj
  exact ⟨j, by omega, hj2, hj.type_ne (by decide)⟩

/-- two arguments, and the last entry of the region is the first line -/
def twoArgs : List Stab :=
  [⟨0, 0x00, 6, 0⟩, ⟨1, nSO, 0, 0xf0100000⟩, ⟨5, nFUN, 0, 0xf0100000⟩, ⟨0, nPSYM, 0, 8⟩, ⟨0, nPSYM, 0, 12⟩,
    ⟨0, nSLINE, 10, 0⟩]

theorem narg_exact_twoArgs : ArgRun twoArgs 2 5 2 := by
  have hrun : debuginfoEip 20 twoArgs twoLinesStr 0xf0100002#32 =
      .ok (0, ⟨.stabstr 1, 10, .stabstr 5, 1, 0xf0100000#32, 2⟩) := by decide +kernel
  have hh : Header twoArgs := by
    intro e he
    obtain rfl := Option.some.inj he
    decide
  exact narg_exact twoArgs twoLinesStr 0xf0100002#32 20 _ 1 5 2 5 hh (by decide +kernel) (by decide +kernel) (by decide) hrun

end Args

end Jos
