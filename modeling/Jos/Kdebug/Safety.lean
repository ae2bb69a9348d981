/-
Memory safety of debuginfo_eip on any table.

Each of the three searches works on the range that the one before has left, and the code checks none of these ranges. On a
table that is not in the order of its values a bracket may come back empty, or one entry below its left end, but never
further (`search_bounds`), and only if the entry at the left end has the type searched for. The linker's header, entry 0, has
none of the three types, so no index gets below 0. Results:
- `search_bounds`: where the bracket of stab_binsearch ends, whatever the order of the table;
- `debuginfo_safe`: no read of debuginfo_eip leaves the stab table or the string table, every loop ends, and the name of the
  function lies inside the string table.
-/
import Jos.Kdebug.Info

namespace Jos

open Jos.Lib

/-! ## The bracket of an unsorted table -/

section Search

variable {t : List Stab} {type : Byte} {lo hi : ℤ} {a : Word} {s s' : Search}

/-- what every round keeps, without any order -/
structure InRange (t : List Stab) (type : Byte) (lo hi : ℤ) (s : Search) : Prop where
  low : lo ≤ s.left
  left : s.left ≤ s.l
  range : s.l ≤ s.r + 1
  right : s.right = s.r
  high : s.r ≤ hi
  none : s.anyMatches = false → s.left = lo
  some : s.anyMatches = true → s.r = lo - 1 → ∃ v, Has t type lo v

theorem inRange_start (h : lo ≤ hi + 1) : InRange t type lo hi (searchStart lo hi a) where
  low := le_refl _
  left := le_refl _
  range := h
  right := rfl
  high := le_refl _
  none _ := rfl
  some hany := absurd hany Bool.noConfusion

theorem inRange_step (h : InRange t type lo hi s) (h0 : 0 ≤ lo) (hle : s.l ≤ s.r) (hs : Stepped t type s s') :
    InRange t type lo hi s' := by
  obtain ⟨hlow, hleft, hrange, hright, hhi, hnone, hsome⟩ := h
  obtain ⟨hm1, hm2⟩ := mid_bounds (s := s) (by omega) hle
  cases hs with
  | none => exact ⟨hlow, by simp only; omega, by simp only; omega, hright, hhi, hnone, hsome⟩
  | below hm =>
    have hml := hm.low
    have hmh := hm.high
    exact ⟨by simp only; omega, by simp only; omega, by simp only; omega, hright, hhi,
      fun hany => absurd hany Bool.noConfusion, fun _ hr => absurd hr (by simp only; omega)⟩
  | @above m v hm =>
    have hml := hm.low
    have hmh := hm.high
    refine ⟨hlow, hleft, by simp only; omega, rfl, by simp only; omega, fun hany => absurd hany Bool.noConfusion,
      fun _ hr => ⟨v, ?_⟩⟩
    obtain rfl : m = lo := by
      simp only at hr
      omega
    exact hm.has
  | exact hm =>
    have hml := hm.low
    have hmh := hm.high
    exact ⟨by simp only; omega, le_refl _, by simp only; omega, hright, hhi,
      fun hany => absurd hany Bool.noConfusion, fun _ hr => absurd hr (by simp only; omega)⟩

/-- the bracket is empty at the left end of the range, or it lies in the range, or it starts one entry below it, where the
entry at the left end has the type -/
theorem search_bounds (type : Byte) (a : Word) {fuel : ℕ} (hr : Readable t lo hi) (hle : lo ≤ hi + 1)
    (hf : searchRounds lo hi ≤ fuel) :
    ∃ i r, stabBinsearch fuel t type lo hi a = .ok (i, r) ∧ r ≤ hi ∧
      (i = lo ∧ r = lo - 1 ∨ lo - 1 ≤ i ∧ i ≤ r ∧ (i = lo - 1 → ∃ v, Has t type lo v)) := by
  obtain ⟨s, hs⟩ : ∃ s, searchLoop t type (searchRounds lo hi) (searchStart lo hi a) = .ok s :=
    searchLoop_ends hr (hi - lo + 1).toNat (le_refl _) (le_refl _) (le_refl _)
  obtain ⟨⟨hlow, hleft, hrange, hright, hhi, hnone, hsome⟩, -⟩ := searchLoop_inv (I := InRange t type lo hi)
    (fun s hs => le_trans hr.1 (le_trans hs.low hs.left)) (fun s s' hs hle hstep => inRange_step hs hr.1 hle hstep) _
    (inRange_start hle) hs
  rw [stabBinsearch_eq, searchLoop_result hr hf hs]
  change ∃ i r, settle t type s = .ok (i, r) ∧ _
  cases hany : s.anyMatches with
  | false =>
    have hl := hnone hany
    refine ⟨s.left, s.left - 1, ?_, by omega, Or.inl ⟨hl, by omega⟩⟩
    rw [settle_eq, hany]
    rfl
  | true =>
    rw [settle_eq, hany, Bool.not_true, if_neg Bool.false_ne_true]
    by_cases hlr : s.right ≤ s.left
    · rw [if_pos hlr]
      exact ⟨_, _, rfl, by omega, Or.inr ⟨by omega, le_refl _, fun h1 => hsome hany (by omega)⟩⟩
    · rw [if_neg hlr]
      obtain ⟨i, hi'⟩ : ∃ i, fixup t type s.left (s.right - s.left).toNat = .ok i := fixup_ends hr hlow (by omega)
      obtain ⟨h1, h2, -⟩ := fixup_ok hi'
      exact ⟨i, s.right, Prog.except_bind_ok.2 ⟨i, hi', rfl⟩, by omega, Or.inr ⟨by omega, by omega, fun h3 => by omega⟩⟩

end Search

/-! ## debuginfo_eip -/

section Info

variable {t : List Stab} {str : List Byte} {lfile rfile lfun rfun : ℤ}

/-- entry 0 is none of those searched for -/
def Header (t : List Stab) : Prop := ∀ e, t[0]? = some e → e.nType ≠ nSO ∧ e.nType ≠ nFUN ∧ e.nType ≠ nSLINE

/-- eip_fn_name and eip_fn_namelen: a slice of the string table, or the literal -/
def NameSlice (str : List Byte) (info : Eipdebuginfo) : Prop :=
  info.eipFnName = .unknown ∧ info.eipFnNamelen = 9 ∨
    ∃ i, info.eipFnName = .stabstr i ∧ i + info.eipFnNamelen < str.length

/-- the name is the literal, or it starts inside the string table -/
def NameStart (str : List Byte) (name : Name) : Prop := name = .unknown ∨ ∃ i, name = .stabstr i ∧ i < str.length

theorem Header.not_has (h : Header t) {type : Byte} (htype : type = nSO ∨ type = nFUN ∨ type = nSLINE) (v : Word) :
    ¬ Has t type 0 v := by
  rintro ⟨e, he, rfl, -⟩
  obtain ⟨h1, h2, h3⟩ := h e (stabAt_ok.1 he).2
  rcases htype with h | h | h
  · exact h1 h
  · exact h2 h
  · exact h3 h

theorem nameAt_start (e : Stab) {name : Name} (h : NameStart str name) : NameStart str (nameAt str e name) := by
  unfold nameAt
  split_ifs with hlt
  · exact Or.inr ⟨_, rfl, hlt⟩
  · exact h

/-- strfind stays inside the string table, which ends in NUL -/
theorem strfind_slice {name : Name} (info : Eipdebuginfo) (hn : str.getLast? = some 0#8) (h : NameStart str name) :
    ∃ n, strfind 0x3A#8 (name.bytes str) = .ok n ∧ NameSlice str { info with eipFnName := name, eipFnNamelen := n } := by
  rcases h with rfl | ⟨i, rfl, hi⟩
  · exact ⟨9, rfl, Or.inl ⟨rfl, rfl⟩⟩
  · have hmem := nul_mem_drop hn hi
    refine ⟨_, strfind_run hmem, Or.inr ⟨i, rfl, ?_⟩⟩
    -- the NUL is behind the name
    have hlt : nameLength (str.drop i) < (str.drop i).length := by
      refine lt_of_le_of_ne (List.takeWhile_prefix _).length_le ?_
      intro heq
      have hself := (List.takeWhile_prefix _).eq_of_length heq
      have hall := List.all_takeWhile (l := str.drop i) (p := fun b => b ≠ 0#8 ∧ b ≠ 0x3A#8)
      rw [hself] at hall
      exact absurd (List.all_eq_true.1 hall _ hmem) (by decide)
    rw [List.length_drop] at hlt
    change i + nameLength (str.drop i) < str.length
    omega

/-- what the function search leads to: the name, and the range for the line -/
theorem scope_safe (info : Eipdebuginfo) (addr : Word) (hname : NameStart str info.eipFnName)
    (hfile : Readable t lfile rfile) (hle : lfile ≤ rfile + 1)
    (hfun : lfun = lfile ∧ rfun = lfile - 1 ∨ 0 ≤ lfun ∧ lfun ≤ rfun) (hr : rfun ≤ rfile) :
    ∃ sc, scope t str info addr lfile rfile lfun rfun = .ok sc ∧ NameStart str sc.info.eipFnName ∧
      Readable t sc.lline sc.rline ∧ sc.lline ≤ sc.rline + 1 ∧ sc.rline ≤ rfile := by
  rcases hfun with ⟨rfl, rfl⟩ | ⟨h0, hlr⟩
  · exact ⟨_, if_neg (by omega), hname, hfile, hle, le_refl _⟩
  · obtain ⟨e, he⟩ := (show Readable t 0 rfile from ⟨le_refl _, hfile.2⟩).stabAt h0 (le_trans hlr hr)
    refine ⟨_, (if_pos hlr).trans (Prog.except_bind_ok.2 ⟨e, he, rfl⟩), nameAt_start e hname, ⟨h0, ?_⟩, ?_, hr⟩
    · exact lt_of_le_of_lt hr hfile.2
    · change lfun ≤ rfun + 1
      omega

/-- **Memory safety.** On every stab table whose entry 0 is no file, function or line and every string table that ends in
NUL, debuginfo_eip returns: no index leaves a table and no loop goes on, and the function's name is a slice of the string
table or the literal. -/
theorem debuginfo_safe (t : List Stab) (str : List Byte) (addr : Word) (hh : Header t) (hn : str.getLast? = some 0#8)
    (hu : ulim ≤ addr) (fuel : ℕ) (hf : 2 * t.length + 1 ≤ fuel) :
    ∃ r info, debuginfoEip fuel t str addr = .ok (r, info) ∧ NameSlice str info := by
  have hrounds : ∀ {lo hi : ℤ}, 0 ≤ lo → hi < t.length → searchRounds lo hi ≤ fuel := fun h0 hlt => by
    rw [searchRounds]
    omega
  have hstart : NameSlice str (infoStart addr) := Or.inl ⟨rfl, rfl⟩
  rw [debuginfoEip, if_neg (BitVec.not_lt.2 hu), if_neg (not_not.2 hn)]
  obtain ⟨lfile, rfile, hs1, hrf, hcase⟩ := search_bounds nSO addr
    (show Readable t 0 (t.length - 1) from ⟨le_refl _, by omega⟩) (by omega) (hrounds (le_refl _) (by omega))
  by_cases hl0 : lfile = 0
  · refine ⟨-1, infoStart addr, Prog.except_bind_ok.2 ⟨_, hs1, ?_⟩, hstart⟩
    exact if_pos hl0
  · -- the bracket cannot start below 0, where entry 0 would be a file
    obtain ⟨hge, hlr⟩ : 1 ≤ lfile ∧ lfile ≤ rfile := by
      rcases hcase with ⟨h1, -⟩ | ⟨h1, h2, h3⟩
      · exact absurd h1 hl0
      · have hne : lfile ≠ 0 - 1 := fun h => by
          obtain ⟨v, hv⟩ := h3 h
          exact hh.not_has (Or.inl rfl) v hv
        omega
    have hfile : Readable t lfile rfile := ⟨by omega, by omega⟩
    obtain ⟨lfun, rfun, hs2, hrfun, hfun⟩ := search_bounds nFUN addr hfile (by omega) (hrounds hfile.1 hfile.2)
    have hfun' : lfun = lfile ∧ rfun = lfile - 1 ∨ 0 ≤ lfun ∧ lfun ≤ rfun :=
      hfun.imp_right fun h => ⟨by omega, h.2.1⟩
    obtain ⟨sc, hsc, hname, hline, hle, hrl⟩ := scope_safe (infoStart addr) addr (Or.inl rfl) hfile
      (by omega) hfun' hrfun
    obtain ⟨n, hstr, hslice⟩ := strfind_slice sc.info hn hname
    obtain ⟨lline, rline, hs3, hrline, hlines⟩ := search_bounds nSLINE sc.addr hline hle (hrounds hline.1 hline.2)
    have hlfun : 0 ≤ lfun := by
      rcases hfun' with ⟨h1, -⟩ | ⟨h1, -⟩
      · omega
      · exact h1
    -- the rest of the program, from the three brackets
    have hrest : ∃ p : ℤ × Eipdebuginfo, (if lline ≤ rline then (do
          return (0, ← finish t str { sc.info with eipFnNamelen := n } lfile lfun rfun lline) : Except Stop (ℤ × Eipdebuginfo))
        else .ok (-1, { sc.info with eipFnNamelen := n })) = .ok p ∧ NameSlice str p.2 := by
      rcases hlines with ⟨h1, h2⟩ | ⟨h1, h2, h3⟩
      · exact ⟨_, if_neg (by omega), hslice⟩
      · have hl : 0 ≤ lline := by
          by_contra hneg
          have hline0 := hline.1
          obtain ⟨v, hv⟩ := h3 (by omega)
          rw [show sc.lline = 0 by omega] at hv
          exact hh.not_has (Or.inr (Or.inr rfl)) v hv
        obtain ⟨le, hle'⟩ := (show Readable t 0 rfile from ⟨le_refl _, hfile.2⟩).stabAt hl (by omega)
        obtain ⟨info', hfin, -, -, hnm, hlen⟩ := finish_run str { sc.info with eipFnNamelen := n } hfile (by omega)
          (by omega) hlfun hrfun hle'
        refine ⟨(0, info'), (if_pos h2).trans (Prog.except_bind_ok.2 ⟨info', hfin, rfl⟩), ?_⟩
        unfold NameSlice at hslice ⊢
        rw [hnm, hlen]
        exact hslice
    obtain ⟨⟨r, info⟩, hend, hfinal⟩ := hrest
    refine ⟨r, info, Prog.except_bind_ok.2 ⟨_, hs1, ?_⟩, hfinal⟩
    change (if lfile = 0 then _ else _) = _
    rw [if_neg hl0]
    refine Prog.except_bind_ok.2 ⟨_, hs2, Prog.except_bind_ok.2 ⟨sc, hsc, ?_⟩⟩
    exact Prog.except_bind_ok.2 ⟨n, hstr, Prog.except_bind_ok.2 ⟨_, hs3, hend⟩⟩

/-- a function above the address, before a line at a larger one than the line behind it -/
def mixedUp : List Stab :=
  [⟨0, 0x00, 5, 0⟩, ⟨1, nSO, 0, 0xf0100000⟩, ⟨3, nFUN, 0, 0xf0200000⟩, ⟨0, nSLINE, 9, 0xf0300000⟩, ⟨0, nSLINE, 8, 0⟩]

theorem debuginfo_safe_mixedUp :
    ∃ r info, debuginfoEip 11 mixedUp [0x00, 0x6B, 0x00, 0x66, 0x00] 0xf0100005#32 = .ok (r, info) ∧
      NameSlice [0x00, 0x6B, 0x00, 0x66, 0x00] info :=
  debuginfo_safe mixedUp [0x00, 0x6B, 0x00, 0x66, 0x00] 0xf0100005#32 (fun e he => by
    obtain rfl := Option.some.inj he
    decide) rfl (by decide) 11 (by decide)

end Info

end Jos
