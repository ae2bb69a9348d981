/-
The binary search over a stab table (stab_binsearch of kern/kdebug.c).

Most entries have another type than the one searched for, so each probe scans backwards for it. Where the probe has exactly
the searched address, the address is incremented and the search goes on: `hits` is a ghost that counts how often. Indices
are integers, and a read outside the table is a fault. Results:
- `searchStep_ok`: what one round does, in four cases;
- `searchLoop_ends`: the loop ends on every table, sorted or not;
- `bracket_step`: while there is at most one exact match, the bracket stays around the searched address;
- `stabBinsearch_last`: then the result is the last stab of the type that is not above the address, up to the next one;
- `stabBinsearch_above`: with a second exact match it is a stab above the address.
-/
import Jos.Lib.Prog
import Jos.Mmu

namespace Jos

open Jos.Lib

/-! ## inc/stab.h -/

structure Stab where
  nStrx : Word
  nType : Byte
  nDesc : BitVec 16
  nValue : Word
deriving DecidableEq, Repr

def nFUN : Byte := 0x24
def nSLINE : Byte := 0x44
def nSO : Byte := 0x64
def nSOL : Byte := 0x84
def nPSYM : Byte := 0xa0

/-- `stabs[i]` -/
def stabAt (t : List Stab) (i : ℤ) : Except Stop Stab :=
  if 0 ≤ i then
    match t[i.toNat]? with
    | some e => .ok e
    | none => .error .fault
  else .error .fault

theorem stabAt_ok {t : List Stab} {i : ℤ} {e : Stab} : stabAt t i = .ok e ↔ 0 ≤ i ∧ t[i.toNat]? = some e := by
  unfold stabAt
  by_cases h : 0 ≤ i
  · rw [if_pos h]
    cases t[i.toNat]? with
    | none => simp
    | some e' => simp [h]
  · simp [h]

/-! ## stab_binsearch -/

/-- `const struct Stab *stabs`: what can be read at each index -/
abbrev Stabs := ℤ → Except Stop Stab

/-- `stabs[i].n_type == type`, as ints -/
def Stab.isType (e : Stab) (type : Word) : Prop := e.nType.setWidth 32 = type

instance (e : Stab) (type : Word) : Decidable (e.isType type) := inferInstanceAs (Decidable (_ = _))

/-- `while (m >= l && stabs[m].n_type != type) m--`, k rounds from m = l + k - 1 -/
def scanBackAt (stabs : Stabs) (type : Word) (l : ℤ) : ℕ → Except Stop ℤ
  | 0 => .ok (l - 1)
  | k + 1 => do
    if (← stabs (l + k)).isType type then
      return l + k
    scanBackAt stabs type l k

structure Search where
  l : ℤ
  r : ℤ
  /-- `*region_left` -/
  left : ℤ
  /-- `*region_right` -/
  right : ℤ
  anyMatches : Bool
  addr : Word
  /-- ghost: how often the address was incremented -/
  hits : ℕ

/-- true_m -/
def Search.mid (s : Search) : ℤ := (s.l + s.r).tdiv 2

def searchStart (left right : ℤ) (addr : Word) : Search where
  l := left
  r := right
  left := left
  right := right
  anyMatches := false
  addr := addr
  hits := 0

/-- one round -/
def searchStepAt (stabs : Stabs) (type : Word) (s : Search) : Except Stop Search := do
  let m ← scanBackAt stabs type s.l (s.mid - s.l + 1).toNat
  if m < s.l then
    return { s with l := s.mid + 1 }
  let e ← stabs m
  if e.nValue < s.addr then
    return { s with anyMatches := true, left := m, l := s.mid + 1 }
  if s.addr < e.nValue then
    return { s with anyMatches := true, right := m - 1, r := m - 1 }
  return { s with anyMatches := true, left := m, l := m, addr := s.addr + 1#32, hits := s.hits + 1 }

def searchLoopAt (stabs : Stabs) (type : Word) : ℕ → Search → Except Stop Search
  | 0, _ => .error .steps
  | fuel + 1, s =>
    if s.l ≤ s.r then do searchLoopAt stabs type fuel (← searchStepAt stabs type s) else .ok s

/-- `for (l = *region_right; l > *region_left && stabs[l].n_type != type; l--)`, k rounds from l = *region_left + k -/
def fixupAt (stabs : Stabs) (type : Word) (left : ℤ) : ℕ → Except Stop ℤ
  | 0 => .ok left
  | k + 1 => do
    if (← stabs (left + (k + 1))).isType type then
      return left + (k + 1)
    fixupAt stabs type left k

/-- after the loop: the region_left and region_right that the call leaves -/
def settleAt (stabs : Stabs) (type : Word) (s : Search) : Except Stop (ℤ × ℤ) :=
  if !s.anyMatches then .ok (s.left, s.left - 1)
  else if s.right ≤ s.left then .ok (s.right, s.right)
  else do return (← fixupAt stabs type s.left (s.right - s.left).toNat, s.right)

def stabBinsearchAt (fuel : ℕ) (stabs : Stabs) (type : Word) (left right : ℤ) (addr : Word) : Except Stop (ℤ × ℤ) := do
  settleAt stabs type (← searchLoopAt stabs type fuel (searchStart left right addr))

/-! ### In a table, for the type of an entry -/

section Table

variable (t : List Stab) (type : Byte)

def scanBack : ℤ → ℕ → Except Stop ℤ := scanBackAt (stabAt t) (type.setWidth 32)

def searchStep : Search → Except Stop Search := searchStepAt (stabAt t) (type.setWidth 32)

def searchLoop : ℕ → Search → Except Stop Search := searchLoopAt (stabAt t) (type.setWidth 32)

def fixup : ℤ → ℕ → Except Stop ℤ := fixupAt (stabAt t) (type.setWidth 32)

def settle : Search → Except Stop (ℤ × ℤ) := settleAt (stabAt t) (type.setWidth 32)

def stabBinsearch (fuel : ℕ) (t : List Stab) (type : Byte) : ℤ → ℤ → Word → Except Stop (ℤ × ℤ) :=
  stabBinsearchAt fuel (stabAt t) (type.setWidth 32)

/-- the types of entries are compared as bytes -/
theorem isType_byte (e : Stab) (b : Byte) : e.isType (b.setWidth 32) ↔ e.nType = b := by
  constructor
  · intro h
    have hlow := congrArg (BitVec.setWidth 8) h
    rwa [BitVec.setWidth_setWidth_of_le e.nType (by decide), BitVec.setWidth_setWidth_of_le b (by decide),
      BitVec.setWidth_eq, BitVec.setWidth_eq] at hlow
  · rintro rfl
    rfl

theorem scanBack_succ (l : ℤ) (k : ℕ) : scanBack t type l (k + 1) = (do
    let e ← stabAt t (l + k)
    if e.nType = type then .ok (l + k) else scanBack t type l k) := by
  rw [scanBack, scanBackAt]
  exact congrArg _ (funext fun e => if_congr (isType_byte e type) rfl rfl)

theorem searchLoop_succ (fuel : ℕ) (s : Search) : searchLoop t type (fuel + 1) s =
    if s.l ≤ s.r then do searchLoop t type fuel (← searchStep t type s) else .ok s := rfl

theorem fixup_succ (left : ℤ) (k : ℕ) : fixup t type left (k + 1) = (do
    let e ← stabAt t (left + (k + 1))
    if e.nType = type then .ok (left + (k + 1)) else fixup t type left k) := by
  rw [fixup, fixupAt]
  exact congrArg _ (funext fun e => if_congr (isType_byte e type) rfl rfl)

theorem settle_eq (s : Search) : settle t type s =
    if !s.anyMatches then .ok (s.left, s.left - 1)
    else if s.right ≤ s.left then .ok (s.right, s.right)
    else do return (← fixup t type s.left (s.right - s.left).toNat, s.right) := rfl

theorem stabBinsearch_eq (fuel : ℕ) (left right : ℤ) (addr : Word) : stabBinsearch fuel t type left right addr =
    (searchLoop t type fuel (searchStart left right addr) >>= settle t type) := rfl

end Table

/-! ## One round -/

/-- entry i has the type and the value v -/
def Has (t : List Stab) (type : Byte) (i : ℤ) (v : Word) : Prop :=
  ∃ e, stabAt t i = .ok e ∧ e.nType = type ∧ e.nValue = v

/-- all of these entries are readable -/
def Readable (t : List Stab) (lo hi : ℤ) : Prop := 0 ≤ lo ∧ hi < t.length

section Round

variable {t : List Stab} {type : Byte} {s s' : Search}

theorem Readable.stabAt {lo hi : ℤ} (h : Readable t lo hi) {i : ℤ} (h1 : lo ≤ i) (h2 : i ≤ hi) :
    ∃ e, stabAt t i = .ok e := by
  obtain ⟨hlo, hhi⟩ := h
  have hlt : i.toNat < t.length := by omega
  refine ⟨t[i.toNat], ?_⟩
  rw [Jos.stabAt, if_pos (le_trans hlo h1), List.getElem?_eq_getElem hlt]

theorem Has.nValue {i : ℤ} {v : Word} {e : Stab} (h : Has t type i v) (he : stabAt t i = .ok e) : e.nValue = v := by
  obtain ⟨e', he', -, rfl⟩ := h
  rw [he] at he'
  rw [Except.ok.inj he']

theorem Has.unique {i : ℤ} {v w : Word} (h1 : Has t type i v) (h2 : Has t type i w) : v = w := by
  obtain ⟨e, he, -, rfl⟩ := h1
  exact h2.nValue he

theorem not_has {i : ℤ} {e : Stab} (he : stabAt t i = .ok e) (hne : e.nType ≠ type) (v : Word) : ¬ Has t type i v := by
  rintro ⟨e', he', htype, -⟩
  rw [he] at he'
  exact hne (Except.ok.inj he' ▸ htype)

theorem Has.type_ne {i : ℤ} {type type' : Byte} {v : Word} (h : Has t type i v) (hne : type ≠ type') (w : Word) :
    ¬ Has t type' i w := by
  obtain ⟨e, he, rfl, -⟩ := h
  exact not_has he hne w

/-- the scan finds the last entry of the type, or ends before l -/
theorem scanBack_ok {l m : ℤ} {k : ℕ} (h : scanBack t type l k = .ok m) :
    m < l + k ∧ (∀ i v, m < i → l ≤ i → i < l + k → ¬ Has t type i v) ∧
      (m = l - 1 ∨ l ≤ m ∧ ∃ e, stabAt t m = .ok e ∧ e.nType = type) := by
  induction k with
  | zero =>
    obtain rfl := Except.ok.inj h
    exact ⟨by simp, fun i v _ h1 h2 => absurd h1 (by simp at h2; omega), Or.inl rfl⟩
  | succ k ih =>
    rw [scanBack_succ] at h
    obtain ⟨e, he, h1⟩ := Prog.except_bind_ok.1 h
    by_cases htype : e.nType = type
    · rw [if_pos htype] at h1
      obtain rfl : l + k = m := Except.ok.inj h1
      refine ⟨by push_cast; omega, fun i v hi _ hlt => absurd hi (by push_cast at hlt; omega), Or.inr ⟨by omega, e, he, htype⟩⟩
    · rw [if_neg htype] at h1
      obtain ⟨hlt, hnone, hcase⟩ := ih h1
      refine ⟨by push_cast; omega, fun i v hm hl hi => ?_, hcase⟩
      rcases eq_or_ne i (l + k) with rfl | hne
      · exact not_has he htype v
      · exact hnone i v hm hl (by push_cast at hi; omega)

theorem scanBack_ends {lo hi l : ℤ} (h : Readable t lo hi) (hl : lo ≤ l) {k : ℕ} (hk : l + k ≤ hi + 1) :
    ∃ m, scanBack t type l k = .ok m := by
  induction k with
  | zero => exact ⟨_, rfl⟩
  | succ k ih =>
    obtain ⟨e, he⟩ := h.stabAt (i := l + k) (by omega) (by push_cast at hk; omega)
    obtain ⟨m, hm⟩ := ih (by push_cast at hk; omega)
    rw [scanBack_succ]
    by_cases htype : e.nType = type
    · exact ⟨l + k, Prog.except_bind_ok.2 ⟨e, he, if_pos htype⟩⟩
    · exact ⟨m, Prog.except_bind_ok.2 ⟨e, he, (if_neg htype).trans hm⟩⟩

/-- m is the last entry of the type in the lower half -/
structure Probe (t : List Stab) (type : Byte) (s : Search) (m : ℤ) (v : Word) : Prop where
  low : s.l ≤ m
  high : m ≤ s.mid
  has : Has t type m v
  rest : ∀ i w, m < i → i ≤ s.mid → ¬ Has t type i w

/-- what a round can do -/
inductive Stepped (t : List Stab) (type : Byte) (s : Search) : Search → Prop
  | none (h : ∀ i v, s.l ≤ i → i ≤ s.mid → ¬ Has t type i v) : Stepped t type s { s with l := s.mid + 1 }
  | below {m : ℤ} {v : Word} (h : Probe t type s m v) (hv : v < s.addr) :
      Stepped t type s { s with anyMatches := true, left := m, l := s.mid + 1 }
  | above {m : ℤ} {v : Word} (h : Probe t type s m v) (hv : s.addr < v) :
      Stepped t type s { s with anyMatches := true, right := m - 1, r := m - 1 }
  | exact {m : ℤ} (h : Probe t type s m s.addr) :
      Stepped t type s { s with anyMatches := true, left := m, l := m, addr := s.addr + 1#32, hits := s.hits + 1 }

theorem mid_bounds (h0 : 0 ≤ s.l) (hle : s.l ≤ s.r) : s.l ≤ s.mid ∧ s.mid ≤ s.r := by
  rw [Search.mid, Int.tdiv_eq_ediv_of_nonneg (by omega)]
  omega

theorem searchStep_ok (h0 : 0 ≤ s.l) (hle : s.l ≤ s.r) (h : searchStep t type s = .ok s') : Stepped t type s s' := by
  obtain ⟨hlow, -⟩ := mid_bounds h0 hle
  obtain ⟨m, hm, h1⟩ := Prog.except_bind_ok.1 h
  obtain ⟨hlt, hnone, hcase⟩ := scanBack_ok hm
  have hk : s.l + ((s.mid - s.l + 1).toNat : ℤ) = s.mid + 1 := by omega
  rw [hk] at hlt hnone
  by_cases hml : m < s.l
  · rw [if_pos hml] at h1
    obtain rfl := Except.ok.inj h1
    exact Stepped.none fun i v hi hmid => hnone i v (by omega) hi (by omega)
  · rw [if_neg hml] at h1
    obtain ⟨hge, e, he, htype⟩ := hcase.resolve_left (by omega)
    have hprobe : Probe t type s m e.nValue :=
      ⟨hge, by omega, ⟨e, he, htype, rfl⟩, fun i w hi hmid => hnone i w hi (by omega) (by omega)⟩
    obtain ⟨e', he', h2⟩ := Prog.except_bind_ok.1 h1
    rw [he] at he'
    obtain rfl := Except.ok.inj he'
    by_cases hbelow : e.nValue < s.addr
    · rw [if_pos hbelow] at h2
      obtain rfl := Except.ok.inj h2
      exact Stepped.below hprobe hbelow
    · rw [if_neg hbelow] at h2
      by_cases habove : s.addr < e.nValue
      · rw [if_pos habove] at h2
        obtain rfl := Except.ok.inj h2
        exact Stepped.above hprobe habove
      · rw [if_neg habove] at h2
        obtain rfl := Except.ok.inj h2
        have heq : e.nValue = s.addr := BitVec.le_antisymm (BitVec.not_lt.1 habove) (BitVec.not_lt.1 hbelow)
        exact Stepped.exact (heq ▸ hprobe)

theorem searchStep_ends {lo hi : ℤ} (h : Readable t lo hi) (hlo : lo ≤ s.l) (hle : s.l ≤ s.r) (hhi : s.r ≤ hi) :
    ∃ s', searchStep t type s = .ok s' := by
  obtain ⟨hlow, hhigh⟩ := mid_bounds (le_trans h.1 hlo) hle
  obtain ⟨m, hm⟩ : ∃ m, scanBack t type s.l (s.mid - s.l + 1).toNat = .ok m := scanBack_ends h hlo (by omega)
  obtain ⟨hlt, -, hcase⟩ := scanBack_ok hm
  by_cases hml : m < s.l
  · exact ⟨_, Prog.except_bind_ok.2 ⟨m, hm, if_pos hml⟩⟩
  · obtain ⟨e, he⟩ := h.stabAt (i := m) (by omega) (by omega)
    have hrest : ∀ {x : Except Stop Search}, (if e.nValue < s.addr then
        (.ok { s with anyMatches := true, left := m, l := s.mid + 1 } : Except Stop Search)
        else if s.addr < e.nValue then .ok { s with anyMatches := true, right := m - 1, r := m - 1 }
        else .ok { s with anyMatches := true, left := m, l := m, addr := s.addr + 1#32, hits := s.hits + 1 }) = x →
        ∃ s', x = .ok s' := by
      rintro x rfl
      split_ifs <;> exact ⟨_, rfl⟩
    obtain ⟨s', hs'⟩ := hrest rfl
    exact ⟨s', Prog.except_bind_ok.2 ⟨m, hm, (if_neg hml).trans (Prog.except_bind_ok.2 ⟨e, he, hs'⟩)⟩⟩

/-! ## The loop -/

theorem searchLoop_rounds {n k : ℕ} (hnk : n ≤ k) (h : searchLoop t type n s = .ok s') :
    searchLoop t type k s = .ok s' := by
  induction n generalizing k s with
  | zero => cases h
  | succ n ih =>
    obtain ⟨k, rfl⟩ : ∃ j, k = j + 1 := ⟨k - 1, by omega⟩
    rw [searchLoop_succ] at h ⊢
    split_ifs at h ⊢
    · obtain ⟨u, hu, h1⟩ := Prog.except_bind_ok.1 h
      exact Prog.except_bind_ok.2 ⟨u, hu, ih (Nat.le_of_succ_le_succ hnk) h1⟩
    · exact h

/-- what every round keeps, a run keeps -/
theorem searchLoop_inv {I : Search → Prop} (hpos : ∀ s, I s → 0 ≤ s.l)
    (hstep : ∀ s s', I s → s.l ≤ s.r → Stepped t type s s' → I s') (fuel : ℕ) (hs : I s)
    (h : searchLoop t type fuel s = .ok s') : I s' ∧ s'.r < s'.l := by
  induction fuel generalizing s with
  | zero => cases h
  | succ fuel ih =>
    rw [searchLoop_succ] at h
    split_ifs at h with hle
    · obtain ⟨u, hu, h1⟩ := Prog.except_bind_ok.1 h
      exact ih (hstep s u hs hle (searchStep_ok (hpos s hs) hle hu)) h1
    · obtain rfl := Except.ok.inj h
      exact ⟨hs, not_le.1 hle⟩

/-- the range searched stays inside the first one and, but for an exact match at its left end, gets smaller -/
theorem Stepped.range (h : Stepped t type s s') (h0 : 0 ≤ s.l) (hle : s.l ≤ s.r) : s.l ≤ s'.l ∧ s'.r ≤ s.r ∧
    (s.l < s'.l ∨ s'.r < s.r ∨
      Has t type s.l s.addr ∧ s'.l = s.l ∧ s'.r = s.r ∧ s'.addr = s.addr + 1#32) := by
  obtain ⟨hlow, hhigh⟩ := mid_bounds h0 hle
  cases h with
  | none h => exact ⟨by simp only; omega, le_refl _, Or.inl (by simp only; omega)⟩
  | below h hv => exact ⟨by simp only; omega, le_refl _, Or.inl (by simp only; omega)⟩
  | above h hv =>
    have := h.high
    exact ⟨le_refl _, by simp only; omega, Or.inr (Or.inl (by simp only; omega))⟩
  | @exact m h =>
    refine ⟨h.low, le_refl _, ?_⟩
    rcases lt_or_eq_of_le h.low with hlt | heq
    · exact Or.inl hlt
    · exact Or.inr (Or.inr ⟨heq ▸ h.has, heq.symm, rfl, rfl⟩)

theorem succ_ne (w : Word) : w + 1#32 ≠ w := fun h => by
  have hnat := congrArg BitVec.toNat h
  rw [BitVec.toNat_add] at hnat
  have := w.isLt
  simp at hnat
  omega

/-- **The loop ends on every table.** Two rounds make the range smaller: an exact match at its left end is none the next
time, because the address has been incremented. -/
theorem searchLoop_ends {lo hi : ℤ} (h : Readable t lo hi) (k : ℕ) (hlo : lo ≤ s.l) (hhi : s.r ≤ hi)
    (hk : (s.r - s.l + 1).toNat ≤ k) : ∃ s', searchLoop t type (2 * k + 1) s = .ok s' := by
  induction k generalizing s with
  | zero => exact ⟨s, by rw [searchLoop_succ, if_neg (by omega)]⟩
  | succ k ih =>
    by_cases hle : s.l ≤ s.r
    · have h0 : 0 ≤ s.l := le_trans h.1 hlo
      obtain ⟨u, hu⟩ : ∃ u, searchStep t type s = .ok u := searchStep_ends h hlo hle hhi
      obtain ⟨hul, hur, hcase⟩ := (searchStep_ok h0 hle hu).range h0 hle
      have hsmaller : s.l < u.l ∨ u.r < s.r → ∃ s', searchLoop t type (2 * (k + 1) + 1) s = .ok s' := fun hlt => by
        obtain ⟨s', hs'⟩ := ih (s := u) (le_trans hlo hul) (le_trans hur hhi) (by omega)
        refine ⟨s', ?_⟩
        rw [searchLoop_succ, if_pos hle]
        exact Prog.except_bind_ok.2 ⟨u, hu, searchLoop_rounds (by omega) hs'⟩
      rcases hcase with hlt | hlt | ⟨hhas, hl, hr, haddr⟩
      · exact hsmaller (Or.inl hlt)
      · exact hsmaller (Or.inr hlt)
      · -- the same range, but its left end is no exact match any more
        obtain ⟨v, hv⟩ : ∃ v, searchStep t type u = .ok v :=
          searchStep_ends h (le_trans hlo hul) (by omega) (le_trans hur hhi)
        have hu0 : 0 ≤ u.l := le_trans h0 hul
        obtain ⟨hvl, hvr, hcase'⟩ := (searchStep_ok hu0 (by omega) hv).range hu0 (by omega)
        have hlt : u.l < v.l ∨ v.r < u.r := by
          rcases hcase' with h1 | h1 | ⟨hhas', -⟩
          · exact Or.inl h1
          · exact Or.inr h1
          · rw [hl, haddr] at hhas'
            exact absurd (hhas'.unique hhas) (succ_ne _)
        obtain ⟨s', hs'⟩ := ih (s := v) (by omega) (by omega) (by omega)
        refine ⟨s', ?_⟩
        rw [searchLoop_succ, if_pos hle]
        refine Prog.except_bind_ok.2 ⟨u, hu, ?_⟩
        rw [show 2 * (k + 1) = 2 * k + 1 + 1 by omega, searchLoop_succ, if_pos (by omega)]
        exact Prog.except_bind_ok.2 ⟨v, hv, hs'⟩
    · exact ⟨s, by rw [searchLoop_succ, if_neg hle]⟩

/-! ## The bracket -/

/-- the entries of the type in the range are in the order of their values -/
def Sorted (t : List Stab) (type : Byte) (lo hi : ℤ) : Prop :=
  ∀ i j v w, lo ≤ i → i ≤ j → j ≤ hi → Has t type i v → Has t type j w → v ≤ w

/-- the address was incremented at most once, and not past the last one -/
def OneHit (a : Word) (s : Search) : Prop := s.hits ≤ 1 ∧ (s.hits = 1 → a ≠ ~~~0#32)

/-- what is left of l is below the address, what is right of r is above it -/
structure Bracket (t : List Stab) (type : Byte) (lo hi : ℤ) (a : Word) (s : Search) : Prop where
  low : lo ≤ s.l
  high : s.r ≤ hi
  right : s.right = s.r
  addr : s.addr.toNat = a.toNat + s.hits
  below : ∀ i v, lo ≤ i → i < s.l → Has t type i v → v < s.addr
  above : ∀ i v, s.r < i → i ≤ hi → Has t type i v → a < v
  next : s.r = hi ∨ s.r < hi ∧ ∃ v, Has t type (s.r + 1) v
  left : s.left = lo ∧ (∀ i v, lo ≤ i → i < s.l → ¬ Has t type i v) ∨
    lo ≤ s.left ∧ s.left ≤ hi ∧ ∃ v, Has t type s.left v ∧ v < s.addr
  found : s.anyMatches = false → ∀ i v, lo ≤ i → i < s.l → ¬ Has t type i v

variable {lo hi : ℤ} {a : Word}

theorem bracket_start : Bracket t type lo hi a (searchStart lo hi a) where
  low := le_refl _
  high := le_refl _
  right := rfl
  addr := rfl
  below _ _ h1 h2 := absurd h1 (not_le.2 h2)
  above _ _ h1 h2 := absurd h1 (not_lt.2 h2)
  next := Or.inl rfl
  left := Or.inl ⟨rfl, fun _ _ h1 h2 => absurd h1 (not_le.2 h2)⟩
  found _ _ _ h1 h2 := absurd h1 (not_le.2 h2)

theorem Stepped.oneHit (h : Stepped t type s s') (h1 : OneHit a s') : OneHit a s := by
  cases h with
  | none h => exact h1
  | below h hv => exact h1
  | above h hv => exact h1
  | exact h =>
    obtain ⟨hle, -⟩ := h1
    have h0 : s.hits = 0 := by
      simp only at hle
      omega
    exact ⟨by omega, fun hone => by omega⟩

/-- **One round keeps the bracket**, in each of its four cases. -/
theorem bracket_step (hsort : Sorted t type lo hi) (hb : Bracket t type lo hi a s) (h0 : 0 ≤ lo) (hle : s.l ≤ s.r)
    (h : Stepped t type s s') (h1 : OneHit a s') : Bracket t type lo hi a s' := by
  obtain ⟨hlo, hhi, hright, haddr, hbelow, habove, hnext, hleft, hfound⟩ := hb
  obtain ⟨hlow, hhigh⟩ := mid_bounds (le_trans h0 hlo) hle
  have hge : a ≤ s.addr := by
    rw [BitVec.le_def, haddr]
    omega
  cases h with
  | none hnone =>
    have hnew : ∀ i v, i < s.mid + 1 → ¬ i < s.l → ¬ Has t type i v := fun i v hi hl =>
      hnone i v (not_lt.1 hl) (Int.lt_add_one_iff.1 hi)
    refine ⟨by simp only; omega, hhi, hright, haddr, ?_, habove, hnext, ?_, ?_⟩
    · intro i v hl hi hhas
      by_cases hi' : i < s.l
      · exact hbelow i v hl hi' hhas
      · exact absurd hhas (hnew i v hi hi')
    · rcases hleft with ⟨hleft, hnot⟩ | hleft
      · refine Or.inl ⟨hleft, fun i v hl hi => ?_⟩
        by_cases hi' : i < s.l
        · exact hnot i v hl hi'
        · exact hnew i v hi hi'
      · exact Or.inr hleft
    · intro hany i v hl hi
      by_cases hi' : i < s.l
      · exact hfound hany i v hl hi'
      · exact hnew i v hi hi'
  | @below m v hprobe hv =>
    have hml := hprobe.low
    have hmh := hprobe.high
    refine ⟨by simp only; omega, hhi, hright, haddr, ?_, habove, hnext, ?_, fun hany => by cases hany⟩
    · intro i w hl hi hhas
      by_cases him : i ≤ m
      · exact Nat.lt_of_le_of_lt (hsort i m w v hl him (by omega) hhas hprobe.has) hv
      · exact absurd hhas (hprobe.rest i w (not_le.1 him) (by simp only at hi; omega))
    · exact Or.inr ⟨le_trans hlo hml, by simp only; omega, v, hprobe.has, hv⟩
  | @above m v hprobe hv =>
    have hml := hprobe.low
    have hmh := hprobe.high
    refine ⟨hlo, by simp only; omega, rfl, haddr, hbelow, ?_, ?_, hleft, fun hany => by cases hany⟩
    · intro i w hr hi hhas
      have him : m ≤ i := by simp only at hr; omega
      exact Nat.lt_of_lt_of_le (Nat.lt_of_le_of_lt hge hv) (hsort m i v w (le_trans hlo hml) him hi hprobe.has hhas)
    · refine Or.inr ⟨by simp only; omega, v, ?_⟩
      simp only [sub_add_cancel]
      exact hprobe.has
  | @exact m hprobe =>
    have hml := hprobe.low
    have hmh := hprobe.high
    obtain ⟨hle1, hmax⟩ := h1
    have hhits : s.hits = 0 := by
      simp only at hle1
      omega
    have hsame : s.addr = a := by
      apply BitVec.eq_of_toNat_eq
      rw [haddr, hhits, Nat.add_zero]
    have hsucc : (s.addr + 1#32).toNat = s.addr.toNat + 1 := toNat_succ (hsame ▸ hmax (by simp only; omega))
    have hlt : s.addr < s.addr + 1#32 := by
      rw [BitVec.lt_def, hsucc]
      exact Nat.lt_succ_self _
    refine ⟨le_trans hlo hml, hhi, hright, by simp only; omega, ?_, habove, hnext, ?_,
      fun hany => by cases hany⟩
    · intro i w hl hi hhas
      exact Nat.lt_of_le_of_lt (hsort i m w _ hl (le_of_lt hi) (by omega) hhas hprobe.has) hlt
    · exact Or.inr ⟨le_trans hlo hml, by simp only; omega, _, hprobe.has, hlt⟩

/-- **A run keeps the bracket.** -/
theorem bracket_run (hsort : Sorted t type lo hi) (h0 : 0 ≤ lo) {fuel : ℕ}
    (h : searchLoop t type fuel (searchStart lo hi a) = .ok s) (h1 : OneHit a s) :
    Bracket t type lo hi a s ∧ s.r < s.l := by
  have hinv := searchLoop_inv (I := fun s => lo ≤ s.l ∧ (OneHit a s → Bracket t type lo hi a s))
    (fun s hs => le_trans h0 hs.1)
    (fun s s' hs hle hstep => ⟨le_trans hs.1 (hstep.range (le_trans h0 hs.1) hle).1, fun h1' =>
      bracket_step hsort (hs.2 (hstep.oneHit h1')) h0 hle hstep h1'⟩)
    fuel ⟨le_refl _, fun _ => bracket_start⟩ h
  exact ⟨hinv.1.2 h1, hinv.2⟩

/-! ## The result -/

/-- entry i is the last of the type in the range that is not above a -/
structure LastUpTo (t : List Stab) (type : Byte) (lo hi : ℤ) (a : Word) (i : ℤ) : Prop where
  low : lo ≤ i
  high : i ≤ hi
  has : ∃ v, Has t type i v ∧ v ≤ a
  rest : ∀ j v, i < j → j ≤ hi → Has t type j v → a < v

/-- r is the last entry before the next one of the type after i, or the end of the range -/
structure RegionEnd (t : List Stab) (type : Byte) (hi i r : ℤ) : Prop where
  low : i ≤ r
  high : r ≤ hi
  none : ∀ j v, i < j → j ≤ r → ¬ Has t type j v
  next : r = hi ∨ r < hi ∧ ∃ v, Has t type (r + 1) v

/-- the search takes the branch for an exact match at most once, and not at the last address -/
def ExactOnce (t : List Stab) (type : Byte) (lo hi : ℤ) (a : Word) : Prop :=
  ∃ fuel s, searchLoop t type fuel (searchStart lo hi a) = .ok s ∧ OneHit a s

theorem LastUpTo.unique {i j : ℤ} (h1 : LastUpTo t type lo hi a i) (h2 : LastUpTo t type lo hi a j) : i = j := by
  have hle : ∀ {i j : ℤ}, LastUpTo t type lo hi a i → LastUpTo t type lo hi a j → i ≤ j := fun {i j} h1 h2 => by
    by_contra hlt
    obtain ⟨v, hv, hva⟩ := h1.has
    exact absurd hva (BitVec.not_le.2 (h2.rest i v (not_le.1 hlt) h1.high hv))
  exact le_antisymm (hle h1 h2) (hle h2 h1)

theorem RegionEnd.unique {i r q : ℤ} (h1 : RegionEnd t type hi i r) (h2 : RegionEnd t type hi i q) : r = q := by
  have hle : ∀ {r q : ℤ}, RegionEnd t type hi i r → RegionEnd t type hi i q → r ≤ q := fun {r q} h1 h2 => by
    by_contra hlt
    rcases h2.next with heq | ⟨-, v, hv⟩
    · have := h1.high
      omega
    · have := h2.low
      exact h1.none (q + 1) v (by omega) (by omega) hv
  exact le_antisymm (hle h1 h2) (hle h2 h1)

theorem exists_lastUpTo (h : ∃ i v, lo ≤ i ∧ i ≤ hi ∧ Has t type i v ∧ v ≤ a) : ∃ i, LastUpTo t type lo hi a i := by
  obtain ⟨i, ⟨h1, h2, hv⟩, hmax⟩ := Int.exists_greatest_of_bdd
    (P := fun i => lo ≤ i ∧ i ≤ hi ∧ ∃ v, Has t type i v ∧ v ≤ a) ⟨hi, fun i hi => hi.2.1⟩
    (by obtain ⟨i, v, h1, h2, hv⟩ := h; exact ⟨i, h1, h2, v, hv⟩)
  refine ⟨i, h1, h2, hv, fun j w hij hj hw => ?_⟩
  by_contra hle
  have := hmax j ⟨by omega, hj, w, hw, BitVec.not_lt.1 hle⟩
  omega

theorem exists_regionEnd {i : ℤ} (hi' : i ≤ hi) : ∃ r, RegionEnd t type hi i r := by
  by_cases h : ∃ j, i < j ∧ j ≤ hi ∧ ∃ v, Has t type j v
  · obtain ⟨j, ⟨h1, h2, hv⟩, hmin⟩ := Int.exists_least_of_bdd
      (P := fun j => i < j ∧ j ≤ hi ∧ ∃ v, Has t type j v) ⟨i, fun j hj => le_of_lt hj.1⟩ h
    refine ⟨j - 1, by omega, by omega, ?_, Or.inr ⟨by omega, ?_⟩⟩
    · intro k v hk hkj hkv
      have := hmin k ⟨hk, by omega, v, hkv⟩
      omega
    · rw [sub_add_cancel]
      exact hv
  · exact ⟨hi, hi', le_refl _, fun j v hj hjh hv => h ⟨j, hj, hjh, v, hv⟩, Or.inl rfl⟩

/-- the fix-up loop goes back to the last entry of the type -/
theorem fixup_run {left i : ℤ} {k : ℕ} (h : Readable t lo hi) (hlo : lo ≤ left) (hk : left + k ≤ hi) (hli : left ≤ i)
    (hik : i ≤ left + k) (hhas : ∃ v, Has t type i v) (hnone : ∀ j v, i < j → j ≤ left + k → ¬ Has t type j v) :
    fixup t type left k = .ok i := by
  induction k with
  | zero =>
    obtain rfl : left = i := by simp at hik; omega
    rfl
  | succ k ih =>
    push_cast at hk hik hnone
    obtain ⟨e, he⟩ := h.stabAt (i := left + (k + 1)) (by omega) (by omega)
    rw [fixup_succ]
    by_cases htype : e.nType = type
    · have heq : i = left + (k + 1) := by
        by_contra hne
        exact hnone _ e.nValue (by omega) (le_refl _) ⟨e, he, htype, rfl⟩
      exact Prog.except_bind_ok.2 ⟨e, he, (if_pos htype).trans (by rw [heq])⟩
    · have hne : i ≠ left + (k + 1) := by
        rintro rfl
        obtain ⟨v, hv⟩ := hhas
        exact not_has he htype v hv
      refine Prog.except_bind_ok.2 ⟨e, he, (if_neg htype).trans (ih (by omega) (by omega) fun j v hj hjk => ?_)⟩
      exact hnone j v hj (by omega)

/-- rounds that are enough for a search in the range -/
def searchRounds (lo hi : ℤ) : ℕ := 2 * (hi - lo + 1).toNat + 1

/-- with that many rounds the loop gives what it gives with any number of them -/
theorem searchLoop_result (hr : Readable t lo hi) {n fuel : ℕ} (hf : searchRounds lo hi ≤ fuel)
    (h : searchLoop t type n (searchStart lo hi a) = .ok s) : searchLoop t type fuel (searchStart lo hi a) = .ok s := by
  obtain ⟨s', hs'⟩ : ∃ s', searchLoop t type (searchRounds lo hi) (searchStart lo hi a) = .ok s' :=
    searchLoop_ends hr (hi - lo + 1).toNat (le_refl _) (le_refl _) (le_refl _)
  have e1 := searchLoop_rounds (le_max_left n (searchRounds lo hi)) h
  have e2 := searchLoop_rounds (le_max_right n (searchRounds lo hi)) hs'
  rw [e1] at e2
  obtain rfl := Except.ok.inj e2
  exact searchLoop_rounds hf hs'

/-- **The containing entry.** Where the exact match is taken at most once, the result is the last entry of the type that is
not above the address, and the end of its region. -/
theorem stabBinsearch_last (hr : Readable t lo hi) (hsort : Sorted t type lo hi) (h1 : ExactOnce t type lo hi a) {i r : ℤ}
    (hi' : LastUpTo t type lo hi a i) (hr' : RegionEnd t type hi i r) {fuel : ℕ} (hf : searchRounds lo hi ≤ fuel) :
    stabBinsearch fuel t type lo hi a = .ok (i, r) := by
  obtain ⟨n, s', hs, hone⟩ := h1
  obtain ⟨hb, hend⟩ := bracket_run hsort hr.1 hs hone
  obtain ⟨v, hv, hva⟩ := hi'.has
  have hupto : ∀ j w, lo ≤ j → j < s'.l → Has t type j w → w ≤ a := fun j w hl hj hw => by
    have hlt : w.toNat < s'.addr.toNat := hb.below j w hl hj hw
    rw [hb.addr] at hlt
    have := hone.1
    rw [BitVec.le_def]
    omega
  have hir : i ≤ s'.r := by
    by_contra hlt
    exact absurd hva (BitVec.not_le.2 (hb.above i v (not_le.1 hlt) hi'.high hv))
  have hnone : ∀ j w, i < j → j ≤ s'.r → ¬ Has t type j w := fun j w hij hjr hw => by
    have := hi'.low
    have hgt := hi'.rest j w hij (le_trans hjr hb.high) hw
    exact absurd (hupto j w (by omega) (by omega) hw) (BitVec.not_le.2 hgt)
  have hreg : RegionEnd t type hi i s'.r := ⟨hir, hb.high, hnone, hb.next⟩
  have hfound : s'.anyMatches = true := by
    rw [← Bool.not_eq_false]
    exact fun hany => hb.found hany i v hi'.low (by omega) hv
  obtain ⟨hleft, hlefthi, w, hw, hwlt⟩ := hb.left.resolve_left fun hnot => hnot.2 i v hi'.low (by omega) hv
  have hwa : w ≤ a := by
    have hlt : w.toNat < s'.addr.toNat := hwlt
    rw [hb.addr] at hlt
    have := hone.1
    rw [BitVec.le_def]
    omega
  have hli : s'.left ≤ i := by
    by_contra hlt
    exact absurd hwa (BitVec.not_le.2 (hi'.rest _ w (not_le.1 hlt) hlefthi hw))
  have hsettle : settle t type s' = .ok (i, s'.r) := by
    rw [settle_eq, hfound, hb.right, Bool.not_true, if_neg Bool.false_ne_true]
    by_cases hle : s'.r ≤ s'.left
    · rw [if_pos hle, le_antisymm hir (le_trans hle hli)]
    · have hk : s'.left + ((s'.r - s'.left).toNat : ℤ) = s'.r := by omega
      have hfix : fixup t type s'.left (s'.r - s'.left).toNat = .ok i :=
        fixup_run hr hleft (by rw [hk]; exact hb.high) hli (by rw [hk]; exact hir) ⟨v, hv⟩ (by rw [hk]; exact hnone)
      rw [if_neg hle, hfix]
      rfl
  rw [stabBinsearch_eq, searchLoop_result hr hf hs, ← hreg.unique hr']
  exact hsettle

/-! ## A second exact match -/

/-- after an exact match the entry at region_left is just below the address, which is as far above a as there were exact
matches -/
structure Climb (t : List Stab) (type : Byte) (lo hi : ℤ) (a : Word) (s : Search) : Prop where
  high : s.r ≤ hi
  right : s.right = s.r
  addr : s.addr.toNat = a.toNat + s.hits
  left : 1 ≤ s.hits → s.anyMatches = true ∧ lo ≤ s.left ∧ s.left ≤ s.l ∧ s.left ≤ s.r ∧
    ∃ v, Has t type s.left v ∧ v.toNat + 1 = a.toNat + s.hits

theorem climb_step (hsort : Sorted t type lo hi) (hc : Climb t type lo hi a s) (h0 : 0 ≤ lo) (hlo : lo ≤ s.l)
    (hle : s.l ≤ s.r) (h : Stepped t type s s') (hwrap : a.toNat + s'.hits < 2 ^ 32) : Climb t type lo hi a s' := by
  obtain ⟨hhi, hright, haddr, hleft⟩ := hc
  obtain ⟨hlow, hhigh⟩ := mid_bounds (le_trans h0 hlo) hle
  cases h with
  | none hnone =>
    refine ⟨hhi, hright, haddr, fun h1 => ?_⟩
    obtain ⟨hany, h2, h3, h4, hv⟩ := hleft h1
    exact ⟨hany, h2, by simp only; omega, h4, hv⟩
  | @below m v hprobe hv =>
    have hml := hprobe.low
    have hmh := hprobe.high
    refine ⟨hhi, hright, haddr, fun h1 => ?_⟩
    obtain ⟨-, h2, h3, h4, w, hw, hwa⟩ := hleft h1
    have hwv : w.toNat ≤ v.toNat := hsort s.left m w v h2 (by omega) (by omega) hw hprobe.has
    have hvlt : v.toNat < s.addr.toNat := hv
    exact ⟨rfl, by simp only; omega, by simp only; omega, by simp only; omega, v, hprobe.has, by simp only; omega⟩
  | @above m v hprobe hv =>
    have hml := hprobe.low
    have hmh := hprobe.high
    refine ⟨by simp only; omega, rfl, haddr, fun h1 => ?_⟩
    obtain ⟨-, h2, h3, h4, w, hw, hwa⟩ := hleft h1
    have hvgt : s.addr.toNat < v.toNat := hv
    -- the entry just below the address is not the one above it
    have hne : s.left ≠ m := fun heq => by
      have := congrArg BitVec.toNat (hw.unique (heq ▸ hprobe.has))
      omega
    exact ⟨rfl, h2, h3, by simp only; omega, w, hw, hwa⟩
  | @exact m hprobe =>
    have hml := hprobe.low
    have hmh := hprobe.high
    simp only at hwrap
    have hlt : s.addr.toNat + 1 < 2 ^ 32 := by omega
    have hsucc : (s.addr + 1#32).toNat = a.toNat + (s.hits + 1) := by
      rw [← Nat.add_assoc, ← haddr]
      exact BitVec.toNat_add_of_lt hlt
    refine ⟨hhi, hright, hsucc, fun _ => ⟨rfl, by simp only; omega, le_refl _, by simp only; omega, s.addr, hprobe.has, ?_⟩⟩
    rw [haddr, Nat.add_assoc]

theorem Stepped.hits_le (h : Stepped t type s s') : s.hits ≤ s'.hits := by
  cases h with
  | exact h => exact Nat.le_succ _
  | none h => exact le_refl _
  | below h hv => exact le_refl _
  | above h hv => exact le_refl _

theorem fixup_ok {left i : ℤ} {k : ℕ} (h : fixup t type left k = .ok i) :
    left ≤ i ∧ i ≤ left + k ∧ (i = left ∨ ∃ v, Has t type i v) := by
  induction k with
  | zero =>
    obtain rfl := Except.ok.inj h
    exact ⟨le_refl _, by simp, Or.inl rfl⟩
  | succ k ih =>
    rw [fixup_succ] at h
    obtain ⟨e, he, h1⟩ := Prog.except_bind_ok.1 h
    by_cases htype : e.nType = type
    · rw [if_pos htype] at h1
      obtain rfl : left + (k + 1) = i := Except.ok.inj h1
      exact ⟨by omega, by push_cast; omega, Or.inr ⟨e.nValue, e, he, htype, rfl⟩⟩
    · rw [if_neg htype] at h1
      obtain ⟨h2, h3, h4⟩ := ih h1
      exact ⟨h2, by push_cast; omega, h4⟩

theorem fixup_rest {left i : ℤ} {k : ℕ} (h : fixup t type left k = .ok i) {j : ℤ} (hj : i < j) (hjk : j ≤ left + k)
    (v : Word) : ¬ Has t type j v := by
  induction k with
  | zero =>
    obtain rfl := Except.ok.inj h
    exact absurd hjk (by simp only [Nat.cast_zero, add_zero]; omega)
  | succ k ih =>
    rw [fixup_succ] at h
    push_cast at hjk
    obtain ⟨e, he, h1⟩ := Prog.except_bind_ok.1 h
    by_cases htype : e.nType = type
    · rw [if_pos htype] at h1
      obtain rfl : left + (k + 1) = i := Except.ok.inj h1
      omega
    · rw [if_neg htype] at h1
      by_cases hlast : j = left + (k + 1)
      · rw [hlast]
        exact not_has he htype v
      · exact ih h1 (by omega)

theorem fixup_ends {left : ℤ} {k : ℕ} (h : Readable t lo hi) (hlo : lo ≤ left) (hk : left + k ≤ hi) :
    ∃ i, fixup t type left k = .ok i := by
  induction k with
  | zero => exact ⟨left, rfl⟩
  | succ k ih =>
    push_cast at hk
    obtain ⟨e, he⟩ := h.stabAt (i := left + (k + 1)) (by omega) (by omega)
    obtain ⟨i, hi'⟩ := ih (by omega)
    rw [fixup_succ]
    by_cases htype : e.nType = type
    · exact ⟨left + (k + 1), Prog.except_bind_ok.2 ⟨e, he, if_pos htype⟩⟩
    · exact ⟨i, Prog.except_bind_ok.2 ⟨e, he, (if_neg htype).trans hi'⟩⟩

/-- the search takes its branch for an exact match more than once -/
def ExactTwice (t : List Stab) (type : Byte) (lo hi : ℤ) (a : Word) : Prop :=
  ∃ n s, searchLoop t type n (searchStart lo hi a) = .ok s ∧ 2 ≤ s.hits ∧ a.toNat + s.hits < 2 ^ 32

/-- **A second exact match goes too far.** The result is an entry of the type above the address, up to the next one. -/
theorem stabBinsearch_above (hr : Readable t lo hi) (hsort : Sorted t type lo hi) (h : ExactTwice t type lo hi a)
    {fuel : ℕ} (hf : searchRounds lo hi ≤ fuel) :
    ∃ i r v, stabBinsearch fuel t type lo hi a = .ok (i, r) ∧ lo ≤ i ∧ i ≤ r ∧ r ≤ hi ∧ Has t type i v ∧ a < v ∧
      ∀ j w, i < j → j ≤ r → ¬ Has t type j w := by
  obtain ⟨n, s, hs, h2, hwrap⟩ := h
  have hinv := searchLoop_inv (I := fun s => lo ≤ s.l ∧ (a.toNat + s.hits < 2 ^ 32 → Climb t type lo hi a s))
    (fun s hs => le_trans hr.1 hs.1)
    (fun s s' hs hle hstep => ⟨le_trans hs.1 (hstep.range (le_trans hr.1 hs.1) hle).1, fun hw =>
      climb_step hsort (hs.2 (by have := hstep.hits_le; omega)) hr.1 hs.1 hle hstep hw⟩)
    n ⟨le_refl _, fun _ => ⟨le_refl _, rfl, rfl, fun h => absurd h (Nat.not_succ_le_zero 0)⟩⟩ hs
  obtain ⟨hhi, hright, haddr, hleft⟩ := hinv.1.2 hwrap
  obtain ⟨hany, h3, h4, h5, v, hv, hva⟩ := hleft (by omega)
  rw [stabBinsearch_eq, searchLoop_result hr hf hs]
  have hk : s.left + ((s.r - s.left).toNat : ℤ) = s.r := by omega
  obtain ⟨i, hi'⟩ : ∃ i, fixup t type s.left (s.r - s.left).toNat = .ok i := fixup_ends hr h3 (by omega)
  obtain ⟨h6, h7, hcase⟩ := fixup_ok hi'
  rw [hk] at h7
  have hsettle : settle t type s = .ok (i, s.r) := by
    rw [settle_eq, hany, hright, Bool.not_true, if_neg Bool.false_ne_true]
    by_cases hle : s.r ≤ s.left
    · rw [if_pos hle]
      rw [show s.r = s.left by omega] at h7 ⊢
      rw [le_antisymm h7 h6]
    · rw [if_neg hle, hi']
      rfl
  obtain ⟨w, hw⟩ : ∃ w, Has t type i w := by
    rcases hcase with rfl | hcase
    · exact ⟨v, hv⟩
    · exact hcase
  have hvw : v.toNat ≤ w.toNat := hsort s.left i v w h3 h6 (le_trans h7 hhi) hv hw
  refine ⟨i, s.r, w, hsettle, le_trans h3 h6, h7, hhi, hw, ?_, fun j u hj hjr => fixup_rest hi' hj (by rwa [hk]) u⟩
  rw [BitVec.lt_def]
  omega

end Round

end Jos
