/-
Where stab_binsearch finds what its comment says, on every sorted range.

Bisection for an address goes from range to range (`Halved`) until its probe is an entry at that address (`Meets`). There
stab_binsearch increments the address and goes on, so it meets the entry at the next address as well, if there is one in
the range that is left. Results:
- `course_run`: how often the loop has met an entry, read off the table alone;
- `stabBinsearch_contains`: the search finds the containing entry exactly when no second entry is met, but for one case at
  the end of the address space;
- `stabBinsearch_absent`: where all entries of the type are above the address, it reports absence only if there are none.
-/
import Jos.Kdebug.Search
import Mathlib.Logic.Relation

namespace Jos

open Jos.Lib

/-! ## Bisection -/

/-- `(l + r) / 2` -/
def middle (p : ℤ × ℤ) : ℤ := (p.1 + p.2).tdiv 2

/-- entry m, with the value v, is the last of the type in the lower half of range p -/
structure Middle (t : List Stab) (type : Byte) (p : ℤ × ℤ) (m : ℤ) (v : Word) : Prop where
  low : p.1 ≤ m
  high : m ≤ middle p
  has : Has t type m v
  rest : ∀ i w, m < i → i ≤ middle p → ¬ Has t type i w

/-- bisection for address a, which probes no entry at a in range p, goes on in range q -/
inductive Halved (t : List Stab) (type : Byte) (a : Word) (p : ℤ × ℤ) : ℤ × ℤ → Prop
  | none (hle : p.1 ≤ p.2) (h : ∀ i v, p.1 ≤ i → i ≤ middle p → ¬ Has t type i v) :
      Halved t type a p (middle p + 1, p.2)
  | below {m : ℤ} {v : Word} (hle : p.1 ≤ p.2) (h : Middle t type p m v) (hv : v < a) :
      Halved t type a p (middle p + 1, p.2)
  | above {m : ℤ} {v : Word} (hle : p.1 ≤ p.2) (h : Middle t type p m v) (hv : a < v) :
      Halved t type a p (p.1, m - 1)

/-- bisection of range r for address a comes to range p and probes entry m there, which is at a -/
structure Meets (t : List Stab) (type : Byte) (a : Word) (r p : ℤ × ℤ) (m : ℤ) : Prop where
  path : Relation.ReflTransGen (Halved t type a) r p
  le : p.1 ≤ p.2
  at_ : Middle t type p m a

section Bisection

variable {t : List Stab} {type : Byte} {a v w : Word} {lo hi m m' : ℤ} {p q r : ℤ × ℤ}

theorem middle_bounds (h0 : 0 ≤ p.1) (hle : p.1 ≤ p.2) : p.1 ≤ middle p ∧ middle p ≤ p.2 := by
  rw [middle, Int.tdiv_eq_ediv_of_nonneg (by omega)]
  omega

theorem Middle.unique (h1 : Middle t type p m v) (h2 : Middle t type p m' w) : m = m' ∧ v = w := by
  have hm : m = m' := by
    rcases lt_trichotomy m m' with hlt | heq | hlt
    · exact absurd h2.has (h1.rest m' w hlt h2.high)
    · exact heq
    · exact absurd h1.has (h2.rest m v hlt h1.high)
  subst hm
  exact ⟨rfl, h1.has.unique h2.has⟩

theorem halved_unique : Relator.RightUnique (Halved t type a) := by
  intro p q q' h1 h2
  cases h1 with
  | none hle hnone =>
    cases h2 with
    | none => rfl
    | below => rfl
    | above _ hm => exact absurd hm.has (hnone _ _ hm.low hm.high)
  | below hle hm hv =>
    cases h2 with
    | none => rfl
    | below => rfl
    | above _ hm' hv' =>
      obtain ⟨-, rfl⟩ := hm.unique hm'
      exact absurd hv' (BitVec.not_lt.2 (BitVec.le_of_lt hv))
  | above hle hm hv =>
    cases h2 with
    | none _ hnone => exact absurd hm.has (hnone _ _ hm.low hm.high)
    | below _ hm' hv' =>
      obtain ⟨-, rfl⟩ := hm.unique hm'
      exact absurd hv' (BitVec.not_lt.2 (BitVec.le_of_lt hv))
    | above _ hm' =>
      obtain ⟨rfl, -⟩ := hm.unique hm'
      rfl

/-- bisection for a ends at an entry at a -/
theorem Middle.not_halved (h : Middle t type p m a) : ¬ Halved t type a p q := by
  intro hq
  cases hq with
  | none _ hnone => exact hnone _ _ h.low h.high h.has
  | below _ hm hv =>
    obtain ⟨-, rfl⟩ := hm.unique h
    exact BitVec.lt_irrefl _ hv
  | above _ hm hv =>
    obtain ⟨-, rfl⟩ := hm.unique h
    exact BitVec.lt_irrefl _ hv

theorem Meets.unique (h1 : Meets t type a r p m) (h2 : Meets t type a r q m') : p = q ∧ m = m' := by
  have hend : ∀ {p q : ℤ × ℤ} {m : ℤ}, Middle t type p m a → Relation.ReflTransGen (Halved t type a) p q → p = q := by
    intro p q m hm hpq
    rcases Relation.ReflTransGen.cases_head hpq with heq | ⟨c, hc, -⟩
    · exact heq
    · exact absurd hc hm.not_halved
  have hpq : p = q := by
    rcases Relation.ReflTransGen.total_of_right_unique halved_unique h1.path h2.path with h | h
    · exact hend h1.at_ h
    · exact (hend h2.at_ h).symm
  subst hpq
  exact ⟨rfl, (h1.at_.unique h2.at_).1⟩

/-- a step stays in its range -/
theorem Halved.range (h : Halved t type a p q) (h0 : 0 ≤ p.1) : p.1 ≤ q.1 ∧ q.2 ≤ p.2 := by
  cases h with
  | none hle hnone =>
    obtain ⟨hm1, hm2⟩ := middle_bounds h0 hle
    exact ⟨by simp only; omega, le_refl _⟩
  | below hle hm hv =>
    obtain ⟨hm1, hm2⟩ := middle_bounds h0 hle
    exact ⟨by simp only; omega, le_refl _⟩
  | above hle hm hv =>
    obtain ⟨hm1, hm2⟩ := middle_bounds h0 hle
    have hmh := hm.high
    exact ⟨le_refl _, by simp only; omega⟩

/-- and keeps the entries at the address -/
theorem Halved.keeps (hsort : Sorted t type lo hi) (h : Halved t type a p q) (h0 : 0 ≤ p.1) (hlo : lo ≤ p.1)
    (hhi : p.2 ≤ hi) {j : ℤ} (hj : p.1 ≤ j) (hj' : j ≤ p.2) (hhas : Has t type j a) : q.1 ≤ j ∧ j ≤ q.2 := by
  cases h with
  | none hle hnone =>
    refine ⟨?_, hj'⟩
    by_contra hlt
    exact hnone j a hj (Int.lt_add_one_iff.1 (not_le.1 hlt)) hhas
  | @below m v hle hm hv =>
    obtain ⟨-, hm2⟩ := middle_bounds h0 hle
    have hmh := hm.high
    refine ⟨?_, hj'⟩
    by_contra hlt
    have hjm : j ≤ m := by
      by_contra hmj
      exact hm.rest j a (not_le.1 hmj) (Int.lt_add_one_iff.1 (not_le.1 hlt)) hhas
    have hle' : a ≤ v := hsort j m a v (le_trans hlo hj) hjm (by omega) hhas hm.has
    exact BitVec.not_lt.2 hle' hv
  | @above m v hle hm hv =>
    have hml := hm.low
    refine ⟨hj, ?_⟩
    by_contra hlt
    have hle' : v ≤ a := hsort m j v a (le_trans hlo hml) (by simp only at hlt; omega) (le_trans hj' hhi) hm.has hhas
    exact BitVec.not_lt.2 hle' hv

theorem path_keeps (hsort : Sorted t type lo hi) (h : Relation.ReflTransGen (Halved t type a) p q) (h0 : 0 ≤ p.1)
    (hlo : lo ≤ p.1) (hhi : p.2 ≤ hi) : p.1 ≤ q.1 ∧ q.2 ≤ p.2 ∧
      ∀ j, p.1 ≤ j → j ≤ p.2 → Has t type j a → q.1 ≤ j ∧ j ≤ q.2 := by
  induction h with
  | refl => exact ⟨le_refl _, le_refl _, fun j hj hj' _ => ⟨hj, hj'⟩⟩
  | tail _ hbc ih =>
    obtain ⟨h1, h2, h3⟩ := ih
    obtain ⟨h4, h5⟩ := hbc.range (le_trans h0 h1)
    refine ⟨le_trans h1 h4, le_trans h5 h2, fun j hj hj' hhas => ?_⟩
    obtain ⟨h6, h7⟩ := h3 j hj hj' hhas
    exact hbc.keeps hsort (le_trans h0 h1) (le_trans hlo h1) (le_trans h2 hhi) h6 h7 hhas

/-- where bisection runs out of entries, there is none at the address -/
theorem Meets.absurd (hsort : Sorted t type lo hi) (h : Meets t type a r p m) (h0 : 0 ≤ r.1) (hlo : lo ≤ r.1)
    (hhi : r.2 ≤ hi) (hend : Relation.ReflTransGen (Halved t type a) r q) (hlt : q.2 < q.1) : False := by
  obtain ⟨h1, h2, -⟩ := path_keeps hsort h.path h0 hlo hhi
  obtain ⟨-, hm2⟩ := middle_bounds (le_trans h0 h1) h.le
  have hml := h.at_.low
  have hmh := h.at_.high
  obtain ⟨-, -, h3⟩ := path_keeps hsort hend h0 hlo hhi
  obtain ⟨h4, h5⟩ := h3 m (by omega) (by omega) h.at_.has
  omega

/-! ## The loop along the table -/

/-- the address has been incremented past the last one, at entry m: everything from m on is above it -/
structure Wrapped (t : List Stab) (type : Byte) (lo hi m : ℤ) (s : Search) : Prop where
  l : s.l = m
  left : s.left = m
  right : s.right = s.r
  low : lo ≤ m
  top : m ≤ hi
  le : m - 1 ≤ s.r
  high : s.r ≤ hi
  addr : s.addr = 0#32
  found : s.anyMatches = true
  has : Has t type m (~~~0#32)

/-- the entry at the last address that the search for a meets as its first, its second or a later one -/
inductive LastMet (t : List Stab) (type : Byte) (lo hi : ℤ) (a : Word) (m : ℤ) : Prop
  | first {p : ℤ × ℤ} (ha : a = ~~~0#32) (h : Meets t type a (lo, hi) p m)
  | second {p q : ℤ × ℤ} {k : ℤ} (ha : a ≠ ~~~0#32) (ha' : a + 1#32 = ~~~0#32) (h : Meets t type a (lo, hi) p k)
      (h' : Meets t type (a + 1#32) (k, p.2) q m)
  | later {p q : ℤ × ℤ} {k k' j : ℤ} {v : Word} (ha : a + 1#32 ≠ ~~~0#32) (h : Meets t type a (lo, hi) p k)
      (h' : Meets t type (a + 1#32) (k, p.2) q k') (hj : lo ≤ j) (hjm : j < m) (hv : Has t type j v) (hav : a < v)

/-- how far the search for a has come -/
inductive Course (t : List Stab) (type : Byte) (lo hi : ℤ) (a : Word) (s : Search) : Prop
  | searching (hh : s.hits = 0) (ha : s.addr = a) (h : Relation.ReflTransGen (Halved t type a) (lo, hi) (s.l, s.r))
  | once {p : ℤ × ℤ} {m : ℤ} (hh : s.hits = 1) (hne : a ≠ ~~~0#32) (ha : s.addr = a + 1#32)
      (h : Meets t type a (lo, hi) p m) (h' : Relation.ReflTransGen (Halved t type (a + 1#32)) (m, p.2) (s.l, s.r))
  | again {p q : ℤ × ℤ} {m m' : ℤ} (hh : 2 ≤ s.hits) (hw : a.toNat + s.hits < 2 ^ 32) (h : Meets t type a (lo, hi) p m)
      (h' : Meets t type (a + 1#32) (m, p.2) q m')
  | wrapped {m : ℤ} (h : Wrapped t type lo hi m s) (h' : LastMet t type lo hi a m)

/-- a round of the loop halves its range, or meets an entry at the address -/
theorem Stepped.halved {s s' : Search} (h : Stepped t type s s') (hle : s.l ≤ s.r) :
    (Halved t type s.addr (s.l, s.r) (s'.l, s'.r) ∧ s'.hits = s.hits ∧ s'.addr = s.addr) ∨
    ∃ m, Middle t type (s.l, s.r) m s.addr ∧
      s' = { s with anyMatches := true, left := m, l := m, addr := s.addr + 1#32, hits := s.hits + 1 } := by
  cases h with
  | none h => exact Or.inl ⟨Halved.none hle h, rfl, rfl⟩
  | below h hv => exact Or.inl ⟨Halved.below hle ⟨h.low, h.high, h.has, h.rest⟩ hv, rfl, rfl⟩
  | above h hv => exact Or.inl ⟨Halved.above hle ⟨h.low, h.high, h.has, h.rest⟩ hv, rfl, rfl⟩
  | @exact m h => exact Or.inr ⟨m, ⟨h.low, h.high, h.has, h.rest⟩, rfl⟩

theorem last_succ : (~~~0#32 : Word) + 1#32 = 0#32 := by decide

/-- past the last address the loop only goes down to the entry it has met last -/
theorem wrapped_step {s s' : Search} (hsort : Sorted t type lo hi) (h0 : 0 ≤ lo) (h : Wrapped t type lo hi m s)
    (hle : s.l ≤ s.r) (hs : Stepped t type s s') : Wrapped t type lo hi m s' := by
  obtain ⟨hl, hleft, hright, hlo, htop, hmr, hhi, haddr, hfound, hhas⟩ := h
  obtain ⟨hm1, hm2⟩ := mid_bounds (s := s) (by omega) hle
  have hge : ∀ j v, m ≤ j → j ≤ hi → Has t type j v → v ≠ 0#32 := fun j v hj hj' hv hv0 => by
    have hmax : ~~~0#32 ≤ v := hsort m j _ v hlo hj hj' hhas hv
    rw [hv0] at hmax
    exact absurd hmax (by decide)
  cases hs with
  | none hnone => exact absurd hhas (hnone m _ (le_of_eq hl) (by omega))
  | @below k v hk hv =>
    rw [haddr] at hv
    exact absurd hv (by rw [BitVec.lt_def]; exact Nat.not_lt_zero _)
  | @above k v hk hv =>
    have hkl := hk.low
    have hkh := hk.high
    exact ⟨hl, hleft, rfl, hlo, htop, by simp only; omega, by simp only; omega, haddr, rfl, hhas⟩
  | @exact k hk =>
    have hkl := hk.low
    have hkh := hk.high
    exact absurd haddr (hge k s.addr (by omega) (by omega) hk.has)

theorem course_step {s s' : Search} (hsort : Sorted t type lo hi) (h0 : 0 ≤ lo) (hlo : lo ≤ s.l)
    (hc : a.toNat + s.hits < 2 ^ 32 → Climb t type lo hi a s) (hb : s.r ≤ hi ∧ s.right = s.r)
    (h : Course t type lo hi a s) (hle : s.l ≤ s.r) (hs : Stepped t type s s') : Course t type lo hi a s' := by
  have hpos : 0 ≤ s.l := le_trans h0 hlo
  obtain ⟨hm1, hm2⟩ := mid_bounds hpos hle
  -- an exact match at the last address
  have hwrap : ∀ {m}, Middle t type (s.l, s.r) m s.addr → s.addr = ~~~0#32 → Wrapped t type lo hi m
      { s with anyMatches := true, left := m, l := m, addr := s.addr + 1#32, hits := s.hits + 1 } := by
    intro m hm hlast
    have hml := hm.low
    have hmh := hm.high
    have hmid : middle (s.l, s.r) = s.mid := rfl
    simp only at hml
    exact ⟨rfl, rfl, hb.2, by omega, by omega, by simp only; omega, hb.1, by rw [hlast]; exact last_succ, rfl, hlast ▸ hm.has⟩
  cases h with
  | searching hh ha hpath =>
    rcases hs.halved hle with ⟨hhalf, hh', ha'⟩ | ⟨m, hm, rfl⟩
    · rw [ha] at hhalf
      exact .searching (hh'.trans hh) (ha'.trans ha) (hpath.tail hhalf)
    · have hmeets : Meets t type a (lo, hi) (s.l, s.r) m := ⟨hpath, hle, ha ▸ hm⟩
      by_cases hlast : a = ~~~0#32
      · exact .wrapped (hwrap hm (ha.trans hlast)) (.first hlast hmeets)
      · exact .once (by simp only [hh]) hlast (by simp only [ha]) hmeets .refl
  | @once p k hh hne ha hk hpath =>
    rcases hs.halved hle with ⟨hhalf, hh', ha'⟩ | ⟨m, hm, rfl⟩
    · rw [ha] at hhalf
      exact .once (hh'.trans hh) hne (ha'.trans ha) hk (hpath.tail hhalf)
    · have hmeets : Meets t type (a + 1#32) (k, p.2) (s.l, s.r) m := ⟨hpath, hle, ha ▸ hm⟩
      by_cases hlast : a + 1#32 = ~~~0#32
      · exact .wrapped (hwrap hm (ha.trans hlast)) (.second hne hlast hk hmeets)
      · refine .again (by simp only [hh]; omega) ?_ hk hmeets
        have h1 := toNat_succ hne
        have h2 := toNat_succ hlast
        have h3 := (a + 1#32 + 1#32).isLt
        simp only [hh]
        omega
  | @again p q k k' hh hw hk hk' =>
    rcases hs.halved hle with ⟨hhalf, hh', ha'⟩ | ⟨m, hm, rfl⟩
    · exact .again (by omega) (by omega) hk hk'
    · have haddr := (hc hw).addr
      by_cases hlast : s.addr = ~~~0#32
      · -- the entry met before lies below the last address, but above a
        obtain ⟨-, h2, h3, h4, v, hv, hva⟩ := (hc hw).left (by omega)
        have hl : s.addr.toNat = 4294967295 := by rw [hlast]; rfl
        refine .wrapped (hwrap hm hlast) (.later (v := v) ?_ hk hk' h2 ?_ hv ?_)
        · intro hmax
          have h1 : (a + 1#32).toNat = 4294967295 := by rw [hmax]; rfl
          rw [BitVec.toNat_add] at h1
          have h1' := a.isLt
          simp at h1
          omega
        · have hml := hm.low
          have hne : s.left ≠ m := fun heq => by
            have := congrArg BitVec.toNat (hv.unique (heq ▸ hm.has))
            omega
          simp only at hml
          omega
        · rw [BitVec.lt_def]
          omega
      · have hlt : s.addr.toNat ≠ 2 ^ 32 - 1 := fun heq => hlast (BitVec.eq_of_toNat_eq heq)
        have hlt' := s.addr.isLt
        exact .again (by simp only; omega) (by simp only; omega) hk hk'
  | wrapped hw hm => exact .wrapped (wrapped_step hsort h0 hw hle hs) hm

theorem Stepped.right {s s' : Search} (h : Stepped t type s s') (hr : s.right = s.r) : s'.right = s'.r := by
  cases h with
  | none => exact hr
  | below => exact hr
  | above => rfl
  | exact => exact hr

/-- **A run follows its course.** -/
theorem course_run {s : Search} {fuel : ℕ} (hsort : Sorted t type lo hi) (h0 : 0 ≤ lo)
    (h : searchLoop t type fuel (searchStart lo hi a) = .ok s) : Course t type lo hi a s ∧ s.r < s.l := by
  have hinv := searchLoop_inv (I := fun s => lo ≤ s.l ∧ (s.r ≤ hi ∧ s.right = s.r) ∧
      (a.toNat + s.hits < 2 ^ 32 → Climb t type lo hi a s) ∧ Course t type lo hi a s)
    (fun s hs => le_trans h0 hs.1)
    (fun s s' ⟨hlo, hb, hc, hcourse⟩ hle hs => by
      obtain ⟨h1, h2, -⟩ := hs.range (le_trans h0 hlo) hle
      refine ⟨le_trans hlo h1, ⟨le_trans h2 hb.1, hs.right hb.2⟩, fun hw => ?_,
        course_step hsort h0 hlo hc hb hcourse hle hs⟩
      have hhits := hs.hits_le
      exact climb_step hsort (hc (by omega)) h0 hlo hle hs hw)
    fuel ⟨le_refl _, ⟨le_refl _, rfl⟩, fun _ => ⟨le_refl _, rfl, rfl, fun h => absurd h (Nat.not_succ_le_zero 0)⟩,
      .searching rfl rfl .refl⟩ h
  exact ⟨hinv.1.2.2.2, hinv.2⟩

/-! ## The containing entry -/

theorem Wrapped.settle {s : Search} (h : Wrapped t type lo hi m s) (hend : s.r < s.l) :
    Jos.settle t type s = .ok (m - 1, m - 1) := by
  have hr : s.r = m - 1 := by
    have h1 := h.le
    have h2 := h.l
    omega
  have hle : s.right ≤ s.left := by
    rw [h.right, h.left, hr]
    omega
  rw [settle_eq, h.found, Bool.not_true, if_neg Bool.false_ne_true, if_pos hle, h.right, hr]

/-- bisection for a meets no entry at a, or it is not at the last address and, in the range that is left from it on, no entry
at a + 1 is met; where a + 1 is the last address, such an entry does no harm right behind the entry searched for -/
def Undisturbed (t : List Stab) (type : Byte) (lo hi : ℤ) (a : Word) : Prop :=
  ∀ p m, Meets t type a (lo, hi) p m → a ≠ ~~~0#32 ∧
    ∀ q m', Meets t type (a + 1#32) (m, p.2) q m' → a + 1#32 = ~~~0#32 ∧ LastUpTo t type lo hi a (m' - 1)

/-- the call has found the entry that contains a, and the end of its region -/
def Contains (fuel : ℕ) (t : List Stab) (type : Byte) (lo hi : ℤ) (a : Word) : Prop :=
  ∃ i r, stabBinsearch fuel t type lo hi a = .ok (i, r) ∧ LastUpTo t type lo hi a i ∧ RegionEnd t type hi i r

/-- no entry at the address has been met -/
theorem undisturbed_none (hsort : Sorted t type lo hi) (h0 : 0 ≤ lo)
    (hpath : Relation.ReflTransGen (Halved t type a) (lo, hi) q) (hend : q.2 < q.1) : Undisturbed t type lo hi a :=
  fun _ _ hm => (hm.absurd hsort h0 (le_refl _) (le_refl _) hpath hend).elim

/-- one has been met, and none at the address behind it -/
theorem undisturbed_once (hsort : Sorted t type lo hi) (h0 : 0 ≤ lo) (hne : a ≠ ~~~0#32) (hm : Meets t type a (lo, hi) p m)
    (hpath : Relation.ReflTransGen (Halved t type (a + 1#32)) (m, p.2) q) (hend : q.2 < q.1) :
    Undisturbed t type lo hi a := by
  refine fun p' k hk => ⟨hne, fun q' m' hm' => ?_⟩
  obtain ⟨rfl, rfl⟩ := hm.unique hk
  obtain ⟨h1, h2, -⟩ := path_keeps hsort hm.path h0 (le_refl _) (le_refl _)
  have hml := hm.at_.low
  simp only at h1 h2
  exact (hm'.absurd hsort (le_trans h0 (le_trans h1 hml)) (le_trans h1 hml) h2 hpath hend).elim

theorem search_contains (hr : Readable t lo hi) (hsort : Sorted t type lo hi)
    (hex : ∃ i v, lo ≤ i ∧ i ≤ hi ∧ Has t type i v ∧ v ≤ a) {fuel : ℕ} (hf : searchRounds lo hi ≤ fuel) :
    Contains fuel t type lo hi a ↔ Undisturbed t type lo hi a := by
  obtain ⟨s, hs⟩ : ∃ s, searchLoop t type (searchRounds lo hi) (searchStart lo hi a) = .ok s :=
    searchLoop_ends hr (hi - lo + 1).toNat (le_refl _) (le_refl _) (le_refl _)
  obtain ⟨hcourse, hend⟩ := course_run hsort hr.1 hs
  have hfound : OneHit a s → Contains fuel t type lo hi a := fun hone => by
    obtain ⟨i, hi'⟩ := exists_lastUpTo hex
    obtain ⟨r, hr'⟩ : ∃ r, RegionEnd t type hi i r := exists_regionEnd hi'.high
    exact ⟨i, r, stabBinsearch_last hr hsort ⟨_, s, hs, hone⟩ hi' hr' hf, hi', hr'⟩
  cases hcourse with
  | searching hh ha hpath =>
    exact ⟨fun _ => undisturbed_none hsort hr.1 hpath hend, fun _ => hfound ⟨by omega, fun h1 => by omega⟩⟩
  | once hh hne ha hm hpath =>
    exact ⟨fun _ => undisturbed_once hsort hr.1 hne hm hpath hend, fun _ => hfound ⟨by omega, fun _ => hne⟩⟩
  | again hh hw hm hm' =>
    constructor
    · rintro ⟨i, r, hrun, hi', -⟩
      obtain ⟨i', r', v, hrun', -, -, -, hv, hav, -⟩ := stabBinsearch_above hr hsort ⟨_, s, hs, hh, hw⟩ hf
      obtain ⟨rfl, -⟩ := Prod.ext_iff.1 (Except.ok.inj (hrun.symm.trans hrun'))
      obtain ⟨w, hw', hwa⟩ := hi'.has
      rw [hw'.unique hv] at hwa
      exact absurd hav (BitVec.not_lt.2 hwa)
    · intro hu
      obtain ⟨hne, hsecond⟩ := hu _ _ hm
      have h1 := toNat_succ hne
      rw [(hsecond _ _ hm').1] at h1
      have h2 : (~~~0#32 : Word).toNat = 4294967295 := rfl
      omega
  | @wrapped m hwrap hlast =>
    have hrun : stabBinsearch fuel t type lo hi a = .ok (m - 1, m - 1) := by
      rw [stabBinsearch_eq, searchLoop_result hr hf hs]
      exact hwrap.settle hend
    have hmh := hwrap.top
    have hcontains : Contains fuel t type lo hi a ↔ LastUpTo t type lo hi a (m - 1) := by
      constructor
      · rintro ⟨i, r, hrun', hi', -⟩
        obtain ⟨rfl, -⟩ := Prod.ext_iff.1 (Except.ok.inj (hrun.symm.trans hrun'))
        exact hi'
      · intro hi'
        refine ⟨m - 1, m - 1, hrun, hi', ?_⟩
        refine ⟨le_refl _, hi'.high, fun j v hj hj' => absurd hj (not_lt.2 hj'), Or.inr ⟨by omega, ?_⟩⟩
        rw [sub_add_cancel]
        exact ⟨_, hwrap.has⟩
    rw [hcontains]
    cases hlast with
    | first ha hm =>
      refine ⟨fun hi' => ?_, fun hu => absurd ha (hu _ _ hm).1⟩
      exact absurd (hi'.rest m _ (by omega) hmh hwrap.has) (by rw [ha]; exact BitVec.lt_irrefl _)
    | second hne ha hm hm' =>
      refine ⟨fun hi' p k hk => ⟨hne, fun q k' hk' => ⟨ha, ?_⟩⟩, fun hu => ((hu _ _ hm).2 _ _ hm').2⟩
      obtain ⟨rfl, rfl⟩ := hm.unique hk
      obtain ⟨-, rfl⟩ := hm'.unique hk'
      exact hi'
    | later hne hm hm' hj hjm hv hav =>
      refine ⟨fun hi' => ?_, fun hu => absurd ((hu _ _ hm).2 _ _ hm').1 hne⟩
      obtain ⟨w, hw, hwa⟩ := hi'.has
      have hvw := hsort _ (m - 1) _ w hj (by omega) (by omega) hv hw
      have h1 : a.toNat < a.toNat := Nat.lt_of_lt_of_le hav (Nat.le_trans hvw hwa)
      omega

/-- the result of an undisturbed search -/
theorem Undisturbed.run {i e : ℤ} (h : Undisturbed t type lo hi a) (hr : Readable t lo hi) (hsort : Sorted t type lo hi)
    (hi' : LastUpTo t type lo hi a i) (he : RegionEnd t type hi i e) {fuel : ℕ} (hf : searchRounds lo hi ≤ fuel) :
    stabBinsearch fuel t type lo hi a = .ok (i, e) := by
  obtain ⟨v, hv, hva⟩ := hi'.has
  obtain ⟨j, d, hrun, hj, hd⟩ := (search_contains hr hsort ⟨i, v, hi'.low, hi'.high, hv, hva⟩ hf).2 h
  obtain rfl := hi'.unique hj
  rw [hrun, he.unique hd]

/-- where no entry is at the last address, a disturbed search has met two entries -/
theorem disturbed_twice (hr : Readable t lo hi) (hsort : Sorted t type lo hi)
    (hlast : ∀ i, lo ≤ i → i ≤ hi → ¬ Has t type i (~~~0#32)) (h : ¬ Undisturbed t type lo hi a) :
    ExactTwice t type lo hi a := by
  obtain ⟨s, hs⟩ : ∃ s, searchLoop t type (searchRounds lo hi) (searchStart lo hi a) = .ok s :=
    searchLoop_ends hr (hi - lo + 1).toNat (le_refl _) (le_refl _) (le_refl _)
  obtain ⟨hcourse, hend⟩ := course_run hsort hr.1 hs
  cases hcourse with
  | searching hh ha hpath => exact absurd (undisturbed_none hsort hr.1 hpath hend) h
  | once hh hne ha hm hpath => exact absurd (undisturbed_once hsort hr.1 hne hm hpath hend) h
  | again hh hw => exact ⟨_, s, hs, hh, hw⟩
  | wrapped hwrap => exact absurd hwrap.has (hlast _ hwrap.low hwrap.top)

/-- **The containing entry.** On a sorted range with an entry of the type that is not above the address, stab_binsearch finds
the last one of these and the end of its region exactly when bisection for the address is not disturbed by the entry at the
address behind it. -/
theorem stabBinsearch_contains (t : List Stab) (type : Byte) (lo hi : ℤ) (a : Word) (hr : Readable t lo hi)
    (hsort : Sorted t type lo hi) (hex : ∃ i v, lo ≤ i ∧ i ≤ hi ∧ Has t type i v ∧ v ≤ a) (fuel : ℕ)
    (hf : searchRounds lo hi ≤ fuel) : Contains fuel t type lo hi a ↔ Undisturbed t type lo hi a :=
  search_contains hr hsort hex hf

/-- a table in the order of the values of its entries of one type -/
theorem sorted_of_pairwise (h : t.Pairwise fun e f => e.nType = type → f.nType = type → e.nValue ≤ f.nValue) :
    Sorted t type lo hi := by
  rintro i j v w - hij - ⟨e, he, hte, rfl⟩ ⟨f, hf, htf, rfl⟩
  obtain ⟨hi0, hi'⟩ := stabAt_ok.1 he
  obtain ⟨hj0, hj'⟩ := stabAt_ok.1 hf
  obtain ⟨hlti, rfl⟩ := List.getElem?_eq_some_iff.1 hi'
  obtain ⟨hltj, rfl⟩ := List.getElem?_eq_some_iff.1 hj'
  rcases eq_or_lt_of_le hij with rfl | hlt
  · exact BitVec.le_refl _
  · exact List.pairwise_iff_getElem.1 h _ _ hlti hltj (by omega) hte htf

/-- two functions, the second one byte behind the first -/
def closeFuns : List Stab := [⟨0, nFUN, 0, 0x10⟩, ⟨0, nFUN, 0, 0x11⟩]

/-- at the second function nothing disturbs the search -/
theorem stabBinsearch_contains_closeFuns :
    Contains 5 closeFuns nFUN 0 1 0x11#32 ↔ Undisturbed closeFuns nFUN 0 1 0x11#32 :=
  stabBinsearch_contains closeFuns nFUN 0 1 0x11#32 ⟨by decide, by decide⟩ (sorted_of_pairwise (by decide))
    ⟨0, 0x10#32, by decide, by decide, ⟨_, rfl, rfl, rfl⟩, by decide⟩ 5 (by decide)

/-- at the first one the search gives the second -/
theorem stabBinsearch_next_fun :
    Readable closeFuns 0 1 ∧ Sorted closeFuns nFUN 0 1 ∧ LastUpTo closeFuns nFUN 0 1 0x10#32 0 ∧
      RegionEnd closeFuns nFUN 1 0 0 ∧ stabBinsearch 5 closeFuns nFUN 0 1 0x10#32 = .ok (1, 1) := by
  refine ⟨⟨by decide, by decide⟩, sorted_of_pairwise (by decide), ⟨by decide, by decide, ⟨_, ⟨_, rfl, rfl, rfl⟩, by decide⟩,
    ?_⟩, ⟨by decide, by decide, fun j v hj hj0 => absurd hj (not_lt.2 hj0), Or.inr ⟨by decide, ?_⟩⟩, rfl⟩
  · intro j v hj hj1 hv
    obtain ⟨e, he, -, rfl⟩ := hv
    obtain rfl : j = 1 := by omega
    obtain rfl := Except.ok.inj he
    decide
  · exact ⟨_, _, rfl, rfl, rfl⟩

/-! ## No entry -/

/-- the search among entries above the address: region_left stays where it is -/
structure OnlyAbove (t : List Stab) (type : Byte) (lo hi : ℤ) (a : Word) (s : Search) : Prop where
  left : s.left = lo
  addr : s.addr = a
  low : lo ≤ s.l
  high : s.r ≤ hi
  right : s.right = s.r
  none : s.anyMatches = false → s.r = hi ∧ ∀ i v, lo ≤ i → i < s.l → ¬ Has t type i v
  some : s.anyMatches = true → ∃ v, lo ≤ s.r + 1 ∧ s.r + 1 ≤ hi ∧ Has t type (s.r + 1) v

theorem onlyAbove_step {s s' : Search} (habove : ∀ i v, lo ≤ i → i ≤ hi → Has t type i v → a < v) (h0 : 0 ≤ lo)
    (h : OnlyAbove t type lo hi a s) (hle : s.l ≤ s.r) (hs : Stepped t type s s') : OnlyAbove t type lo hi a s' := by
  obtain ⟨hleft, haddr, hlo, hhi, hright, hnone, hsome⟩ := h
  obtain ⟨hm1, hm2⟩ := mid_bounds (le_trans h0 hlo) hle
  cases hs with
  | none hno =>
    refine ⟨hleft, haddr, by simp only; omega, hhi, hright, fun hany => ?_, hsome⟩
    obtain ⟨hr, hbefore⟩ := hnone hany
    refine ⟨hr, fun i v hi hlt => ?_⟩
    by_cases hil : i < s.l
    · exact hbefore i v hi hil
    · exact hno i v (not_lt.1 hil) (Int.lt_add_one_iff.1 hlt)
  | @below m v hm hv =>
    have hml := hm.low
    have hmh := hm.high
    have hav := habove m v (by omega) (by omega) hm.has
    rw [haddr] at hv
    exact absurd hav (BitVec.not_lt.2 (BitVec.le_of_lt hv))
  | @above m v hm hv =>
    have hml := hm.low
    have hmh := hm.high
    refine ⟨hleft, haddr, hlo, by simp only; omega, rfl, fun hany => absurd hany (Bool.noConfusion), fun _ => ⟨v, ?_⟩⟩
    simp only [sub_add_cancel]
    exact ⟨by omega, by omega, hm.has⟩
  | @exact m hm =>
    have hml := hm.low
    have hmh := hm.high
    have hav := habove m s.addr (by omega) (by omega) hm.has
    rw [haddr] at hav
    exact absurd hav (BitVec.lt_irrefl _)

/-- the search among entries above the address finds none, the left end of the range, the entry before it, if that end has
the type, or an entry of the type -/
theorem search_onlyAbove (hr : Readable t lo hi) (habove : ∀ i v, lo ≤ i → i ≤ hi → Has t type i v → a < v) {fuel : ℕ}
    (hf : searchRounds lo hi ≤ fuel) :
    ∃ i r, stabBinsearch fuel t type lo hi a = .ok (i, r) ∧
      (r < i ∧ (∀ j v, lo ≤ j → j ≤ hi → ¬ Has t type j v) ∨
        i ≤ r ∧ (∃ j v, lo ≤ j ∧ j ≤ hi ∧ Has t type j v) ∧
          (i = lo ∨ i = lo - 1 ∧ (∃ v, Has t type lo v) ∨ lo ≤ i ∧ i ≤ hi ∧ ∃ v, Has t type i v)) := by
  obtain ⟨s, hs⟩ : ∃ s, searchLoop t type (searchRounds lo hi) (searchStart lo hi a) = .ok s :=
    searchLoop_ends hr (hi - lo + 1).toNat (le_refl _) (le_refl _) (le_refl _)
  obtain ⟨⟨hleft, -, -, hhi, hright, hnone, hsome⟩, hend⟩ := searchLoop_inv (I := OnlyAbove t type lo hi a)
    (fun s hs => le_trans hr.1 hs.low) (fun s s' hs hle hstep => onlyAbove_step habove hr.1 hs hle hstep) _
    ⟨rfl, rfl, le_refl _, le_refl _, rfl, fun _ => ⟨rfl, fun i v hi hlt => absurd hi (not_le.2 hlt)⟩,
      fun hany => by cases hany⟩ hs
  rw [stabBinsearch_eq, searchLoop_result hr hf hs]
  change ∃ i r, settle t type s = .ok (i, r) ∧ _
  cases hany : s.anyMatches with
  | false =>
    obtain ⟨hrhi, hbefore⟩ := hnone hany
    refine ⟨s.left, s.left - 1, ?_, Or.inl ⟨by omega, fun j v hj hle => hbefore j v hj (by omega)⟩⟩
    rw [settle_eq, hany]
    rfl
  | true =>
    obtain ⟨w, hge, hle, hw⟩ := hsome hany
    rw [settle_eq, hany, Bool.not_true, if_neg Bool.false_ne_true]
    by_cases hlr : s.right ≤ s.left
    · -- both ends are region_right
      rw [if_pos hlr]
      refine ⟨_, _, rfl, Or.inr ⟨le_refl _, ⟨_, w, hge, hle, hw⟩, ?_⟩⟩
      by_cases hlo : s.r + 1 = lo
      · exact Or.inr (Or.inl ⟨by omega, w, hlo ▸ hw⟩)
      · exact Or.inl (by omega)
    · -- the fix-up loop stops at region_left, or at an entry of the type before it
      rw [if_neg hlr]
      obtain ⟨i, hi'⟩ : ∃ i, fixup t type s.left (s.right - s.left).toNat = .ok i := fixup_ends hr (by omega) (by omega)
      obtain ⟨h1, h2, hcase⟩ := fixup_ok hi'
      refine ⟨i, s.right, Prog.except_bind_ok.2 ⟨i, hi', rfl⟩, Or.inr ⟨by omega, ⟨_, w, hge, hle, hw⟩, ?_⟩⟩
      rcases hcase with rfl | hhas
      · exact Or.inl hleft
      · exact Or.inr (Or.inr ⟨by omega, by omega, hhas⟩)

/-- **Absence.** Where no entry of the type in the range is at or below the address, stab_binsearch leaves region_left above
region_right exactly when the range has no entry of the type at all. -/
theorem stabBinsearch_absent (t : List Stab) (type : Byte) (lo hi : ℤ) (a : Word) (hr : Readable t lo hi)
    (habove : ∀ i v, lo ≤ i → i ≤ hi → Has t type i v → a < v) (fuel : ℕ) (hf : searchRounds lo hi ≤ fuel) :
    (∃ i r, stabBinsearch fuel t type lo hi a = .ok (i, r) ∧ r < i) ↔
      ∀ i v, lo ≤ i → i ≤ hi → ¬ Has t type i v := by
  obtain ⟨i, r, hrun, hcase⟩ := search_onlyAbove hr habove hf
  constructor
  · rintro ⟨i', r', hrun', hlt⟩
    obtain ⟨rfl, rfl⟩ := Prod.mk.inj (Except.ok.inj (hrun.symm.trans hrun'))
    rcases hcase with ⟨-, hnone⟩ | ⟨hle, -⟩
    · exact hnone
    · exact absurd hle (not_le.2 hlt)
  · intro hnone
    rcases hcase with ⟨hlt, -⟩ | ⟨-, ⟨j, v, h1, h2, hv⟩, -⟩
    · exact ⟨i, r, hrun, hlt⟩
    · exact absurd hv (hnone j v h1 h2)

/-- a range without functions -/
theorem stabBinsearch_absent_line : (∃ i r, stabBinsearch 3 [⟨0, nSLINE, 7, 0x10⟩] nFUN 0 0 5#32 = .ok (i, r) ∧ r < i) ↔
    ∀ i v, 0 ≤ i → i ≤ 0 → ¬ Has [⟨0, nSLINE, 7, 0x10⟩] nFUN i v :=
  stabBinsearch_absent [⟨0, nSLINE, 7, 0x10⟩] nFUN 0 0 5#32 ⟨by decide, by decide⟩ (fun i v h1 h2 ⟨e, he, ht, _⟩ => by
    obtain rfl : i = 0 := by omega
    obtain rfl := Except.ok.inj he
    exact absurd ht (by decide)) 3 (by decide)

/-- one function, above the address -/
theorem stabBinsearch_only_larger :
    Readable [⟨0, nFUN, 0, 0x10⟩] 0 0 ∧ Sorted [⟨0, nFUN, 0, 0x10⟩] nFUN 0 0 ∧
      (∀ i v, 0 ≤ i → i ≤ 0 → Has [⟨0, nFUN, 0, 0x10⟩] nFUN i v → 5#32 < v) ∧
      stabBinsearch 3 [⟨0, nFUN, 0, 0x10⟩] nFUN 0 0 5#32 = .ok (-1, -1) := by
  refine ⟨⟨by decide, by decide⟩, sorted_of_pairwise (by decide), fun i v h1 h2 ⟨e, he, _, hv⟩ => ?_, rfl⟩
  obtain rfl : i = 0 := by omega
  obtain rfl := Except.ok.inj he
  rw [← hv]
  decide

end Bisection

end Jos
