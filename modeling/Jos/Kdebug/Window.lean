/-
Which entries stab_binsearch reads (kern/kdebug.c).

`window t lo hi` is the table of which only the entries lo..hi can be read: any other read is a fault. The type is any int,
as in the source. Results:
- `stabBinsearchAt_eq`: a search reads nothing outside its range, so an array that agrees with a table on the range gives
  the same result;
- `binsearch_in_range`: it ends on any table, without a fault, and leaves a bracket inside lo - 1..hi.
-/
import Jos.Kdebug.Safety

namespace Jos

open Jos.Lib

/-- the entries lo..hi of the table and nothing else -/
def window (t : List Stab) (lo hi : ℤ) : Stabs := fun i => if lo ≤ i ∧ i ≤ hi then stabAt t i else .error .fault

/-! ## The same entries, the same search -/

section Agree

variable {stabs : Stabs} {t : List Stab} {type : Word} {type' : Byte} {lo hi : ℤ} {a : Word}

/-- the entries lo..hi can be read in both, and they tell the searches the same -/
def AgreeOn (stabs : Stabs) (type : Word) (t : List Stab) (type' : Byte) (lo hi : ℤ) : Prop :=
  ∀ i, lo ≤ i → i ≤ hi → ∃ e e', stabs i = .ok e ∧ stabAt t i = .ok e' ∧ (e.isType type ↔ e'.nType = type') ∧
    e.nValue = e'.nValue

theorem scanBackAt_eq (h : AgreeOn stabs type t type' lo hi) {l : ℤ} (hl : lo ≤ l) {k : ℕ} (hk : l + k ≤ hi + 1) :
    scanBackAt stabs type l k = scanBack t type' l k := by
  induction k with
  | zero => rfl
  | succ k ih =>
    push_cast at hk
    obtain ⟨e, e', he, he', htype, -⟩ := h (l + k) (by omega) (by omega)
    rw [scanBackAt, scanBack_succ, he, he', ih (by omega)]
    exact if_congr htype rfl rfl

theorem fixupAt_eq (h : AgreeOn stabs type t type' lo hi) {left : ℤ} (hl : lo ≤ left) {k : ℕ} (hk : left + k ≤ hi) :
    fixupAt stabs type left k = fixup t type' left k := by
  induction k with
  | zero => rfl
  | succ k ih =>
    push_cast at hk
    obtain ⟨e, e', he, he', htype, -⟩ := h (left + (k + 1)) (by omega) (by omega)
    rw [fixupAt, fixup_succ, he, he', ih (by omega)]
    exact if_congr htype rfl rfl

theorem searchStepAt_eq {s : Search} (h : AgreeOn stabs type t type' lo hi) (h0 : 0 ≤ lo) (hl : lo ≤ s.l)
    (hle : s.l ≤ s.r) (hr : s.r ≤ hi) : searchStepAt stabs type s = searchStep t type' s := by
  obtain ⟨hlow, hhigh⟩ := mid_bounds (le_trans h0 hl) hle
  change searchStepAt stabs type s = searchStepAt (stabAt t) (type'.setWidth 32) s
  rw [searchStepAt, scanBackAt_eq h hl (by omega), searchStepAt]
  change _ = (scanBack t type' s.l (s.mid - s.l + 1).toNat >>= _)
  cases hm : scanBack t type' s.l (s.mid - s.l + 1).toNat with
  | error stop => rfl
  | ok m =>
    obtain ⟨hlt, -, -⟩ := scanBack_ok hm
    change (if m < s.l then _ else _) = if m < s.l then _ else _
    by_cases hml : m < s.l
    · rw [if_pos hml, if_pos hml]
    · obtain ⟨e, e', he, he', -, hvalue⟩ := h m (by omega) (by omega)
      rw [if_neg hml, if_neg hml, he, he']
      change (if e.nValue < s.addr then _ else _) = if e'.nValue < s.addr then _ else _
      rw [hvalue]

theorem searchLoopAt_eq {s : Search} (h : AgreeOn stabs type t type' lo hi) (h0 : 0 ≤ lo) (fuel : ℕ) (hl : lo ≤ s.l)
    (hr : s.r ≤ hi) : searchLoopAt stabs type fuel s = searchLoop t type' fuel s := by
  induction fuel generalizing s with
  | zero => rfl
  | succ fuel ih =>
    rw [searchLoopAt, searchLoop_succ]
    by_cases hle : s.l ≤ s.r
    · rw [if_pos hle, if_pos hle, searchStepAt_eq h h0 hl hle hr]
      cases hs : searchStep t type' s with
      | error stop => rfl
      | ok u =>
        -- the range only gets smaller
        obtain ⟨hul, hur, -⟩ := (searchStep_ok (le_trans h0 hl) hle hs).range (le_trans h0 hl) hle
        exact ih (le_trans hl hul) (le_trans hur hr)
    · rw [if_neg hle, if_neg hle]

/-- **A search reads only its range.** -/
theorem stabBinsearchAt_eq (h : AgreeOn stabs type t type' lo hi) (h0 : 0 ≤ lo) (hle : lo ≤ hi + 1) (fuel : ℕ) :
    stabBinsearchAt fuel stabs type lo hi a = stabBinsearch fuel t type' lo hi a := by
  rw [stabBinsearchAt, stabBinsearch_eq, searchLoopAt_eq h h0 fuel (le_refl _) (le_refl _)]
  cases hs : searchLoop t type' fuel (searchStart lo hi a) with
  | error stop => rfl
  | ok s =>
    obtain ⟨hrange, -⟩ := searchLoop_inv (I := InRange t type' lo hi)
      (fun s hs => le_trans h0 (le_trans hs.low hs.left)) (fun s s' hs hle hstep => inRange_step hs h0 hle hstep) _
      (inRange_start hle) hs
    change settleAt stabs type s = settle t type' s
    rw [settleAt, settle_eq]
    split_ifs with hany hlr
    · rfl
    · rfl
    · have hright := hrange.right
      have hhigh := hrange.high
      rw [fixupAt_eq h hrange.low (by omega)]

end Agree

section Window

variable {t : List Stab} {lo hi : ℤ}

theorem window_ok {i : ℤ} (h1 : lo ≤ i) (h2 : i ≤ hi) : window t lo hi i = stabAt t i := if_pos ⟨h1, h2⟩

theorem window_agree (h : Readable t lo hi) (b : Byte) : AgreeOn (window t lo hi) (b.setWidth 32) t b lo hi := by
  intro i h1 h2
  obtain ⟨e, he⟩ := h.stabAt h1 h2
  exact ⟨e, e, (window_ok h1 h2).trans he, he, isType_byte e b, rfl⟩

/-- an int that is no byte is the type of no entry: the search is one for type 1 in a table of type 0 -/
theorem window_agree_none (h : Readable t lo hi) {type : Word} (htype : ∀ b : Byte, b.setWidth 32 ≠ type) :
    AgreeOn (window t lo hi) type (t.map fun e => { e with nType := 0#8 }) 1#8 lo hi := by
  intro i h1 h2
  obtain ⟨e, he⟩ := h.stabAt h1 h2
  obtain ⟨hi0, hget⟩ := stabAt_ok.1 he
  refine ⟨e, { e with nType := 0#8 }, (window_ok h1 h2).trans he, stabAt_ok.2 ⟨hi0, ?_⟩, ?_, rfl⟩
  · rw [List.getElem?_map, hget]
    rfl
  · have hne : (0#8 : Byte) ≠ 1#8 := by decide
    exact iff_of_false (htype e.nType) hne

/-- **In range on any data.** On every table, sorted or not, the search ends, reads no entry outside lo..hi and leaves both
ends of its bracket in lo - 1..hi. -/
theorem binsearch_in_range (t : List Stab) (type addr : Word) (lo hi : ℤ) (h0 : 0 ≤ lo) (hle : lo ≤ hi)
    (hhi : hi < t.length) (fuel : ℕ) (hf : searchRounds lo hi ≤ fuel) :
    ∃ i r, stabBinsearchAt fuel (window t lo hi) type lo hi addr = .ok (i, r) ∧
      lo - 1 ≤ i ∧ i ≤ hi ∧ lo - 1 ≤ r ∧ r ≤ hi := by
  have hread : Readable t lo hi := ⟨h0, hhi⟩
  obtain ⟨t', b, hread', hagree⟩ : ∃ (t' : List Stab) (b : Byte), Readable t' lo hi ∧
      AgreeOn (window t lo hi) type t' b lo hi := by
    by_cases htype : ∃ b : Byte, b.setWidth 32 = type
    · obtain ⟨b, rfl⟩ := htype
      exact ⟨t, b, hread, window_agree hread b⟩
    · refine ⟨_, _, ⟨h0, ?_⟩, window_agree_none hread (not_exists.1 htype)⟩
      rw [List.length_map]
      exact hhi
  obtain ⟨i, r, hrun, hr, hcase⟩ := search_bounds b addr hread' (by omega) hf
  refine ⟨i, r, (stabBinsearchAt_eq hagree h0 (by omega) fuel).trans hrun, ?_⟩
  rcases hcase with ⟨rfl, rfl⟩ | ⟨h1, h2, -⟩
  · omega
  · omega

/-- an exact match at the last address, which the increment takes to 0 -/
theorem binsearch_in_range_wrap :
    ∃ i r, stabBinsearchAt 3 (window [⟨0, nFUN, 0, 0xFFFFFFFF⟩] 0 0) 0x24#32 0 0 0xFFFFFFFF#32 = .ok (i, r) ∧
      0 - 1 ≤ i ∧ i ≤ 0 ∧ 0 - 1 ≤ r ∧ r ≤ 0 :=
  binsearch_in_range [⟨0, nFUN, 0, 0xFFFFFFFF⟩] 0x24#32 0xFFFFFFFF#32 0 0 (by decide) (by decide) (by decide) 3 (by decide)

end Window

end Jos
