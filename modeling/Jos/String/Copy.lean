/-
strlen, strcpy, strcat, strncpy and strlcpy (lib/string.c).

The copies go byte by byte and read the memory that they write. Results:
- `strcpyLoop_apart`, `strcpyLoop_forever`: strcpy puts the string and its NUL, unless the target lies inside the string
  behind its first byte; there it writes over the NUL before it gets to it and never stops;
- `strcpy_returns`, `strcat_returns`: when they return, and what is left where;
- `bounded_copies`: strlcpy leaves what snprintf with "%s" leaves, and strncpy the same string as long as it fits.
-/
import Jos.Lib.StringOps
import Jos.Printf.Texts
import Jos.String.Compare

namespace Jos

open Jos.Lib

/-! ## lib/string.c -/

/-- `for (n = 0; *s != '\0'; s++) n++` -/
def strlen (m : Bytes) : ℕ → Word → Word → Except Stop Word
  | 0, _, _ => .error .steps
  | fuel + 1, s, n => if m s ≠ 0#8 then strlen m fuel (s + 1#32) (n + 1#32) else .ok n

/-- `while ((*dst++ = *src++) != '\0')` -/
def strcpyLoop : ℕ → Word → Word → Bytes → Except Stop Bytes
  | 0, _, _, _ => .error .steps
  | fuel + 1, dst, src, m =>
    let c := m src
    let m := Function.update m dst c
    if c ≠ 0#8 then strcpyLoop fuel (dst + 1#32) (src + 1#32) m else .ok m

def strcpy (fuel : ℕ) (dst src : Word) (m : Bytes) : Except Stop (Word × Bytes) := do
  let m ← strcpyLoop fuel dst src m
  return (dst, m)

def strcat (fuel : ℕ) (dst src : Word) (m : Bytes) : Except Stop (Word × Bytes) := do
  let len ← strlen m fuel dst 0#32
  let (_, m) ← strcpy fuel (dst + len) src m
  return (dst, m)

/-- `for (i = 0; i < size; i++)`; *src is read again behind the store -/
def strncpyLoop : ℕ → Word → Word → Bytes → Bytes
  | 0, _, _, m => m
  | n + 1, dst, src, m =>
    let m := Function.update m dst (m src)
    -- If strlen(src) < size, null-pad 'dst' out to 'size' chars
    let src := if m src ≠ 0#8 then src + 1#32 else src
    strncpyLoop n (dst + 1#32) src m

def strncpy (dst src size : Word) (m : Bytes) : Word × Bytes := (dst, strncpyLoop size.toNat dst src m)

/-- `while (--size > 0 && *src != '\0')` -/
def strlcpyLoop : ℕ → Word → Word → Bytes → Word × Bytes
  | 0, dst, _, m => (dst, m)
  | n + 1, dst, src, m =>
    if 0 < n ∧ m src ≠ 0#8 then strlcpyLoop n (dst + 1#32) (src + 1#32) (Function.update m dst (m src)) else (dst, m)

def strlcpy (dst src size : Word) (m : Bytes) : Word × Bytes :=
  if 0#32 < size then
    let (d, m) := strlcpyLoop size.toNat dst src m
    (d - dst, Function.update m d 0#8)
  else (0#32, m)

/-! ## Strings in memory -/

section Strings

variable {m : Bytes} {a s x : Word} {l : List Byte}

theorem offset_succ (a : Word) (i : ℕ) : a + BitVec.ofNat 32 (i + 1) = a + 1#32 + BitVec.ofNat 32 i := by
  rw [Nat.add_comm i 1, BitVec.ofNat_add, ← BitVec.add_assoc]

/-- a string in memory: its first byte, and the rest -/
theorem Cstr.mem_cons {c : Byte} (h : Cstr (Bytes.reader m) (.mem s) (c :: l)) :
    m s = c ∧ c ≠ 0#8 ∧ Cstr (Bytes.reader m) (.mem (s + 1#32)) l := by
  have hnul := h.noNul
  rw [List.mem_cons, not_or] at hnul
  have hhead := h.reads 0 c rfl
  rw [Ptr.skip_zero] at hhead
  exact ⟨Option.some.inj hhead, fun h0 => hnul.1 h0.symm, hnul.2, h.reads.tail⟩

theorem Cstr.mem_nil (h : Cstr (Bytes.reader m) (.mem s) []) : m s = 0#8 := by
  have hhead := h.reads 0 0#8 rfl
  rw [Ptr.skip_zero] at hhead
  exact Option.some.inj hhead

/-- only the bytes of the string matter -/
theorem Cstr.congr {m' : Bytes} (h : Cstr (Bytes.reader m) (.mem s) l)
    (heq : ∀ i ≤ l.length, m' (s + BitVec.ofNat 32 i) = m (s + BitVec.ofNat 32 i)) : Cstr (Bytes.reader m') (.mem s) l := by
  refine ⟨h.noNul, fun i c hc => ?_⟩
  have hi := (List.getElem?_eq_some_iff.1 hc).1
  rw [List.length_append, List.length_singleton] at hi
  exact (congrArg some (heq i (Nat.lt_succ_iff.1 hi))).trans (h.reads i c hc)

/-- a string that has been put somewhere -/
theorem Cstr.of_put (h0 : 0#8 ∉ l) (hlen : l.length < 2 ^ 32) : Cstr (Bytes.reader (put m a (l ++ [0#8]))) (.mem a) l := by
  refine ⟨h0, fun i c hc => congrArg some (put_get hc ?_)⟩
  have hi := (List.getElem?_eq_some_iff.1 hc).1
  rw [List.length_append, List.length_singleton] at hi
  exact lt_of_lt_of_le hi hlen

/-- a string ends before the memory comes round -/
theorem Cstr.length_lt (h : Cstr (Bytes.reader m) (.mem s) l) : l.length < 2 ^ 32 := by
  by_contra hlen
  have hnul : m (s + BitVec.ofNat 32 l.length) = 0#8 := Option.some.inj (h.reads l.length 0#8 List.getElem?_concat_length)
  have hback : l.length - 2 ^ 32 < l.length := by omega
  have hbyte := h.reads (l.length - 2 ^ 32) l[l.length - 2 ^ 32] (by
    rw [List.getElem?_append_left hback, List.getElem?_eq_getElem hback])
  have hround : BitVec.ofNat 32 (l.length - 2 ^ 32) = BitVec.ofNat 32 l.length := by
    apply BitVec.eq_of_toNat_eq
    rw [BitVec.toNat_ofNat, BitVec.toNat_ofNat]
    omega
  have heq : m (s + BitVec.ofNat 32 l.length) = l[l.length - 2 ^ 32] := by
    rw [← hround]
    exact Option.some.inj hbyte
  exact h.noNul (by rw [← hnul, heq]; exact List.getElem_mem hback)

end Strings

/-! ## strcpy -/

section Strcpy

variable {m : Bytes} {dst src : Word} {l l' : List Byte}

/-- the distance of a byte of the source from the target -/
theorem source_ne (h : (src - dst).toNat + (l.length + 1) ≤ 2 ^ 32) {i : ℕ} (hi : i < l.length) :
    src + BitVec.ofNat 32 (i + 1) ≠ dst := by
  intro heq
  have hdist : src - dst = -BitVec.ofNat 32 (i + 1) := by
    rw [← heq]
    ring
  rw [hdist, BitVec.toNat_neg, BitVec.toNat_ofNat] at h
  omega

theorem strcpyLoop_apart (h : Cstr (Bytes.reader m) (.mem src) l) (hapart : (src - dst).toNat + (l.length + 1) ≤ 2 ^ 32)
    {fuel : ℕ} (hf : l.length < fuel) : strcpyLoop fuel dst src m = .ok (put m dst (l ++ [0#8])) := by
  induction l generalizing m dst src fuel with
  | nil =>
    obtain ⟨fuel, rfl⟩ := Nat.exists_eq_add_of_lt hf
    rw [strcpyLoop, h.mem_nil, List.nil_append, put_singleton]
    rfl
  | cons c l ih =>
    obtain ⟨fuel, rfl⟩ : ∃ n, fuel = n + 1 := ⟨fuel - 1, by omega⟩
    have hlong : (l ++ [0#8]).length < 2 ^ 32 := by
      rw [List.length_append]
      exact h.length_lt
    obtain ⟨hc, hne, htail⟩ := h.mem_cons
    rw [List.length_cons] at hapart hf
    have hdist : src + 1#32 - (dst + 1#32) = src - dst := by ring
    have hkept : Cstr (Bytes.reader (Function.update m dst c)) (.mem (src + 1#32)) l := by
      refine htail.congr fun i hi => Function.update_of_ne ?_ _ _
      rw [← offset_succ]
      exact source_ne (l := c :: l) hapart (Nat.lt_succ_of_le hi)
    have hrest := ih hkept (by rw [hdist]; omega) (Nat.lt_of_succ_lt_succ hf)
    simp only [strcpyLoop, hc, if_pos hne]
    rw [hrest, List.cons_append, put_cons c hlong]

/-- the target is k bytes behind the source, and these are not 0: nor is any byte that will be read -/
theorem strcpyLoop_forever {k : ℕ} (h0 : 0 < k) (hk : dst = src + BitVec.ofNat 32 k) (hm : ∀ j < k, m (src + BitVec.ofNat 32 j) ≠ 0#8)
    (fuel : ℕ) : strcpyLoop fuel dst src m = .error .steps := by
  induction fuel generalizing m dst src with
  | zero => rfl
  | succ fuel ih =>
    have hc : m src ≠ 0#8 := by
      have := hm 0 h0
      rwa [BitVec.add_zero] at this
    simp only [strcpyLoop, if_pos hc]
    apply ih
    · rw [hk]
      ring
    · intro j hj
      rw [← offset_succ]
      by_cases hlast : src + BitVec.ofNat 32 (j + 1) = dst
      · rw [hlast, Function.update_self]
        exact hc
      · rw [Function.update_of_ne hlast]
        refine hm (j + 1) (lt_of_le_of_ne hj fun heq => hlast ?_)
        rw [heq, hk]

/-- the target is the source, or lies apart from it, or below -/
def Clear (dst src : Word) (l : List Byte) : Prop := dst = src ∨ l.length < (dst - src).toNat

theorem Clear.apart (h : Clear dst src l) (hl : l.length < 2 ^ 32) : (src - dst).toNat + (l.length + 1) ≤ 2 ^ 32 := by
  rcases h with rfl | h
  · rw [sub_self]
    change 0 + _ ≤ _
    omega
  · have hneg : src - dst = -(dst - src) := by ring
    have hlt := (dst - src).isLt
    rw [hneg, BitVec.toNat_neg]
    omega

theorem strcpyLoop_inside (h : Cstr (Bytes.reader m) (.mem src) l) (hin : ¬ Clear dst src l) (fuel : ℕ) :
    strcpyLoop fuel dst src m = .error .steps := by
  obtain ⟨hne, hle⟩ := not_or.1 hin
  rw [not_lt] at hle
  have hpos : 0 < (dst - src).toNat := by
    rw [Nat.pos_iff_ne_zero]
    intro hzero
    exact hne (sub_eq_zero.1 (BitVec.eq_of_toNat_eq hzero))
  apply strcpyLoop_forever hpos
  · rw [BitVec.ofNat_toNat, BitVec.setWidth_eq]
    ring
  · intro j hj heq
    have hj' : j < l.length := lt_of_lt_of_le hj hle
    have hbyte := h.reads j l[j] (by rw [List.getElem?_append_left hj', List.getElem?_eq_getElem hj'])
    have hval : m (src + BitVec.ofNat 32 j) = l[j] := Option.some.inj hbyte
    exact h.noNul (by rw [← heq, hval]; exact List.getElem_mem hj')

/-- when strcpy returns, and with what -/
theorem strcpy_copies (h : Cstr (Bytes.reader m) (.mem src) l) (dst : Word) :
    ((∃ fuel r, strcpy fuel dst src m = .ok r) ↔ Clear dst src l) ∧
    (Clear dst src l → (∀ fuel, l.length < fuel → strcpy fuel dst src m = .ok (dst, put m dst (l ++ [0#8]))) ∧
      Cstr (Bytes.reader (put m dst (l ++ [0#8]))) (.mem dst) l) := by
  have hruns : Clear dst src l → ∀ fuel, l.length < fuel → strcpy fuel dst src m = .ok (dst, put m dst (l ++ [0#8])) := by
    intro hclear fuel hf
    rw [strcpy, strcpyLoop_apart h (hclear.apart h.length_lt) hf]
    rfl
  refine ⟨⟨?_, fun hclear => ⟨_, _, hruns hclear _ (Nat.lt_succ_self _)⟩⟩, fun hclear => ⟨hruns hclear, ?_⟩⟩
  · rintro ⟨fuel, r, hr⟩
    by_contra hin
    rw [strcpy, strcpyLoop_inside h hin] at hr
    cases hr
  · exact Cstr.of_put h.noNul h.length_lt

/-- **strcpy** of a string returns exactly if the target does not lie inside it behind its first byte; it then has put the
string and its NUL, as they stood before. -/
theorem strcpy_returns (m : Bytes) (dst src : Word) (l : List Byte) (h : Cstr (Bytes.reader m) (.mem src) l) :
    ((∃ fuel r, strcpy fuel dst src m = .ok r) ↔ Clear dst src l) ∧
    (Clear dst src l → (∀ fuel, l.length < fuel → strcpy fuel dst src m = .ok (dst, put m dst (l ++ [0#8]))) ∧
      Cstr (Bytes.reader (put m dst (l ++ [0#8]))) (.mem dst) l) :=
  strcpy_copies h dst

/-- "ab" at 0x1000 -/
def abMem : Bytes := put (fun _ => 0#8) 0x1000#32 (str "ab" ++ [0#8])

theorem abMem_string : Cstr (Bytes.reader abMem) (.mem 0x1000#32) (str "ab") := Cstr.of_put (by decide) (by decide)

/-- to 0x2000, and to the second byte of the string itself -/
theorem strcpy_returns_ab :
    strcpy 3 0x2000#32 0x1000#32 abMem = .ok (0x2000#32, put abMem 0x2000#32 (str "ab" ++ [0#8])) ∧
      ¬ ∃ fuel r, strcpy fuel 0x1001#32 0x1000#32 abMem = .ok r :=
  ⟨((strcpy_returns abMem 0x2000#32 0x1000#32 (str "ab") abMem_string).2 (Or.inr (by decide))).1 3 (by decide),
    fun h => absurd ((strcpy_returns abMem 0x1001#32 0x1000#32 (str "ab") abMem_string).1.1 h)
      (not_or.2 ⟨by decide, by decide⟩)⟩

end Strcpy

/-! ## strcat -/

section Strcat

variable {m : Bytes} {s : Word} {l : List Byte}

theorem strlen_run (h : Cstr (Bytes.reader m) (.mem s) l) {fuel : ℕ} (hf : l.length < fuel) (n : Word) :
    strlen m fuel s n = .ok (n + BitVec.ofNat 32 l.length) := by
  induction l generalizing s fuel n with
  | nil =>
    obtain ⟨fuel, rfl⟩ := Nat.exists_eq_add_of_lt hf
    rw [strlen, if_neg (not_not.2 h.mem_nil), List.length_nil, BitVec.add_zero]
  | cons c l ih =>
    obtain ⟨fuel, rfl⟩ : ∃ n, fuel = n + 1 := ⟨fuel - 1, by omega⟩
    obtain ⟨hc, hne, htail⟩ := h.mem_cons
    rw [List.length_cons] at hf
    rw [strlen, if_pos (by rw [hc]; exact hne), ih htail (Nat.lt_of_succ_lt_succ hf), List.length_cons, offset_succ n l.length]

theorem strlen_steps (h : Cstr (Bytes.reader m) (.mem s) l) {fuel : ℕ} (hf : fuel ≤ l.length) {n : Word} :
    strlen m fuel s n = .error .steps := by
  induction l generalizing s fuel n with
  | nil => rw [Nat.le_zero.1 hf]; rfl
  | cons c l ih =>
    obtain ⟨hc, hne, htail⟩ := h.mem_cons
    cases fuel with
    | zero => rfl
    | succ fuel =>
      rw [strlen, if_pos (by rw [hc]; exact hne)]
      exact ih htail (Nat.le_of_succ_le_succ hf)

/-- **strcat** of two strings returns exactly if the end of the first is no place inside the second behind its first byte; if
the two fit, the target then has the one behind the other. -/
theorem strcat_returns (m : Bytes) (dst src : Word) (l l' : List Byte) (hd : Cstr (Bytes.reader m) (.mem dst) l)
    (hs : Cstr (Bytes.reader m) (.mem src) l') :
    ((∃ fuel r, strcat fuel dst src m = .ok r) ↔ Clear (dst + BitVec.ofNat 32 l.length) src l') ∧
    (Clear (dst + BitVec.ofNat 32 l.length) src l' → l.length + l'.length < 2 ^ 32 → ∃ mem,
      (∀ fuel, max l.length l'.length < fuel → strcat fuel dst src m = .ok (dst, mem)) ∧
      Cstr (Bytes.reader mem) (.mem dst) (l ++ l') ∧
      ∀ x, (∀ i ≤ l'.length, x ≠ dst + BitVec.ofNat 32 l.length + BitVec.ofNat 32 i) → mem x = m x) := by
  obtain ⟨hiff, hcopy⟩ := strcpy_copies hs (dst + BitVec.ofNat 32 l.length)
  have hlen : ∀ fuel, l.length < fuel → strlen m fuel dst 0#32 = .ok (BitVec.ofNat 32 l.length) := by
    intro fuel hf
    rw [strlen_run hd hf, BitVec.zero_add]
  have hrun : ∀ fuel, l.length < fuel → strcat fuel dst src m =
      (strcpy fuel (dst + BitVec.ofNat 32 l.length) src m).map fun r => (dst, r.2) := by
    intro fuel hf
    rw [strcat, hlen fuel hf]
    change (strcpy fuel (dst + BitVec.ofNat 32 l.length) src m >>= fun r => Except.ok (dst, r.2)) = _
    cases strcpy fuel (dst + BitVec.ofNat 32 l.length) src m <;> rfl
  constructor
  · constructor
    · rintro ⟨fuel, r, hr⟩
      apply hiff.1
      obtain ⟨len, hlen', hr'⟩ := Prog.except_bind_ok.1 hr
      by_cases hf : l.length < fuel
      · rw [hrun fuel hf] at hr
        cases hcpy : strcpy fuel (dst + BitVec.ofNat 32 l.length) src m with
        | error e => rw [hcpy] at hr; cases hr
        | ok v => exact ⟨fuel, v, hcpy⟩
      · -- strlen alone takes more rounds
        rw [strlen_steps hd (not_lt.1 hf)] at hlen'
        cases hlen'
    · intro hclear
      have hfuel : l.length < max l.length l'.length + 1 := Nat.lt_succ_of_le (le_max_left _ _)
      refine ⟨max l.length l'.length + 1, (dst, put m (dst + BitVec.ofNat 32 l.length) (l' ++ [0#8])), ?_⟩
      rw [hrun _ hfuel, (hcopy hclear).1 _ (Nat.lt_succ_of_le (le_max_right _ _))]
      rfl
  · intro hclear hfit
    have hrow : (l' ++ [0#8]).length = l'.length + 1 := by
      rw [List.length_append]
      rfl
    refine ⟨put m (dst + BitVec.ofNat 32 l.length) (l' ++ [0#8]), ?_, ⟨?_, ?_⟩, ?_⟩
    · intro fuel hf
      obtain ⟨hl, hl'⟩ := max_lt_iff.1 hf
      rw [hrun fuel hl, (hcopy hclear).1 fuel hl']
      rfl
    · rw [List.mem_append, not_or]
      exact ⟨hd.noNul, hs.noNul⟩
    · intro i c hc
      rw [List.append_assoc] at hc
      change some (put m (dst + BitVec.ofNat 32 l.length) (l' ++ [0#8]) (dst + BitVec.ofNat 32 i)) = some c
      by_cases hi : i < l.length
      · -- a byte of the first string
        rw [List.getElem?_append_left hi] at hc
        have hold : m (dst + BitVec.ofNat 32 i) = c := by
          refine Option.some.inj (hd.reads i c ?_)
          rw [List.getElem?_append_left hi]
          exact hc
        rw [put_ne, hold]
        intro j hj heq
        rw [hrow] at hj
        rw [BitVec.add_assoc, ← BitVec.ofNat_add] at heq
        exact absurd (offset_inj (by omega) (by omega) heq) (by omega)
      · obtain ⟨j, rfl⟩ := Nat.exists_eq_add_of_le (not_lt.1 hi)
        rw [List.getElem?_append_right (Nat.le_add_right _ _), Nat.add_sub_cancel_left] at hc
        have hj := (List.getElem?_eq_some_iff.1 hc).1
        rw [hrow] at hj
        rw [BitVec.ofNat_add, ← BitVec.add_assoc]
        exact congrArg some (put_get hc (by omega))
    · intro x hx
      apply put_ne
      intro i hi
      rw [hrow] at hi
      exact hx i (Nat.lt_succ_iff.1 hi)

/-- to an empty string at 0x2000, and to itself -/
theorem strcat_returns_ab :
    (∃ mem, (∀ fuel, 2 < fuel → strcat fuel 0x2000#32 0x1000#32 abMem = .ok (0x2000#32, mem)) ∧
      Cstr (Bytes.reader mem) (.mem 0x2000#32) (str "ab")) ∧
    ¬ ∃ fuel r, strcat fuel 0x1000#32 0x1000#32 abMem = .ok r := by
  have hempty : Cstr (Bytes.reader abMem) (.mem 0x2000#32) [] := by
    refine ⟨List.not_mem_nil, fun i c hc => ?_⟩
    obtain ⟨hi, rfl⟩ := List.getElem?_eq_some_iff.1 hc
    obtain rfl : i = 0 := Nat.lt_one_iff.1 hi
    exact congrArg some (by decide : abMem (0x2000#32 + BitVec.ofNat 32 0) = 0#8)
  obtain ⟨mem, hrun, hmem, -⟩ := (strcat_returns abMem 0x2000#32 0x1000#32 [] (str "ab") hempty abMem_string).2
    (Or.inr (by decide)) (by decide)
  refine ⟨⟨mem, hrun, hmem⟩, fun h => ?_⟩
  exact absurd ((strcat_returns abMem 0x1000#32 0x1000#32 (str "ab") (str "ab") abMem_string abMem_string).1.1 h)
    (not_or.2 ⟨by decide, by decide⟩)

end Strcat

/-! ## Copies of a bounded size -/

section Bounded

variable {m : Bytes} {dst src n : Word} {l : List Byte} {k : ℕ}

/-- no byte of the target is one of the string or its NUL -/
def Separate (dst : Word) (k : ℕ) (src : Word) (l : List Byte) : Prop :=
  ∀ i < k, ∀ j ≤ l.length, dst + BitVec.ofNat 32 i ≠ src + BitVec.ofNat 32 j

theorem Separate.head (h : Separate dst (k + 1) src l) {j : ℕ} (hj : j ≤ l.length) : src + BitVec.ofNat 32 j ≠ dst := by
  intro heq
  refine h 0 (Nat.succ_pos k) j hj ?_
  rw [BitVec.add_zero, heq]

theorem Separate.tail {c : Byte} (h : Separate dst (k + 1) src (c :: l)) : Separate (dst + 1#32) k (src + 1#32) l := by
  intro i hi j hj heq
  rw [← offset_succ dst i, ← offset_succ src j] at heq
  exact h (i + 1) (Nat.succ_lt_succ hi) (j + 1) (Nat.succ_le_succ hj) heq

/-- behind a store into the target -/
theorem Separate.congr (h : Separate dst (k + 1) src l) (hs : Cstr (Bytes.reader m) (.mem src) l) (b : Byte) :
    Cstr (Bytes.reader (Function.update m dst b)) (.mem src) l :=
  hs.congr fun _ hi => Function.update_of_ne (h.head hi) _ _

theorem strlcpyLoop_run (hs : Cstr (Bytes.reader m) (.mem src) l) (hd : Separate dst k src l) (hk : k < 2 ^ 32) :
    strlcpyLoop (k + 1) dst src m = (dst + BitVec.ofNat 32 (min l.length k), put m dst (l.take k)) := by
  induction k generalizing m dst src l with
  | zero => rw [strlcpyLoop, if_neg fun h => lt_irrefl 0 h.1, Nat.min_zero, BitVec.add_zero, List.take_zero, put_nil]
  | succ k ih =>
    cases l with
    | nil =>
      rw [strlcpyLoop, if_neg fun h => h.2 hs.mem_nil, List.length_nil, Nat.zero_min, BitVec.add_zero, List.take_nil, put_nil]
    | cons c l =>
      obtain ⟨hc, hne, -⟩ := hs.mem_cons
      obtain ⟨-, -, htail⟩ := (hd.congr hs c).mem_cons
      have hshort : (l.take k).length < 2 ^ 32 := by
        rw [List.length_take]
        omega
      rw [strlcpyLoop, if_pos ⟨Nat.succ_pos k, by rw [hc]; exact hne⟩, hc, ih htail hd.tail (by omega), List.take_succ_cons,
        put_cons c hshort, List.length_cons, Nat.succ_min_succ, offset_succ dst (min l.length k)]

theorem strncpyLoop_nil (h0 : m src = 0#8) (hd : Separate dst k src []) (hk : k ≤ 2 ^ 32) :
    strncpyLoop k dst src m = put m dst (List.replicate k 0#8) := by
  induction k generalizing m dst with
  | zero => rfl
  | succ k ih =>
    have hsrc : src ≠ dst := by
      have := hd.head (j := 0) (le_refl 0)
      rwa [BitVec.add_zero] at this
    have hnul : Function.update m dst (m src) src = 0#8 := by
      rw [Function.update_of_ne hsrc, h0]
    have hrest : Separate (dst + 1#32) k src [] := by
      intro i hi j hj heq
      rw [← offset_succ dst i] at heq
      exact hd (i + 1) (Nat.succ_lt_succ hi) j hj heq
    have hshort : (List.replicate k 0#8).length < 2 ^ 32 := by
      rw [List.length_replicate]
      omega
    simp only [strncpyLoop, hnul, if_neg (not_not.2 rfl)]
    rw [ih hnul hrest (by omega), h0, List.replicate_succ, put_cons 0#8 hshort]

theorem strncpyLoop_run (hs : Cstr (Bytes.reader m) (.mem src) l) (hd : Separate dst k src l) (hk : k ≤ 2 ^ 32) :
    strncpyLoop k dst src m = put m dst (l.take k ++ List.replicate (k - l.length) 0#8) := by
  induction l generalizing m dst src k with
  | nil => rw [List.take_nil, List.nil_append]; exact strncpyLoop_nil hs.mem_nil hd hk
  | cons c l ih =>
    cases k with
    | zero => rw [List.take_zero, Nat.zero_sub]; rfl
    | succ k =>
      obtain ⟨hc, hne, -⟩ := hs.mem_cons
      obtain ⟨hc', -, htail⟩ := (hd.congr hs c).mem_cons
      have hshort : (l.take k ++ List.replicate (k - l.length) 0#8).length < 2 ^ 32 := by
        rw [List.length_append, List.length_take, List.length_replicate]
        omega
      simp only [strncpyLoop, hc, hc', if_pos hne]
      rw [ih htail hd.tail (by omega), List.take_succ_cons, List.length_cons, Nat.succ_sub_succ, List.cons_append,
        put_cons c hshort]

/-- sprintputch stores the characters as long as there is room -/
theorem feed_sprint {b : Sprintbuf} (cs : List Word) (h : b.buf.toNat + k = b.ebuf.toNat) :
    (feed sprintSink b cs).mem = put b.mem b.buf ((cs.take k).map fun c => c.setWidth 8) ∧
      (feed sprintSink b cs).buf = b.buf + BitVec.ofNat 32 (min cs.length k) ∧
      (feed sprintSink b cs).cnt = b.cnt + BitVec.ofNat 32 cs.length := by
  have hlt := b.ebuf.isLt
  induction cs generalizing b k with
  | nil =>
    rw [List.take_nil, List.length_nil, Nat.zero_min, BitVec.add_zero, BitVec.add_zero]
    exact ⟨rfl, rfl, rfl⟩
  | cons c cs ih =>
    change (feed sprintSink (sprintputch c b) cs).mem = _ ∧ _
    have hcnt : b.cnt + 1#32 + BitVec.ofNat 32 cs.length = b.cnt + BitVec.ofNat 32 (c :: cs).length :=
      (offset_succ b.cnt cs.length).symm
    cases k with
    | zero =>
      have hfull : ¬ b.buf < b.ebuf := by
        rw [BitVec.lt_def]
        omega
      have hput : sprintputch c b = { b with cnt := b.cnt + 1#32, out := b.out ++ [c] } := if_neg hfull
      have hsame : (sprintputch c b).mem = b.mem ∧ (sprintputch c b).buf = b.buf ∧ (sprintputch c b).ebuf = b.ebuf ∧
          (sprintputch c b).cnt = b.cnt + 1#32 := by
        rw [hput]
        exact ⟨rfl, rfl, rfl, rfl⟩
      obtain ⟨hm, hb, he, hn⟩ := hsame
      obtain ⟨hmem, hbuf, hcount⟩ := ih (b := sprintputch c b) (k := 0) (by rw [hb, he]; exact h) (by rw [he]; exact hlt)
      refine ⟨?_, ?_, ?_⟩
      · rw [hmem, hm, hb, List.take_zero, List.take_zero]
      · rw [Nat.min_zero] at hbuf ⊢
        rw [← hb]
        exact hbuf
      · rw [← hcnt, ← hn]
        exact hcount
    | succ k =>
      have hroom : b.buf < b.ebuf := by
        rw [BitVec.lt_def]
        omega
      have hput : sprintputch c b = { b with
          cnt := b.cnt + 1#32
          out := b.out ++ [c]
          mem := Function.update b.mem b.buf (c.setWidth 8)
          buf := b.buf + 1#32 } := if_pos hroom
      have hnext : (sprintputch c b).mem = Function.update b.mem b.buf (c.setWidth 8) ∧ (sprintputch c b).buf = b.buf + 1#32 ∧
          (sprintputch c b).ebuf = b.ebuf ∧ (sprintputch c b).cnt = b.cnt + 1#32 := by
        rw [hput]
        exact ⟨rfl, rfl, rfl, rfl⟩
      obtain ⟨hm, hb, he, hn⟩ := hnext
      have hplace : (b.buf + 1#32).toNat = b.buf.toNat + 1 := by
        rw [BitVec.toNat_add]
        change (b.buf.toNat + 1) % 2 ^ 32 = _
        omega
      obtain ⟨hmem, hbuf, hcount⟩ := ih (b := sprintputch c b) (k := k) (by rw [hb, he, hplace]; omega) (by rw [he]; exact hlt)
      have hshort : ((cs.take k).map fun c => c.setWidth 8).length < 2 ^ 32 := by
        rw [List.length_map, List.length_take]
        omega
      refine ⟨?_, ?_, ?_⟩
      · rw [hmem, hm, hb, List.take_succ_cons, List.map_cons, put_cons _ hshort]
      · rw [List.length_cons, Nat.succ_min_succ, offset_succ b.buf (min cs.length k), ← hb]
        exact hbuf
      · rw [← hcnt, ← hn]
        exact hcount

theorem put_concat (m : Bytes) (a : Word) {bs : List Byte} (hbs : bs.length < 2 ^ 32) (b : Byte) :
    put m a (bs ++ [b]) = Function.update (put m a bs) (a + BitVec.ofNat 32 bs.length) b := by
  have hfit : bs.length + [b].length ≤ 2 ^ 32 := hbs
  rw [put_append hfit, put_singleton]

/-- snprintf with "%s" -/
theorem vsnprintf_string (hb : Buffer dst n) (hs : Cstr (Bytes.reader m) (.mem src) l) (hsrc : src ≠ 0#32)
    (hl : l.length < 2 ^ 31) (hd : Separate dst n.toNat src l) : ∃ N, ∀ fuel, N ≤ fuel → ∃ b,
      vsnprintf fuel dst n (.lit (str "%s") 0) ⟨fun _ => src, fun _ => .mem src⟩ m = .ok (BitVec.ofNat 32 l.length, b) ∧
        b.mem = put m dst (l.take (n.toNat - 1) ++ [0#8]) := by
  let a : Args := ⟨fun _ => src, fun _ => l⟩
  have hpos := hb.size_pos
  have hn := n.isLt
  have hroom : (sprintStart dst n m).buf.toNat + (n.toNat - 1) = (sprintStart dst n m).ebuf.toNat := hb.end_toNat.symm
  have hreqs : requests none (str "%s") 0 = [(chr 's', 0)] := by decide
  have hproper : a.Proper (requests none (str "%s") 0) := by
    rw [hreqs]
    refine ⟨fun i h => ?_, fun i _ => hs.noNul⟩
    exact absurd (Prod.mk.inj (List.mem_singleton.1 h)).1 (by decide)
  -- whatever is stored into the target, the string stays
  have htext : Text sprintSink (sprintStart dst n m) (.mem src) (l ++ [0#8]) := by
    intro cs
    rw [sprint_reader, (feed_sprint cs hroom).1]
    refine (hs.congr fun j hj => put_ne fun i hi heq => ?_).reads
    rw [List.length_map, List.length_take] at hi
    exact hd i (by omega) j hj heq.symm
  have hpassed : Passed sprintSink (sprintStart dst n m) ⟨fun _ => src, fun _ => .mem src⟩ a (requests none (str "%s") 0) := by
    refine ⟨rfl, fun i _ => ?_⟩
    have harg : strArg (.mem src) = .mem src := if_neg fun h => hsrc (Ptr.mem.inj h)
    change Text sprintSink _ (strArg (.mem src)) (l ++ [0#8])
    rw [harg]
    exact htext
  obtain ⟨N, hN⟩ := vprintfmt_prints (by decide : 0#8 ∉ str "%s") hproper (Text.lit _) hpassed
  have hrender : render a 0 (pieces (str "%s")) = l.map (shown false) := by
    have hstring : render a 0 (pieces (str "%s" ++ [])) = l.map (shown false) ++ render a 1 (pieces []) := render_string hl []
    rw [List.append_nil] at hstring
    exact hstring.trans (List.append_nil _)
  rw [hrender] at hN
  have hbytes : ((l.map (shown false)).take (n.toNat - 1)).map (fun c => c.setWidth 8) = l.take (n.toNat - 1) := by
    have hbyte : ∀ c : Byte, (shown false c).setWidth 8 = c := by decide +kernel
    rw [← List.map_take, List.map_map]
    exact (List.map_congr_left fun c _ => hbyte c).trans (List.map_id _)
  obtain ⟨hmem, hbuf, hcnt⟩ := feed_sprint (l.map (shown false)) hroom
  rw [hbytes] at hmem
  rw [List.length_map] at hbuf hcnt
  have hlen : (l.take (n.toNat - 1)).length = min l.length (n.toNat - 1) := by
    rw [List.length_take, min_comm]
  refine ⟨N, fun fuel hfuel => ?_⟩
  have hrun := hN fuel hfuel
  rw [vsnprintf, if_neg hb.not_small, hrun]
  refine ⟨_, congrArg Except.ok (Prod.ext (hcnt.trans (BitVec.zero_add _)) rfl), ?_⟩
  rw [put_concat m dst (by omega), hlen]
  change Function.update (feed sprintSink _ _).mem (feed sprintSink _ _).buf 0#8 = _
  rw [hmem, hbuf]
  rfl

/-- **Copies of a bounded size**, of a string that lies apart from the target. strlcpy leaves the memory that snprintf leaves
with "%s", and the number it returns is cut where that of snprintf is not. strncpy leaves the same string if there is room
for its NUL, and otherwise no NUL in the whole target. -/
theorem bounded_copies (m : Bytes) (dst src n : Word) (l : List Byte) (hb : Buffer dst n)
    (hs : Cstr (Bytes.reader m) (.mem src) l) (hsrc : src ≠ 0#32) (hl : l.length < 2 ^ 31) (hd : Separate dst n.toNat src l) :
    strlcpy dst src n m = (BitVec.ofNat 32 (min l.length (n.toNat - 1)), put m dst (l.take (n.toNat - 1) ++ [0#8])) ∧
    Cstr (Bytes.reader (strlcpy dst src n m).2) (.mem dst) (l.take (n.toNat - 1)) ∧
    (∃ N, ∀ fuel, N ≤ fuel → ∃ b, vsnprintf fuel dst n (.lit (str "%s") 0) ⟨fun _ => src, fun _ => .mem src⟩ m =
        .ok (BitVec.ofNat 32 l.length, b) ∧ b.mem = (strlcpy dst src n m).2) ∧
    (strncpy dst src n m).2 = put m dst (l.take n.toNat ++ List.replicate (n.toNat - l.length) 0#8) ∧
    (l.length < n.toNat → Cstr (Bytes.reader (strncpy dst src n m).2) (.mem dst) l) ∧
    (n.toNat ≤ l.length → ∀ i < n.toNat, (strncpy dst src n m).2 (dst + BitVec.ofNat 32 i) ≠ 0#8) := by
  have hpos := hb.size_pos
  have hn := n.isLt
  have hlen : (l.take (n.toNat - 1)).length = min l.length (n.toNat - 1) := by
    rw [List.length_take, min_comm]
  have hloop : strlcpyLoop n.toNat dst src m =
      (dst + BitVec.ofNat 32 (min l.length (n.toNat - 1)), put m dst (l.take (n.toNat - 1))) := by
    have hsplit : n.toNat = n.toNat - 1 + 1 := by omega
    have hd' : Separate dst (n.toNat - 1) src l := fun i hi => hd i (by omega)
    have hrun := strlcpyLoop_run hs hd' (by omega)
    rwa [← hsplit] at hrun
  have hstrlcpy : strlcpy dst src n m =
      (BitVec.ofNat 32 (min l.length (n.toNat - 1)), put m dst (l.take (n.toNat - 1) ++ [0#8])) := by
    have hlt : 0#32 < n := by
      rw [BitVec.lt_def]
      exact hpos
    rw [strlcpy, if_pos hlt, hloop, put_concat m dst (by omega), hlen]
    refine Prod.ext ?_ rfl
    exact add_sub_cancel_left _ _
  have hstrncpy : (strncpy dst src n m).2 = put m dst (l.take n.toNat ++ List.replicate (n.toNat - l.length) 0#8) :=
    strncpyLoop_run hs hd (by omega)
  refine ⟨hstrlcpy, ?_, ?_, hstrncpy, ?_, ?_⟩
  · rw [hstrlcpy]
    exact Cstr.of_put (fun h => hs.noNul (List.mem_of_mem_take h)) (by omega)
  · rw [hstrlcpy]
    exact vsnprintf_string hb hs hsrc hl hd
  · intro hfit
    obtain ⟨k, hk⟩ := Nat.exists_eq_add_of_lt hfit
    have hrow : l.take n.toNat ++ List.replicate (n.toNat - l.length) 0#8 = l ++ [0#8] ++ List.replicate k 0#8 := by
      have hpad : n.toNat - l.length = k + 1 := by omega
      rw [List.take_of_length_le (le_of_lt hfit), hpad, List.replicate_succ, List.append_assoc]
      rfl
    rw [hstrncpy, hrow]
    refine ⟨hs.noNul, fun i c hc => congrArg some (put_get ?_ ?_)⟩
    · rw [List.getElem?_append_left (List.getElem?_eq_some_iff.1 hc).1]
      exact hc
    · have hi := (List.getElem?_eq_some_iff.1 hc).1
      rw [List.length_append, List.length_singleton] at hi
      omega
  · intro hfull i hi hzero
    have hpad : n.toNat - l.length = 0 := by omega
    have hi' : i < l.length := by omega
    have hbyte : put m dst (l.take n.toNat) (dst + BitVec.ofNat 32 i) = l[i] := by
      refine put_get ?_ (by omega)
      rw [List.getElem?_take_of_lt hi, List.getElem?_eq_getElem hi']
    rw [hstrncpy, hpad, List.replicate_zero, List.append_nil, hbyte] at hzero
    exact hs.noNul (by rw [← hzero]; exact List.getElem_mem hi')

/-- "ab" into two bytes at 0x2000 -/
theorem bounded_copies_ab : strlcpy 0x2000#32 0x1000#32 2#32 abMem = (1#32, put abMem 0x2000#32 [chr 'a', 0#8]) ∧
    ∀ i < 2, (strncpy 0x2000#32 0x1000#32 2#32 abMem).2 (0x2000#32 + BitVec.ofNat 32 i) ≠ 0#8 := by
  have hd : Separate 0x2000#32 2 0x1000#32 (str "ab") := by
    intro i hi j hj heq
    have hlen : (str "ab").length = 2 := by decide
    have hnat := congrArg BitVec.toNat heq
    rw [BitVec.toNat_add, BitVec.toNat_add, BitVec.toNat_ofNat, BitVec.toNat_ofNat] at hnat
    change (0x2000 + i % 2 ^ 32) % 2 ^ 32 = (0x1000 + j % 2 ^ 32) % 2 ^ 32 at hnat
    omega
  obtain ⟨hstrlcpy, -, -, -, -, hfull⟩ := bounded_copies abMem 0x2000#32 0x1000#32 2#32 (str "ab")
    ⟨by decide, by decide, by decide⟩ abMem_string (by decide) (by decide) hd
  exact ⟨hstrlcpy, hfull (by decide)⟩

end Bounded

end Jos
