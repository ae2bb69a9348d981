/-
The command parser of the kernel monitor (runcmd of kern/monitor.c).

runcmd cuts the command buffer into words in place: the whitespace behind a word becomes its NUL only when the next round
gobbles it. `Parsed` is what holds at the head of the loop. Results:
- `gobble_parsed`, `scanArg_parsed`: the two scans of a round;
- `parse_parsed`: the loop ends at the end of the buffer, or at one word too many;
- `runcmd_replies`: the arguments are the words, and what a line comes to is its `reply`;
- `runcmd_parses`: so the first command of that name is called.
-/
import Jos.Lib.Words
import Jos.Printf.Texts
import Jos.String.Compare

namespace Jos

open Jos.Lib

/-! ## kern/monitor.c -/

def whitespace : List Byte := str "\t\r\n "

def maxArgs : ℕ := 16

/-- `struct Command`; its function is known by its place in the table -/
structure Command where
  name : List Byte
  desc : List Byte

def commands : List Command :=
  [⟨str "help", str "Display this list of commands"⟩, ⟨str "kerninfo", str "Display information about the kernel"⟩,
    ⟨str "backtrace", str "Display stack backtrace information"⟩]

structure Parse where
  mem : Bytes
  buf : Word
  argc : ℕ
  argv : ℕ → Word

/-- `argv[argc] = a` -/
def Parse.setArg (s : Parse) (a : Word) : Except Stop Parse :=
  if s.argc < maxArgs then .ok { s with argv := Function.update s.argv s.argc a } else .error .fault

/-- `strchr(WHITESPACE, c)` -/
def isWhite (fuel : ℕ) (m : Bytes) (c : Byte) : Except Stop Bool := do
  return (← strchr (Bytes.reader m) c fuel (.lit whitespace 0)) ≠ Ptr.null

/-- `while (*buf && strchr(WHITESPACE, *buf)) *buf++ = 0` -/
def gobble (fuel : ℕ) : ℕ → Parse → Except Stop Parse
  | 0, _ => .error .steps
  | n + 1, s =>
    if s.mem s.buf = 0#8 then .ok s
    else do
      if ← isWhite fuel s.mem (s.mem s.buf) then
        gobble fuel n { s with mem := Function.update s.mem s.buf 0#8, buf := s.buf + 1#32 }
      else return s

/-- `while (*buf && !strchr(WHITESPACE, *buf)) buf++` -/
def scanArg (fuel : ℕ) : ℕ → Parse → Except Stop Parse
  | 0, _ => .error .steps
  | n + 1, s =>
    if s.mem s.buf = 0#8 then .ok s
    else do
      if ← isWhite fuel s.mem (s.mem s.buf) then return s
      else scanArg fuel n { s with buf := s.buf + 1#32 }

/-- `while (1)`; false for too many arguments -/
def parse (fuel : ℕ) : ℕ → Parse → Except Stop (Parse × Bool)
  | 0, _ => .error .steps
  | n + 1, s => do
    let s ← gobble fuel fuel s
    if s.mem s.buf = 0#8 then return (s, true)
    else if s.argc = maxArgs - 1 then return (s, false)
    else do
      let s ← s.setArg s.buf
      let s ← scanArg fuel fuel { s with argc := s.argc + 1 }
      parse fuel n s

/-- the number of the first command of that name, from command i on -/
def lookup (fuel : ℕ) (m : Bytes) (arg : Word) : List Command → ℕ → Except Stop (Option ℕ)
  | [], _ => .ok none
  | c :: cs, i => do
    if (← strcmp (Bytes.reader m) fuel (.mem arg) (.lit c.name 0)) = 0#32 then return some i
    else lookup fuel m arg cs (i + 1)

inductive Result where
  /-- `return 0`, with what has been printed -/
  | zero (out : List Word)
  /-- `return commands[i].func(argc, argv, tf)` -/
  | call (i : ℕ)
deriving DecidableEq

/-- the command, once the buffer is parsed -/
def dispatch (fuel : ℕ) (s : Parse) : Except Stop Result :=
  if s.argc = 0 then .ok (.zero [])
  else do
    match ← lookup fuel s.mem (s.argv 0) commands 0 with
    | some i => return .call i
    | none => do
      let r ← vcprintf fuel (.lit (str "Unknown command '%s'\n") 0) (VaList.ofWords fun _ => s.argv 0) s.mem
      return .zero r.2.out

def runcmd (fuel : ℕ) (m : Bytes) (buf : Word) (argv : ℕ → Word) : Except Stop (Parse × Result) := do
  let s ← Parse.setArg { mem := m, buf := buf, argc := 0, argv := argv } 0#32
  let (s, room) ← parse fuel fuel s
  if room then do
    let s ← s.setArg 0#32
    return (s, ← dispatch fuel s)
  else do
    let r ← vcprintf fuel (.lit (str "Too many arguments (max %d)\n") 0)
      (VaList.ofWords fun _ => BitVec.ofNat 32 maxArgs) s.mem
    return (s, .zero r.2.out)

/-! ## The buffer -/

/-- whitespace, as a set of characters -/
def white (c : Byte) : Bool := whitespace.contains c

theorem white_iff {c : Byte} : white c = true ↔ c ∈ whitespace := List.contains_iff_mem

/-- the string l at buf, with the whitespace among its first k characters turned into NULs -/
structure Cut (m : Bytes) (buf : Word) (l : List Byte) (mem : Bytes) (k : ℕ) : Prop where
  done : ∀ i c, i < k → l[i]? = some c → mem (buf + BitVec.ofNat 32 i) = if white c then 0#8 else c
  left : ∀ i c, k ≤ i → l[i]? = some c → mem (buf + BitVec.ofNat 32 i) = c
  nul : mem (buf + BitVec.ofNat 32 l.length) = 0#8
  rest : ∀ a, (∀ i < l.length, a ≠ buf + BitVec.ofNat 32 i) → mem a = m a

section Buffer

variable {m : Bytes} {buf : Word} {l : List Byte} {mem : Bytes} {k : ℕ}

theorem ne_nul {c : Byte} (h0 : 0#8 ∉ l) (hc : l[k]? = some c) : c ≠ 0#8 := by
  rintro rfl
  exact h0 (List.mem_of_getElem? hc)

/-- a string is shorter than the memory -/
theorem length_lt (h0 : 0#8 ∉ l) (h : Reads (Bytes.reader m) (.mem buf) (l ++ [0#8])) : l.length < 2 ^ 32 := by
  by_contra hge
  have hge := not_lt.1 hge
  -- the NUL would stand on a character
  have hnul : m (buf + BitVec.ofNat 32 l.length) = 0#8 :=
    Option.some.inj (h l.length 0#8 List.getElem?_concat_length)
  have hlt : l.length - 2 ^ 32 < l.length := by omega
  have hchar : m (buf + BitVec.ofNat 32 (l.length - 2 ^ 32)) = l[l.length - 2 ^ 32] :=
    Option.some.inj (h _ _ ((List.getElem?_append_left hlt).trans (List.getElem?_eq_getElem hlt)))
  have hsame : BitVec.ofNat 32 (l.length - 2 ^ 32) = BitVec.ofNat 32 l.length := by
    apply BitVec.eq_of_toNat_eq
    rw [BitVec.toNat_ofNat, BitVec.toNat_ofNat]
    omega
  rw [hsame, hnul] at hchar
  exact h0 (hchar ▸ List.getElem_mem hlt)

theorem Cut.start (h : Reads (Bytes.reader m) (.mem buf) (l ++ [0#8])) : Cut m buf l m 0 where
  done i c hi _ := absurd hi (Nat.not_lt_zero i)
  left i c _ hc := by
    have hi := (List.getElem?_eq_some_iff.1 hc).1
    exact Option.some.inj (h i c ((List.getElem?_append_left hi).trans hc))
  nul := Option.some.inj (h l.length 0#8 List.getElem?_concat_length)
  rest a _ := rfl

/-- a whitespace character becomes a NUL -/
theorem Cut.gobble (hl : l.length < 2 ^ 32) (h : Cut m buf l mem k) {c : Byte} (hk : l[k]? = some c) (hc : white c) :
    Cut m buf l (Function.update mem (buf + BitVec.ofNat 32 k) 0#8) (k + 1) := by
  have hklt := (List.getElem?_eq_some_iff.1 hk).1
  have hne : ∀ i ≤ l.length, i ≠ k → buf + BitVec.ofNat 32 i ≠ buf + BitVec.ofNat 32 k := by
    intro i hi hik heq
    exact hik (offset_inj (by omega) (by omega) heq)
  refine ⟨?_, ?_, ?_, ?_⟩
  · intro i d hi hd
    have hilt := (List.getElem?_eq_some_iff.1 hd).1
    rcases Nat.lt_succ_iff_lt_or_eq.1 hi with hi | rfl
    · rw [Function.update_of_ne (hne i (le_of_lt hilt) (Nat.ne_of_lt hi))]
      exact h.done i d hi hd
    · obtain rfl : c = d := Option.some.inj (hk.symm.trans hd)
      rw [Function.update_self, if_pos hc]
  · intro i d hi hd
    have hilt := (List.getElem?_eq_some_iff.1 hd).1
    rw [Function.update_of_ne (hne i (le_of_lt hilt) (by omega))]
    exact h.left i d (by omega) hd
  · rw [Function.update_of_ne (hne _ (le_refl _) (by omega))]
    exact h.nul
  · intro a ha
    rw [Function.update_of_ne (ha k hklt)]
    exact h.rest a ha

/-- a character of a word stays -/
theorem Cut.skip (h : Cut m buf l mem k) {c : Byte} (hk : l[k]? = some c) (hc : ¬ white c) : Cut m buf l mem (k + 1) := by
  refine ⟨fun i d hi hd => ?_, fun i d hi hd => h.left i d (by omega) hd, h.nul, h.rest⟩
  rcases Nat.lt_succ_iff_lt_or_eq.1 hi with hi | rfl
  · exact h.done i d hi hd
  · obtain rfl : c = d := Option.some.inj (hk.symm.trans hd)
    rw [if_neg hc]
    exact h.left i c (le_refl i) hd

/-- the character at the cursor -/
theorem Cut.cursor (h : Cut m buf l mem k) (hk : k ≤ l.length) :
    (∃ c, l[k]? = some c ∧ mem (buf + BitVec.ofNat 32 k) = c) ∨ (k = l.length ∧ mem (buf + BitVec.ofNat 32 k) = 0#8) := by
  rcases Nat.lt_or_eq_of_le hk with hlt | rfl
  · exact Or.inl ⟨l[k], List.getElem?_eq_getElem hlt, h.left k _ (le_refl k) (List.getElem?_eq_getElem hlt)⟩
  · exact Or.inr ⟨rfl, h.nul⟩

theorem isWhite_eq (m : Bytes) (c : Byte) {fuel : ℕ} (hf : 4 < fuel) : isWhite fuel m c = .ok (white c) := by
  have hlit : Reads (Bytes.reader m) (.lit whitespace 0) (whitespace ++ [0#8]) := Reads.lit fun _ => rfl
  have h0 : 0#8 ∉ whitespace := by decide
  rw [isWhite]
  refine Prog.except_bind_ok.2 ?_
  rcases strchr_reads h0 hlit (lt_of_le_of_lt (by decide) hf) c with ⟨i, -, hrun, hmem⟩ | ⟨hrun, hmem⟩
  · refine ⟨_, hrun, ?_⟩
    have hne : (Ptr.lit whitespace 0).skip i ≠ Ptr.null := fun h => nomatch h
    rw [white_iff.2 hmem, decide_eq_true hne]
    rfl
  · refine ⟨_, hrun, ?_⟩
    rw [eq_false_of_ne_true fun h => hmem (white_iff.1 h), decide_eq_false (not_not.2 rfl)]
    rfl

end Buffer

/-! ## The loop -/

/-- the word w stands at offset o, up to whitespace or the end -/
def Stands (l : List Byte) (o : ℕ) (w : List Byte) : Prop :=
  ∃ r, l.drop o = w ++ r ∧ (∀ c ∈ w, white c = false) ∧ ∀ c t, r = c :: t → white c

/-- at offset k of the buffer, with the arguments so far, each with its offset -/
structure Parsed (m : Bytes) (buf : Word) (l : List Byte) (argv₀ : ℕ → Word) (s : Parse) (k : ℕ)
    (args : List (ℕ × List Byte)) : Prop where
  cursor : s.buf = buf + BitVec.ofNat 32 k
  le : k ≤ l.length
  cut : Cut m buf l s.mem k
  argc : s.argc = args.length
  room : args.length ≤ maxArgs - 1
  argv : ∀ i o w, args[i]? = some (o, w) → s.argv i = buf + BitVec.ofNat 32 o ∧ Stands l o w
  outside : ∀ i, maxArgs ≤ i → s.argv i = argv₀ i
  words : words white l = args.map Prod.snd ++ words white (l.drop k)

section Loop

variable {m : Bytes} {buf : Word} {l : List Byte} {argv : ℕ → Word} {s : Parse} {k : ℕ} {args : List (ℕ × List Byte)}

theorem drop_cons {c : Byte} (h : l[k]? = some c) : l.drop k = c :: l.drop (k + 1) := by
  obtain ⟨hk, rfl⟩ := List.getElem?_eq_some_iff.1 h
  exact List.drop_eq_getElem_cons hk

theorem next_ofNat (buf : Word) (k : ℕ) : buf + BitVec.ofNat 32 k + 1#32 = buf + BitVec.ofNat 32 (k + 1) := by
  rw [BitVec.ofNat_add, BitVec.add_assoc]

/-- **Whitespace is gobbled** up to a word or the end. -/
theorem gobble_parsed (h0 : 0#8 ∉ l) (hl : l.length < 2 ^ 32) (h : Parsed m buf l argv s k args) {n : ℕ}
    (hn : l.length - k < n) :
    ∃ s' k', (∀ fuel rounds, 4 < fuel → n ≤ rounds → gobble fuel rounds s = .ok s') ∧
      Parsed m buf l argv s' k' args ∧ k ≤ k' ∧ ∀ c, l[k']? = some c → ¬ white c := by
  induction n generalizing s k with
  | zero => exact absurd hn (Nat.not_lt_zero _)
  | succ n ih =>
    rcases h.cut.cursor h.le with ⟨c, hc, hmem⟩ | ⟨rfl, hmem⟩
    · have hne : c ≠ 0#8 := by
        rintro rfl
        exact h0 (List.mem_of_getElem? hc)
      have hk := (List.getElem?_eq_some_iff.1 hc).1
      by_cases hw : white c
      · have hstep : Parsed m buf l argv { s with
            mem := Function.update s.mem (buf + BitVec.ofNat 32 k) 0#8, buf := buf + BitVec.ofNat 32 k + 1#32 }
            (k + 1) args := by
          refine ⟨next_ofNat buf k, hk, h.cut.gobble hl hc hw, h.argc, h.room, h.argv, h.outside, ?_⟩
          rw [h.words, drop_cons hc, words_cons hw]
        obtain ⟨s', k', hrun, hparsed, hle, hend⟩ := ih hstep (by omega)
        refine ⟨s', k', fun fuel rounds hf hr => ?_, hparsed, le_trans (Nat.le_succ k) hle, hend⟩
        obtain ⟨rounds, rfl⟩ := Nat.exists_eq_add_of_le' hr
        rw [← Nat.add_assoc, gobble, h.cursor, hmem, if_neg hne, isWhite_eq _ _ hf, hw]
        exact hrun fuel (rounds + n) hf (Nat.le_add_left n rounds)
      · refine ⟨s, k, ?_, h, le_refl k, ?_⟩
        · intro fuel rounds hf hr
          obtain ⟨rounds, rfl⟩ := Nat.exists_eq_add_of_le' hr
          rw [← Nat.add_assoc, gobble, h.cursor, hmem, if_neg hne, isWhite_eq _ _ hf, eq_false_of_ne_true hw]
          rfl
        · intro d hd
          rw [← Option.some.inj (hc.symm.trans hd)]
          exact hw
    · refine ⟨s, l.length, ?_, h, le_refl _, ?_⟩
      · intro fuel rounds hf hr
        obtain ⟨rounds, rfl⟩ := Nat.exists_eq_add_of_le' hr
        rw [← Nat.add_assoc, gobble, h.cursor, hmem, if_pos rfl]
      · intro d hd
        exact absurd (List.getElem?_eq_some_iff.1 hd).1 (lt_irrefl _)

/-- **A word is scanned** up to whitespace or the end. -/
theorem scanArg_parsed (h0 : 0#8 ∉ l) (hcursor : s.buf = buf + BitVec.ofNat 32 k) (hk : k ≤ l.length)
    (hcut : Cut m buf l s.mem k) {n : ℕ} (hn : l.length - k < n) :
    ∃ w k', (∀ fuel rounds, 4 < fuel → n ≤ rounds →
        scanArg fuel rounds s = .ok { s with buf := buf + BitVec.ofNat 32 k' }) ∧
      k' ≤ l.length ∧ Cut m buf l s.mem k' ∧
      l.drop k = w ++ l.drop k' ∧ (∀ c ∈ w, white c = false) ∧ ∀ c, l[k']? = some c → white c := by
  induction n generalizing s k with
  | zero => exact absurd hn (Nat.not_lt_zero _)
  | succ n ih =>
    rcases hcut.cursor hk with ⟨c, hc, hmem⟩ | ⟨rfl, hmem⟩
    · have hne : c ≠ 0#8 := by
        rintro rfl
        exact h0 (List.mem_of_getElem? hc)
      have hlt := (List.getElem?_eq_some_iff.1 hc).1
      by_cases hw : white c
      · refine ⟨[], k, ?_, hk, hcut, rfl, fun x hx => absurd hx List.not_mem_nil, ?_⟩
        · intro fuel rounds hf hr
          obtain ⟨rounds, rfl⟩ := Nat.exists_eq_add_of_le' hr
          rw [← Nat.add_assoc, scanArg, hcursor, hmem, if_neg hne, isWhite_eq _ _ hf, hw, ← hcursor]
          rfl
        · intro d hd
          rw [← Option.some.inj (hc.symm.trans hd)]
          exact hw
      · obtain ⟨w, k', hrun, hle, hcut', hdrop, hword, hend⟩ :=
          ih (s := { s with buf := buf + BitVec.ofNat 32 k + 1#32 }) (next_ofNat buf k) hlt (hcut.skip hc hw) (by omega)
        refine ⟨c :: w, k', ?_, hle, hcut', ?_, ?_, hend⟩
        · intro fuel rounds hf hr
          obtain ⟨rounds, rfl⟩ := Nat.exists_eq_add_of_le' hr
          rw [← Nat.add_assoc, scanArg, hcursor, hmem, if_neg hne, isWhite_eq _ _ hf, eq_false_of_ne_true hw]
          exact hrun fuel (rounds + n) hf (Nat.le_add_left n rounds)
        · rw [drop_cons hc, hdrop]
          rfl
        · intro x hx
          rcases List.mem_cons.1 hx with rfl | hx
          · exact eq_false_of_ne_true hw
          · exact hword x hx
    · refine ⟨[], l.length, ?_, le_refl _, hcut, rfl, fun x hx => absurd hx List.not_mem_nil, ?_⟩
      · intro fuel rounds hf hr
        obtain ⟨rounds, rfl⟩ := Nat.exists_eq_add_of_le' hr
        rw [← Nat.add_assoc, scanArg, hcursor, hmem, if_pos rfl, ← hcursor]
      · intro d hd
        exact absurd (List.getElem?_eq_some_iff.1 hd).1 (lt_irrefl _)

/-- the argument that is stored, and the state behind it -/
theorem Parsed.arg (h : Parsed m buf l argv s k args) {w : List Byte} {k' : ℕ} (hk : k' ≤ l.length)
    (hcut : Cut m buf l s.mem k') (hdrop : l.drop k = w ++ l.drop k') (hword : ∀ c ∈ w, white c = false)
    (hr : ∀ x t, l.drop k' = x :: t → white x) (hw : w ≠ []) (hargc : s.argc < maxArgs - 1) :
    Parsed m buf l argv
      { mem := s.mem
        buf := buf + BitVec.ofNat 32 k'
        argc := s.argc + 1
        argv := Function.update s.argv s.argc s.buf } k' (args ++ [(k, w)]) := by
  have hlen : (args ++ [(k, w)]).length = args.length + 1 := List.length_append
  refine ⟨rfl, hk, hcut, ?_, ?_, ?_, ?_, ?_⟩
  · rw [hlen, ← h.argc]
  · rw [hlen, ← h.argc]
    exact hargc
  · intro i o v hi
    have hilt := (List.getElem?_eq_some_iff.1 hi).1
    rw [hlen] at hilt
    rcases Nat.lt_succ_iff_lt_or_eq.1 hilt with hlt | rfl
    · rw [List.getElem?_append_left hlt] at hi
      rw [h.argc]
      simp only [Function.update_of_ne (Nat.ne_of_lt hlt)]
      exact h.argv i o v hi
    · rw [List.getElem?_concat_length] at hi
      obtain ⟨rfl, rfl⟩ := Prod.mk.inj (Option.some.inj hi)
      rw [h.argc]
      simp only [Function.update_self]
      exact ⟨h.cursor, _, hdrop, hword, hr⟩
  · intro i hi
    have hne : i ≠ s.argc := by omega
    exact (Function.update_of_ne hne _ _).trans (h.outside i hi)
  · rw [h.words, hdrop, words_run hw hword hr, List.map_append, List.append_assoc]
    rfl

/-- **The loop** ends at the end of the buffer, or at a word for which there is no room. -/
theorem parse_parsed (h0 : 0#8 ∉ l) (hl : l.length < 2 ^ 32) (h : Parsed m buf l argv s k args) {n : ℕ}
    (hn : l.length - k < n) :
    ∃ s' room k' args',
      (∀ fuel rounds, l.length + 4 < fuel → n ≤ rounds → parse fuel rounds s = .ok (s', room)) ∧
      Parsed m buf l argv s' k' args' ∧
      (room = true → k' = l.length) ∧ (room = false → maxArgs - 1 < (words white l).length) := by
  induction n generalizing s k args with
  | zero => exact absurd hn (Nat.not_lt_zero _)
  | succ n ih =>
    obtain ⟨s₁, k₁, hgobble, h₁, hle, hend⟩ := gobble_parsed h0 hl h (Nat.lt_succ_self _)
    have hfirst : ∀ fuel, l.length + 4 < fuel → gobble fuel fuel s = .ok s₁ := fun fuel hf =>
      hgobble fuel fuel (by omega) (by omega)
    rcases h₁.cut.cursor h₁.le with ⟨c, hc, hmem⟩ | ⟨rfl, hmem⟩
    · have hne : s₁.mem s₁.buf ≠ 0#8 := by
        rw [h₁.cursor, hmem]
        exact ne_nul h0 hc
      have hk := (List.getElem?_eq_some_iff.1 hc).1
      let s₂ : Parse := { s₁ with argv := Function.update s₁.argv s₁.argc s₁.buf, argc := s₁.argc + 1 }
      obtain ⟨w, k₂, hscan, hk₂, hcut, hdrop, hword, hstop⟩ :=
        scanArg_parsed (s := s₂) h0 h₁.cursor h₁.le h₁.cut (Nat.lt_succ_self _)
      have hw : w ≠ [] := by
        rintro rfl
        have hlen := congrArg List.length hdrop
        rw [List.nil_append, List.length_drop, List.length_drop] at hlen
        obtain rfl : k₁ = k₂ := by omega
        exact hend c hc (hstop c hc)
      have hr : ∀ x t, l.drop k₂ = x :: t → white x := by
        intro x t hx
        refine hstop x ?_
        have hhead := congrArg List.head? hx
        rw [List.head?_drop] at hhead
        exact hhead
      by_cases hfull : s₁.argc = maxArgs - 1
      · refine ⟨s₁, false, k₁, args, ?_, h₁, fun h => absurd h (by decide), ?_⟩
        · intro fuel rounds hf hr
          obtain ⟨rounds, rfl⟩ := Nat.exists_eq_add_of_le' hr
          rw [← Nat.add_assoc, parse, hfirst fuel hf]
          change (if s₁.mem s₁.buf = 0#8 then _ else _) = _
          rw [if_neg hne, if_pos hfull]
          rfl
        · intro _
          rw [h₁.words, hdrop, words_run hw hword hr, List.length_append, List.length_map, ← h₁.argc, hfull,
            List.length_cons]
          omega
      · have hargc : s₁.argc < maxArgs - 1 := lt_of_le_of_ne (h₁.argc ▸ h₁.room) hfull
        have hset : s₁.setArg s₁.buf = .ok { s₁ with argv := Function.update s₁.argv s₁.argc s₁.buf } :=
          if_pos (lt_of_lt_of_le hargc (Nat.sub_le _ _))
        have hnext : k₁ < k₂ := by
          have hlen := congrArg List.length hdrop
          rw [List.length_append, List.length_drop, List.length_drop] at hlen
          have := List.length_pos_of_ne_nil hw
          omega
        obtain ⟨s', room, k', args', hrun, hparsed⟩ := ih (h₁.arg hk₂ hcut hdrop hword hr hw hargc) (by omega)
        refine ⟨s', room, k', args', fun fuel rounds hf hrounds => ?_, hparsed⟩
        obtain ⟨rounds, rfl⟩ := Nat.exists_eq_add_of_le' hrounds
        rw [← Nat.add_assoc, parse, hfirst fuel hf]
        change (if s₁.mem s₁.buf = 0#8 then _ else _) = _
        rw [if_neg hne, if_neg hfull, hset]
        change (scanArg fuel fuel s₂ >>= fun s => parse fuel (rounds + n) s) = _
        rw [hscan fuel fuel (by omega) (by omega)]
        exact hrun fuel (rounds + n) hf (Nat.le_add_left n rounds)
    · refine ⟨s₁, true, l.length, args, fun fuel rounds hf hr => ?_, h₁, fun _ => rfl, fun h => absurd h (by decide)⟩
      obtain ⟨rounds, rfl⟩ := Nat.exists_eq_add_of_le' hr
      rw [← Nat.add_assoc, parse, hfirst fuel hf]
      change (if s₁.mem s₁.buf = 0#8 then _ else _) = _
      rw [h₁.cursor, hmem, if_pos rfl]
      rfl

end Loop

/-! ## The command -/

section Command

variable {m : Bytes} {buf : Word} {l : List Byte} {mem : Bytes} {k : ℕ}

/-- at the end of the buffer every word has its NUL -/
theorem Cut.stands (hcut : Cut m buf l mem l.length) {o : ℕ} {w : List Byte} (h : Stands l o w) (ho : o ≤ l.length) :
    Reads (Bytes.reader mem) (.mem (buf + BitVec.ofNat 32 o)) (w ++ [0#8]) := by
  obtain ⟨r, hdrop, hword, hr⟩ := h
  have hget : ∀ i, l[o + i]? = (w ++ r)[i]? := by
    intro i
    rw [← hdrop, List.getElem?_drop]
  have hlen : l.length - o = w.length + r.length := by
    have := congrArg List.length hdrop
    rw [List.length_drop, List.length_append] at this
    exact this
  have hskip : ∀ i, buf + BitVec.ofNat 32 o + BitVec.ofNat 32 i = buf + BitVec.ofNat 32 (o + i) := by
    intro i
    rw [BitVec.add_assoc, ← BitVec.ofNat_add]
  refine Reads.concat (fun i c hc => ?_) ?_
  · have hlt := (List.getElem?_eq_some_iff.1 hc).1
    have hoi : l[o + i]? = some c := by
      rw [hget, List.getElem?_append_left hlt, hc]
    change some (mem (buf + BitVec.ofNat 32 o + BitVec.ofNat 32 i)) = some c
    rw [hskip, hcut.done _ c (by omega) hoi, if_neg]
    rw [hword c (List.mem_of_getElem? hc)]
    decide
  · change some (mem (buf + BitVec.ofNat 32 o + BitVec.ofNat 32 w.length)) = some 0#8
    rw [hskip]
    cases r with
    | nil =>
      have hend : o + w.length = l.length := by
        rw [List.length_nil] at hlen
        omega
      rw [hend, hcut.nul]
    | cons d t =>
      have hd : l[o + w.length]? = some d := by
        rw [hget, List.getElem?_append_right (le_refl _), Nat.sub_self]
        rfl
      rw [List.length_cons] at hlen
      rw [hcut.done _ d (by omega) hd, if_pos (hr d t rfl)]

/-- nothing but whitespace is written -/
theorem Cut.only (h : Cut m buf l mem k) (hm : Reads (Bytes.reader m) (.mem buf) (l ++ [0#8])) (a : Word) :
    mem a = m a ∨ (mem a = 0#8 ∧ ∃ i c, l[i]? = some c ∧ c ∈ whitespace ∧ a = buf + BitVec.ofNat 32 i) := by
  by_cases ha : ∃ i < l.length, a = buf + BitVec.ofNat 32 i
  · obtain ⟨i, hi, rfl⟩ := ha
    have hc := List.getElem?_eq_getElem hi
    have hsame := (Cut.start hm).left i _ (Nat.zero_le _) hc
    by_cases hik : i < k
    · have hdone := h.done i _ hik hc
      by_cases hw : white l[i]
      · rw [if_pos hw] at hdone
        exact Or.inr ⟨hdone, i, _, hc, white_iff.1 hw, rfl⟩
      · rw [if_neg hw] at hdone
        exact Or.inl (hdone.trans hsame.symm)
    · exact Or.inl ((h.left i _ (not_lt.1 hik) hc).trans hsame.symm)
  · refine Or.inl (h.rest a fun i hi heq => ha ⟨i, hi, heq⟩)

theorem lookup_eq {fuel : ℕ} {arg : Word} {w : List Byte} (h0 : 0#8 ∉ w)
    (h : Reads (Bytes.reader mem) (.mem arg) (w ++ [0#8])) (hf : w.length < fuel) {cs : List Command}
    (hnames : ∀ c ∈ cs, 0#8 ∉ c.name) (i : ℕ) :
    lookup fuel mem arg cs i = .ok ((cs.findIdx? fun c => c.name = w).map (· + i)) := by
  induction cs generalizing i with
  | nil => rfl
  | cons c cs ih =>
    have hn0 : 0#8 ∉ c.name := hnames c List.mem_cons_self
    have hlit : Reads (Bytes.reader mem) (.lit c.name 0) (c.name ++ [0#8]) := Reads.lit fun _ => rfl
    rw [lookup, strcmp_reads h0 hn0 h hlit hf, List.findIdx?_cons]
    change (if difference w c.name = 0#32 then _ else _) = _
    by_cases heq : c.name = w
    · rw [if_pos ((difference_eq_zero h0 hn0).2 heq.symm), if_pos (decide_eq_true heq)]
      exact congrArg Except.ok (congrArg some (Nat.zero_add i).symm)
    · rw [if_neg fun h => heq ((difference_eq_zero h0 hn0).1 h).symm, if_neg (by rw [decide_eq_false heq]; decide),
        ih (fun x hx => hnames x (List.mem_cons_of_mem c hx)) (i + 1), Option.map_map]
      congr 2
      funext j
      change j + (i + 1) = j + 1 + i
      omega

/-- the message for a command that there is not; a null pointer is printed as a string of its own -/
def unknownText (arg : Word) (w : List Byte) : List Word :=
  (str "Unknown command '").map int ++ ((if arg = 0#32 then str "(null)" else w).map (shown false) ++ (str "'\n").map int)

/-- the message for too many arguments -/
def tooManyText : List Word := (str "Too many arguments (max 16)\n").map int

theorem unknown_prints {arg : Word} {w : List Byte} (h0 : 0#8 ∉ w) (h : Reads (Bytes.reader mem) (.mem arg) (w ++ [0#8])) :
    ∃ out, Prints mem (str "Unknown command '%s'\n") (VaList.ofWords fun _ => arg) out ∧
      (w.length < 2 ^ 31 → out = unknownText arg w) := by
  let a : Args := ⟨fun _ => arg, fun _ => if arg = 0#32 then str "(null)" else w⟩
  have hreqs : ∀ x ∈ requests none (str "Unknown command '%s'\n") 0, x.1 ≠ chr 'e' := by decide
  have htext : ∀ i, 0#8 ∉ a.text i := by
    intro i
    change 0#8 ∉ if arg = 0#32 then str "(null)" else w
    split_ifs
    · decide
    · exact h0
  have hpassed : Passed cprintfSink { mem := mem, cnt := 0#32, out := [] } (VaList.ofWords fun _ => arg) a
      (requests none (str "Unknown command '%s'\n") 0) := by
    refine ⟨rfl, fun i _ => ?_⟩
    change Text cprintfSink _ (strArg (.mem arg)) ((if arg = 0#32 then str "(null)" else w) ++ [0#8])
    by_cases hnull : arg = 0#32
    · have hptr : Ptr.mem arg = Ptr.null := congrArg Ptr.mem hnull
      rw [strArg, if_pos hptr, if_pos hnull]
      exact Text.lit _
    · have hptr : Ptr.mem arg ≠ Ptr.null := fun h => hnull (Ptr.mem.inj h)
      rw [strArg, if_neg hptr, if_neg hnull]
      exact Text.string h _ rfl
  refine ⟨_, vcprintf_prints (by decide) a ⟨fun i hi => absurd rfl (hreqs _ hi), fun i _ => htext i⟩ (Text.lit _) hpassed, ?_⟩
  intro hw
  have hlen : (a.text 0).length < 2 ^ 31 := by
    change (if arg = 0#32 then str "(null)" else w).length < 2 ^ 31
    split_ifs
    · decide
    · exact hw
  have hsplit : str "Unknown command '%s'\n" = str "Unknown command '" ++ (str "%s" ++ (str "'\n" ++ [])) := by simp [str]
  rw [hsplit, render_literal (by decide), render_string hlen, render_literal (by decide)]
  rfl

theorem tooMany_prints (m : Bytes) :
    Prints m (str "Too many arguments (max %d)\n") (VaList.ofWords fun _ => BitVec.ofNat 32 maxArgs) tooManyText := by
  have hsplit : str "Too many arguments (max %d)\n" =
      str "Too many arguments (max " ++ (str "%d" ++ (str ")\n" ++ [])) := by simp [str]
  have hnum : signedText (BitVec.ofNat 32 maxArgs) = (str "16").map int := by
    rw [signedText]
    simp [maxArgs, numDigits, digitChar]
    decide
  have htext : render ⟨fun _ => BitVec.ofNat 32 maxArgs, fun _ => []⟩ 0 (pieces (str "Too many arguments (max %d)\n")) =
      tooManyText := by
    rw [hsplit, render_literal (by decide), render_decimal, render_literal (by decide), hnum]
    simp [tooManyText, str, pieces, piecesFrom, render]
  rw [← htext]
  exact vcprintf_words (by decide) (by decide) _ m

/-- what a command line with these words comes to: the first command of that name, if there is one -/
def Answer : List (List Byte) → Result → Prop
  | [], o => o = .zero []
  | w :: _, o =>
    match commands.findIdx? fun c => c.name = w with
    | some i => o = .call i
    | none => ∃ out, o = .zero out

/-- and what it prints itself; arg is the address of the first word -/
def reply (arg : Word) : List (List Byte) → Result
  | [] => .zero []
  | w :: ws =>
    if maxArgs - 1 < (w :: ws).length then .zero tooManyText
    else
      match commands.findIdx? fun c => c.name = w with
      | some i => .call i
      | none => .zero (unknownText arg w)

theorem dispatch_replies {s : Parse} {ws : List (List Byte)} (hargc : s.argc = ws.length) (hroom : ws.length ≤ maxArgs - 1)
    (h : ∀ w, ws[0]? = some w → 0#8 ∉ w ∧ Reads (Bytes.reader s.mem) (.mem (s.argv 0)) (w ++ [0#8])) :
    ∃ N o, (∀ fuel, N ≤ fuel → dispatch fuel s = .ok o) ∧ Answer ws o ∧
      ((∀ w ∈ ws, w.length < 2 ^ 31) → o = reply (s.argv 0) ws) := by
  cases ws with
  | nil => exact ⟨0, .zero [], fun fuel _ => if_pos hargc, rfl, fun _ => rfl⟩
  | cons w ws =>
    obtain ⟨h0, hw⟩ := h w rfl
    have hne : s.argc ≠ 0 := hargc ▸ Nat.succ_ne_zero _
    have hnames : ∀ c ∈ commands, 0#8 ∉ c.name := by decide
    have hlookup : ∀ fuel, w.length < fuel →
        lookup fuel s.mem (s.argv 0) commands 0 = .ok (commands.findIdx? fun c => c.name = w) := by
      intro fuel hf
      rw [lookup_eq h0 hw hf hnames]
      exact congrArg Except.ok Option.map_id'
    rw [reply, if_neg (not_lt.2 hroom)]
    cases hfind : commands.findIdx? fun c => c.name = w with
    | some i =>
      refine ⟨w.length + 1, .call i, ?_, ?_, fun _ => rfl⟩
      · intro fuel hf
        rw [dispatch, if_neg hne, hlookup fuel hf, hfind]
        rfl
      · rw [Answer, hfind]
    | none =>
      obtain ⟨out, ⟨N, hrun⟩, hout⟩ := unknown_prints h0 hw
      refine ⟨max N (w.length + 1), .zero out, ?_, ?_, fun hlen => congrArg Result.zero (hout (hlen w List.mem_cons_self))⟩
      · intro fuel hf
        rw [dispatch, if_neg hne, hlookup fuel (le_trans (le_max_right _ _) hf), hfind]
        change (vcprintf _ _ _ _ >>= fun r => _) = _
        rw [hrun fuel (le_trans (le_max_left _ _) hf)]
        rfl
      · rw [Answer, hfind]
        exact ⟨out, rfl⟩

end Command

section Line

variable {m : Bytes} {buf : Word} {l : List Byte}

/-- the first round finds no argument yet -/
theorem Parsed.start (h : Reads (Bytes.reader m) (.mem buf) (l ++ [0#8])) (argv : ℕ → Word) :
    Parsed m buf l argv { mem := m, buf := buf, argc := 0, argv := Function.update argv 0 0#32 } 0 [] where
  cursor := (BitVec.add_zero buf).symm
  le := Nat.zero_le _
  cut := Cut.start h
  argc := rfl
  room := Nat.zero_le _
  argv i o w hi := nomatch (List.getElem?_nil (α := ℕ × List Byte)).symm.trans hi
  outside i hi := Function.update_of_ne (Nat.ne_of_gt (lt_of_lt_of_le (by decide) hi)) _ _
  words := rfl

/-- an argument at the end of the parse: where its word is, which has no NUL -/
theorem word_parsed {argv : ℕ → Word} {s : Parse} {args : List (ℕ × List Byte)} (h0 : 0#8 ∉ l)
    (h : Parsed m buf l argv s l.length args) {i : ℕ} {w : List Byte} (hi : (words white l)[i]? = some w) :
    i < s.argc ∧ (∃ o, o + w.length ≤ l.length ∧ s.argv i = buf + BitVec.ofNat 32 o) ∧ w ≠ [] ∧ 0#8 ∉ w ∧
      Reads (Bytes.reader s.mem) (.mem (s.argv i)) (w ++ [0#8]) := by
  have hwords : words white l = args.map Prod.snd := by
    rw [h.words, List.drop_length, words_nil, List.append_nil]
  have hne : w ≠ [] := ne_nil_of_mem_words (List.mem_of_getElem? hi)
  rw [hwords, List.getElem?_map] at hi
  obtain ⟨⟨o, v⟩, harg, rfl⟩ := Option.map_eq_some_iff.1 hi
  obtain ⟨hptr, hstands⟩ := h.argv i o v harg
  obtain ⟨r, hdrop, -⟩ := id hstands
  have hlen := congrArg List.length hdrop
  have hpos : 0 < v.length := List.length_pos_of_ne_nil hne
  rw [List.length_drop, List.length_append] at hlen
  have hle : o + v.length ≤ l.length := by omega
  refine ⟨h.argc ▸ (List.getElem?_eq_some_iff.1 harg).1, ⟨o, hle, hptr⟩, hne, fun hmem => h0 ?_, ?_⟩
  · refine List.mem_of_mem_drop (i := o) ?_
    rw [hdrop]
    exact List.mem_append_left r hmem
  · rw [hptr]
    exact h.cut.stands hstands (by omega)

/-- **A line**: what runcmd comes to, and where it leaves the words. -/
theorem runcmd_replies (h0 : 0#8 ∉ l) (h : Reads (Bytes.reader m) (.mem buf) (l ++ [0#8])) (argv : ℕ → Word) :
    ∃ N s o, (∀ fuel, N ≤ fuel → runcmd fuel m buf argv = .ok (s, o)) ∧
      (∀ a, s.mem a = m a ∨ (s.mem a = 0#8 ∧ ∃ i c, l[i]? = some c ∧ c ∈ whitespace ∧ a = buf + BitVec.ofNat 32 i)) ∧
      (∀ i, maxArgs ≤ i → s.argv i = argv i) ∧
      ((words white l).length ≤ maxArgs - 1 →
        s.argc = (words white l).length ∧
        (∀ i w, (words white l)[i]? = some w → (∃ o, o + w.length ≤ l.length ∧ s.argv i = buf + BitVec.ofNat 32 o) ∧ w ≠ [] ∧
          Reads (Bytes.reader s.mem) (.mem (s.argv i)) (w ++ [0#8])) ∧
        s.argv (words white l).length = 0#32 ∧ Answer (words white l) o) ∧
      (maxArgs - 1 < (words white l).length → o = .zero tooManyText) ∧
      (l.length < 2 ^ 31 → o = reply (s.argv 0) (words white l)) := by
  have hl := length_lt h0 h
  obtain ⟨s, room, k, args, hrun, hparsed, hend, hfull⟩ := parse_parsed h0 hl (Parsed.start h argv) (Nat.lt_succ_self _)
  have hparse : ∀ fuel, l.length + 5 ≤ fuel →
      parse fuel fuel { mem := m, buf := buf, argc := 0, argv := Function.update argv 0 0#32 } = .ok (s, room) :=
    fun fuel hf => hrun fuel fuel hf (by omega)
  cases room with
  | true =>
    obtain rfl : k = l.length := hend rfl
    have hroom : s.argc ≤ maxArgs - 1 := hparsed.argc ▸ hparsed.room
    have hargc : s.argc = (words white l).length := by
      rw [hparsed.words, List.drop_length, words_nil, List.append_nil, List.length_map, hparsed.argc]
    have hset : s.setArg 0#32 = .ok { s with argv := Function.update s.argv s.argc 0#32 } :=
      if_pos (lt_of_le_of_lt hroom (by decide))
    -- the last NULL is stored behind the arguments
    have hread : ∀ i w, (words white l)[i]? = some w →
        (∃ o, o + w.length ≤ l.length ∧ Function.update s.argv s.argc 0#32 i = buf + BitVec.ofNat 32 o) ∧ w ≠ [] ∧ 0#8 ∉ w ∧
          Reads (Bytes.reader s.mem) (.mem (Function.update s.argv s.argc 0#32 i)) (w ++ [0#8]) := by
      intro i w hi
      obtain ⟨hlt, hword⟩ := word_parsed h0 hparsed hi
      rw [Function.update_of_ne (Nat.ne_of_lt hlt)]
      exact hword
    have hfirst : ∀ w, (words white l)[0]? = some w → 0#8 ∉ w ∧
        Reads (Bytes.reader s.mem) (.mem (Function.update s.argv s.argc 0#32 0)) (w ++ [0#8]) :=
      fun w hw => (hread 0 w hw).2.2
    obtain ⟨N, o, hdispatch, hanswer, hreply⟩ :=
      dispatch_replies (s := { s with argv := Function.update s.argv s.argc 0#32 }) hargc (hargc ▸ hroom) hfirst
    refine ⟨max N (l.length + 5), { s with argv := Function.update s.argv s.argc 0#32 }, o, ?_, hparsed.cut.only h, ?_,
      fun _ => ⟨hargc, fun i w hi => ?_, ?_, hanswer⟩, ?_, fun hlen => hreply fun w hw => ?_⟩
    · intro fuel hf
      change (parse fuel fuel _ >>= _) = _
      rw [hparse fuel (le_trans (le_max_right _ _) hf)]
      change (s.setArg 0#32 >>= _) = _
      rw [hset]
      change (dispatch fuel _ >>= _) = _
      rw [hdispatch fuel (le_trans (le_max_left _ _) hf)]
      rfl
    · intro i hi
      have hne : i ≠ s.argc := Nat.ne_of_gt (lt_of_le_of_lt hroom (lt_of_lt_of_le (by decide) hi))
      exact (Function.update_of_ne hne _ _).trans (hparsed.outside i hi)
    · obtain ⟨hplace, hne, -, hreads⟩ := hread i w hi
      exact ⟨hplace, hne, hreads⟩
    · rw [← hargc]
      exact Function.update_self _ _ _
    · intro hlt
      exact absurd hlt (not_lt.2 (hargc ▸ hroom))
    · obtain ⟨i, hi⟩ := List.mem_iff_getElem?.1 hw
      obtain ⟨⟨o, ho, -⟩, -⟩ := hread i w hi
      omega
  | false =>
    obtain ⟨N, hmessage⟩ := tooMany_prints s.mem
    have hmany : maxArgs - 1 < (words white l).length := hfull rfl
    have hreply : reply (s.argv 0) (words white l) = .zero tooManyText := by
      cases hwords : words white l with
      | nil =>
        rw [hwords] at hmany
        exact absurd hmany (Nat.not_lt_zero _)
      | cons w ws =>
        rw [hwords] at hmany
        exact if_pos hmany
    refine ⟨max N (l.length + 5), s, .zero tooManyText, fun fuel hf => ?_, hparsed.cut.only h, hparsed.outside,
      fun hle => absurd hmany (not_lt.2 hle), fun _ => rfl, fun _ => hreply.symm⟩
    change (parse fuel fuel _ >>= _) = _
    rw [hparse fuel (le_trans (le_max_right _ _) hf)]
    change (vcprintf _ _ _ _ >>= _) = _
    rw [hmessage fuel (le_trans (le_max_left _ _) hf)]
    rfl

/-- **Command parsing.** -/
theorem runcmd_parses (h0 : 0#8 ∉ l) (h : Reads (Bytes.reader m) (.mem buf) (l ++ [0#8])) (argv : ℕ → Word) :
    ∃ N s o, (∀ fuel, N ≤ fuel → runcmd fuel m buf argv = .ok (s, o)) ∧
      (∀ a, s.mem a = m a ∨ (s.mem a = 0#8 ∧ ∃ i c, l[i]? = some c ∧ c ∈ whitespace ∧ a = buf + BitVec.ofNat 32 i)) ∧
      (∀ i, maxArgs ≤ i → s.argv i = argv i) ∧
      ((words white l).length ≤ maxArgs - 1 →
        s.argc = (words white l).length ∧
        (∀ i w, (words white l)[i]? = some w → Reads (Bytes.reader s.mem) (.mem (s.argv i)) (w ++ [0#8])) ∧
        s.argv (words white l).length = 0#32 ∧ Answer (words white l) o) ∧
      (maxArgs - 1 < (words white l).length → ∃ out, o = .zero out) := by
  obtain ⟨N, s, o, hrun, hmem, houtside, hargs, hmany, -⟩ := runcmd_replies h0 h argv
  refine ⟨N, s, o, hrun, hmem, houtside, fun hroom => ?_, fun hlt => ⟨_, hmany hlt⟩⟩
  obtain ⟨hargc, hread, hnull, hanswer⟩ := hargs hroom
  exact ⟨hargc, fun i w hi => (hread i w hi).2.2, hnull, hanswer⟩

/-- the command " help  x" -/
theorem runcmd_parses_help : ∃ m : Bytes, ∃ N s o, (∀ fuel, N ≤ fuel → runcmd fuel m 0x1000#32 (fun _ => 0#32) = .ok (s, o)) ∧
    o = .call 0 ∧ s.argc = 2 := by
  let l := str " help  x"
  let m : Bytes := fun a => (l[(a - 0x1000#32).toNat]?).getD 0#8
  have h : Reads (Bytes.reader m) (.mem 0x1000#32) (l ++ [0#8]) := by
    intro i c hc
    change some ((l[(0x1000#32 + BitVec.ofNat 32 i - 0x1000#32).toNat]?).getD 0#8) = some c
    have hi := (List.getElem?_eq_some_iff.1 hc).1
    have hlen : (l ++ [0#8]).length = 9 := by decide
    rw [BitVec.add_comm, BitVec.add_sub_cancel, BitVec.toNat_ofNat, Nat.mod_eq_of_lt (by omega)]
    rw [hlen] at hi
    interval_cases i <;> exact hc
  obtain ⟨N, s, o, hrun, -, -, hargs, -⟩ := runcmd_parses (l := l) (by decide) h fun _ => 0#32
  have hwords : words white l = [str "help", str "x"] := by decide
  rw [hwords] at hargs
  obtain ⟨hargc, -, -, hanswer⟩ := hargs (by decide)
  exact ⟨m, N, s, o, hrun, hanswer, hargc⟩

end Line

end Jos
