/-
cprintf on the console (kern/printf.c, and cputchar of kern/console.c).

A string can be printed as data, by "%s", or as the format itself. The formatter reads the format through an
`unsigned char *` and the string through a `char *`, which is signed. Results:
- `cprintf_string`, `cprintf_format`: what both calls pass to cputchar;
- `data_as_format`: it is the same exactly for a string of ASCII characters that an int can count (`data_not_format`).
-/
import Jos.Printf.Strings
import Jos.Console.Cga

namespace Jos

open Jos.Lib

/-- cputchar is cons_putc; a sequence of calls -/
def cputchars (scr : Crt) (cs : List Word) : Crt := cs.foldl (fun scr c => consPutc c scr) scr

section Calls

variable {m : Bytes} {fmt : Ptr} {va : VaList} {cs : List Word}

theorem vcprintf_returns (h : Returns (fun k => vprintfmt cprintfSink k fmt va 0) { mem := m, cnt := 0#32, out := [] } ()
    (feed cprintfSink { mem := m, cnt := 0#32, out := [] } cs)) :
    ∃ N, ∀ fuel, N ≤ fuel → vcprintf fuel fmt va m = .ok (0#32, { mem := m, cnt := 0#32, out := cs }) := by
  obtain ⟨N, hN⟩ := h
  refine ⟨N, fun fuel hfuel => ?_⟩
  have hrun := hN fuel hfuel
  rw [feed_cprintf] at hrun
  rw [vcprintf, hrun]
  rfl

/-- what a string is printed as by `%s` without sizes -/
def dataText (s : List Byte) : List Word :=
  s.map (shown false) ++ padding (int (chr ' ')) (-1#32 - BitVec.ofNat 32 s.length)

/-- `cprintf("%s", s)` -/
theorem cprintf_string {s : List Byte} (h0 : 0#8 ∉ s) (m : Bytes) (va : VaList)
    (hs : ∀ a : Cprintf, a.mem = m → Text cprintfSink a (strArg (va.str 0)) (s ++ [0#8])) :
    ∃ N, ∀ fuel, N ≤ fuel →
      vcprintf fuel (.lit (str "%s") 0) va m = .ok (0#32, { mem := m, cnt := 0#32, out := dataText s }) := by
  let a : Args := ⟨va.word, fun _ => s⟩
  let c : Cprintf := { mem := m, cnt := 0#32, out := [] }
  have hputs : Puts a (chr '%' :: ([] ++ [chr 's'])) 0 1
      (stringText (Dir.sized (int (chr ' ')) (-1#32) (-1#32) false) (a.text 0)) :=
    puts_sized a (n := 0) (fun x hx => absurd hx List.not_mem_nil) (by decide) (by decide)
      (fun fmt => ⟨_, Scanned.last a.word (Dir.start fmt 0) (by decide), rfl, rfl, rfl, rfl⟩) h0
  have hright : ¬ ((0#32).slt (-1#32) ∧ int (chr ' ') ≠ int (chr '-')) := fun h => absurd h.1 (by decide)
  have hcut := cut_neg_one s
  have htext : stringText (Dir.sized (int (chr ' ')) (-1#32) (-1#32) false) (a.text 0) = dataText s := by
    rw [stringText_right hright]
    change (cut (-1#32) s).map (shown false) ++ padding _ (-1#32 - BitVec.ofNat 32 (cut (-1#32) s).length) = _
    rw [hcut, dataText]
  rw [htext] at hputs
  have hlit : str "%s" = chr '%' :: ([] ++ [chr 's']) := by decide
  have hfmt : Text cprintfSink c (.lit (str "%s") 0) (str "%s" ++ [0#8]) := Text.lit (str "%s")
  rw [hlit] at hfmt ⊢
  refine vcprintf_returns ((hputs _ cprintfSink c _ va _ hfmt.left ⟨rfl, ?_⟩).2 ?_)
  · intro i hi
    have hreq : ∀ x ∈ requests none (chr '%' :: ([] ++ [chr 's'])) 0, x.2 = 0 := by decide
    have hi0 : i = 0 := hreq _ hi
    rw [hi0]
    exact hs c rfl
  · exact vprintfmt_nul (hfmt.right.feed _).reads.head

/-- `cprintf(s)` -/
theorem cprintf_format {s : List Byte} (hs : ∀ c ∈ s, c ≠ chr '%' ∧ c ≠ 0#8) {m : Bytes} (va : VaList)
    (h : Text cprintfSink { mem := m, cnt := 0#32, out := [] } fmt (s ++ [0#8])) :
    ∃ N, ∀ fuel, N ≤ fuel →
      vcprintf fuel fmt va m = .ok (0#32, { mem := m, cnt := 0#32, out := s.map int }) := by
  refine vcprintf_returns ?_
  rw [vprintfmt_literal hs h.left]
  exact vprintfmt_nul (h.right.feed _).reads.head

end Calls

/-- the two types of a character differ from 0x80 on -/
theorem shown_eq_int (c : Byte) : shown false c = int c ↔ c < 0x80#8 := by
  revert c
  decide

/-- a string in memory -/
theorem Text.string {m : Bytes} {p : Ptr} {s : List Byte} (h : Reads (Bytes.reader m) p s) (a : Cprintf)
    (ha : a.mem = m) : Text cprintfSink a p s := by
  intro cs i c hc
  rw [cprintf_reader, feed_cprintf, ha]
  exact h i c hc

/-- **Text as data and as format.** `cprintf("%s", s)` and `cprintf(s)` pass the same ints to cputchar, and write the same
cells, exactly if all of the text is ASCII and shorter than 2^31. -/
theorem data_as_format (m : Bytes) (p : Word) (hp : p ≠ 0#32) (s : List Byte) (hfit : p.toNat + s.length < 2 ^ 32)
    (hs : Reads (Bytes.reader m) (.mem p) (s ++ [0#8])) (hc : ∀ c ∈ s, c ≠ chr '%' ∧ c ≠ 0#8) (word : ℕ → Word) :
    ∃ N, ∀ fuel, N ≤ fuel → ∃ a b,
      vcprintf fuel (.lit (str "%s") 0) (VaList.ofWords fun _ => p) m = .ok (0#32, a) ∧
      vcprintf fuel (.mem p) (VaList.ofWords word) m = .ok (0#32, b) ∧
      ((a.out = b.out ∧ ∀ scr, (cputchars scr a.out).buf = (cputchars scr b.out).buf) ↔
        (∀ c ∈ s, c < 0x80#8) ∧ s.length < 2 ^ 31) := by
  have h0 : 0#8 ∉ s := fun h => (hc _ h).2 rfl
  have hptr : strArg (.mem p) = .mem p := if_neg fun h => hp (Ptr.mem.inj h)
  obtain ⟨N, hN⟩ := cprintf_string h0 m (VaList.ofWords fun _ => p) fun a ha => by
    change Text cprintfSink a (strArg (.mem p)) _
    rw [hptr]
    exact Text.string hs a ha
  obtain ⟨K, hK⟩ := cprintf_format hc (VaList.ofWords word) (Text.string hs { mem := m, cnt := 0#32, out := [] } rfl)
  refine ⟨max N K, fun fuel hfuel => ?_⟩
  refine ⟨_, _, hN fuel (le_trans (le_max_left N K) hfuel), hK fuel (le_trans (le_max_right N K) hfuel), ?_⟩
  have hlength : 0 < p.toNat := Nat.pos_of_ne_zero (toNat_ne_zero hp)
  have hmod := toInt_sub_emod (-1#32) s.length
  have hminus : (-1#32 : Word).toInt = -1 := by decide
  have hlo := BitVec.le_toInt (-1#32 - BitVec.ofNat 32 s.length)
  have hhi := BitVec.toInt_lt (x := -1#32 - BitVec.ofNat 32 s.length)
  rw [hminus] at hmod
  have hsame : dataText s = s.map int ↔ (∀ c ∈ s, c < 0x80#8) ∧ s.length < 2 ^ 31 := by
    rw [dataText, padding]
    constructor
    · intro h
      have hlen := congrArg List.length h
      rw [List.length_append, List.length_map, List.length_map, List.length_replicate] at hlen
      refine ⟨?_, by omega⟩
      have hnone : (-1#32 - BitVec.ofNat 32 s.length).toInt.toNat = 0 := by omega
      rw [hnone, List.replicate_zero, List.append_nil] at h
      intro c hmem
      exact (shown_eq_int c).1 (List.map_inj_left.1 h c hmem)
    · rintro ⟨hascii, hlt⟩
      have hnone : (-1#32 - BitVec.ofNat 32 s.length).toInt.toNat = 0 := by omega
      rw [hnone, List.replicate_zero, List.append_nil]
      exact List.map_congr_left fun c hmem => (shown_eq_int c).2 (hascii c hmem)
  rw [← hsame]
  constructor
  · exact And.left
  · intro h
    exact ⟨h, fun scr => congrArg (fun cs => (cputchars scr cs).buf) h⟩

/-- the string "ab" at 0x1000 -/
theorem data_as_format_ab : ∃ N, ∀ fuel, N ≤ fuel → ∃ a b,
    vcprintf fuel (.lit (str "%s") 0) (VaList.ofWords fun _ => 0x1000#32)
      (fun b => (str "ab").getD (b - 0x1000#32).toNat 0#8) = .ok (0#32, a) ∧
    vcprintf fuel (.mem 0x1000#32) (VaList.ofWords fun _ => 0#32)
      (fun b => (str "ab").getD (b - 0x1000#32).toNat 0#8) = .ok (0#32, b) ∧ a.out = b.out := by
  let m : Bytes := fun b => (str "ab").getD (b - 0x1000#32).toNat 0#8
  have hs : Reads (Bytes.reader m) (.mem 0x1000#32) (str "ab" ++ [0#8]) := by
    have hbytes : ∀ i < 3, (str "ab" ++ [0#8])[i]? = some (m (0x1000#32 + BitVec.ofNat 32 i)) := by decide
    intro i c hc
    have hi := (List.getElem?_eq_some_iff.1 hc).1
    change some (m (0x1000#32 + BitVec.ofNat 32 i)) = some c
    rw [← hbytes i hi]
    exact hc
  obtain ⟨N, hN⟩ := data_as_format m 0x1000#32 (by decide) (str "ab") (by decide) hs (by decide) fun _ => 0#32
  refine ⟨N, fun fuel hfuel => ?_⟩
  obtain ⟨a, b, ha, hb, hiff⟩ := hN fuel hfuel
  exact ⟨a, b, ha, hb, (hiff.2 ⟨by decide, by decide⟩).1⟩

/-- the one character 0x80: as data it is written in bright white on white, as a format in white on black -/
theorem data_not_format : ∃ a b,
    vcprintf 5 (.lit (str "%s") 0) ⟨fun _ => 0#32, fun _ => .lit [0x80#8] 0⟩ (fun _ => 0#8) = .ok (0#32, a) ∧
    vcprintf 5 (.lit [0x80#8] 0) (VaList.ofWords fun _ => 0#32) (fun _ => 0#8) = .ok (0#32, b) ∧
    a.out = [0xffffff80#32] ∧ b.out = [0x80#32] ∧
    (cputchars ⟨fun _ => blankCell, 0#16, 0x3d4#32, [], []⟩ a.out).buf 0 = 0xff80#16 ∧
    (cputchars ⟨fun _ => blankCell, 0#16, 0x3d4#32, [], []⟩ b.out).buf 0 = 0x0780#16 := by
  have hcell : ∀ c : Word, Plain c →
      cputchars ⟨fun _ => blankCell, 0#16, 0x3d4#32, [], []⟩ [c] =
        (((lptPutc c (serialPutc c ⟨fun _ => blankCell, 0#16, 0x3d4#32, [], []⟩)).putCell (withAttr c)).scroll).showCursor := by
    intro c hc
    change consPutc c _ = _
    rw [consPutc, cgaPutc_plain hc]
  refine ⟨_, _, rfl, rfl, rfl, rfl, ?_, ?_⟩
  · change (cputchars _ [0xffffff80#32]).buf 0 = _
    rw [hcell _ (by decide)]
    rfl
  · change (cputchars _ [0x80#32]).buf 0 = _
    rw [hcell _ (by decide)]
    rfl

end Jos
