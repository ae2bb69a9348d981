/-
Strings in a field whose sizes are arguments or literals.

A '*' takes the width and the precision from the arguments. The width is an int that is decreased by the length of what is
printed: once by the loop that prints it, and once more by the padding on its left. Results:
- `puts_string`, `puts_literal`: what `%*.*s` and its variants put out, and `%W.Ps` with the sizes written out;
- `string_field`: it is the cut string in its field exactly when the width, decreased that often, does not wrap around
  (`string_field_wraps`);
- `literal_sizes`: both notations print the same exactly when a 0 that is taken for a flag is not seen
  (`literal_sizes_differ`).
-/
import Jos.Printf.Field

namespace Jos

open Jos.Lib

/-! ## Sizes that are arguments -/

/-- `%`, '#', flag, '*', and ".*" if there is a precision -/
def starModifiers (alt : Bool) (flag : Flag) (prec : Bool) : List Byte :=
  (if alt then [chr '#'] else []) ++ (flag.chars ++ chr '*' :: if prec then [chr '.', chr '*'] else [])

def starFormat (alt : Bool) (flag : Flag) (prec : Bool) : List Byte := chr '%' :: (starModifiers alt flag prec ++ [chr 's'])

/-- the slot of the string, behind its sizes -/
def stars (prec : Bool) : ℕ := if prec then 2 else 1

section Scanning

variable {c : Byte}

theorem scanned_precision (word : ℕ → Word) (hc : ¬ Modifier c) (prec : Bool) {d : Dir} (hw : d.width.slt 0#32 = false) :
    ∃ d', Scanned word d (if prec then [chr '.', chr '*'] else []) c d' ∧ d'.padc = d.padc ∧ d'.altflag = d.altflag ∧
      d'.width = d.width ∧ d'.precision = if prec then word d.ap else d.precision := by
  cases prec with
  | false => exact ⟨_, Scanned.last word d hc, rfl, rfl, rfl, rfl⟩
  | true =>
    have hdot : d.single word (chr '.') = { d with fmt := d.fmt.next } := by
      rw [Dir.single, if_neg (by decide), if_neg (by decide), if_neg (by decide), if_pos rfl, hw]
      rfl
    have hstar : (d.single word (chr '.')).single word (chr '*') =
        { d with fmt := d.fmt.next.next, ap := d.ap + 1, precision := word d.ap } := by
      rw [hdot, Dir.single, if_neg (by decide), if_neg (by decide), if_pos rfl, Dir.processPrecision]
      simp only [hw]
      rfl
    have hlast := Scanned.last word ((d.single word (chr '.')).single word (chr '*')) hc
    refine ⟨_, (hlast.single (by decide)).single (by decide), ?_, ?_, ?_, ?_⟩ <;> rw [hstar]
    rfl

/-- the scan of flag, '*' and ".*" -/
theorem scanned_stars (word : ℕ → Word) (hc : ¬ Modifier c) (alt : Bool) (flag : Flag) (prec : Bool) (fmt : Ptr) (ap : ℕ)
    (hw : (word ap).slt 0#32 = false) :
    ∃ d, Scanned word (Dir.start fmt ap) (starModifiers alt flag prec) c d ∧ d.padc = flag.padc ∧ d.altflag = alt ∧
      d.width = word ap ∧ d.precision = if prec then word (ap + 1) else -1#32 := by
  -- behind the flags the width is not set yet
  have hsizes : ∀ d : Dir, d.ap = ap → d.width = -1#32 →
      ∃ d', Scanned word d (chr '*' :: if prec then [chr '.', chr '*'] else []) c d' ∧ d'.padc = d.padc ∧
        d'.altflag = d.altflag ∧ d'.width = word ap ∧ d'.precision = if prec then word (ap + 1) else -1#32 := by
    rintro d rfl hwidth
    have hstar : d.single word (chr '*') =
        { d with fmt := d.fmt.next, ap := d.ap + 1, width := word d.ap, precision := -1#32 } := by
      rw [Dir.single, if_neg (by decide), if_neg (by decide), if_pos rfl, Dir.processPrecision]
      simp only [hwidth, neg_one_slt]
      rfl
    obtain ⟨d', hd', hpadc, halt, hwidth', hprec⟩ := scanned_precision word hc prec
      (d := d.single word (chr '*')) (by rw [hstar]; exact hw)
    rw [hstar] at hpadc halt hwidth' hprec
    exact ⟨d', hd'.single (by decide), hpadc, halt, hwidth', hprec⟩
  have hflag : ∀ d : Dir, d.ap = ap → d.width = -1#32 → d.padc = int (chr ' ') →
      ∃ d', Scanned word d (flag.chars ++ chr '*' :: if prec then [chr '.', chr '*'] else []) c d' ∧
        d'.padc = flag.padc ∧ d'.altflag = d.altflag ∧ d'.width = word ap ∧
        d'.precision = if prec then word (ap + 1) else -1#32 := by
    intro d hap hwidth hpadc
    cases flag with
    | none =>
      obtain ⟨d', hd', hpadc', hrest⟩ := hsizes d hap hwidth
      exact ⟨d', hd', hpadc'.trans hpadc, hrest⟩
    | minus =>
      obtain ⟨d', hd', hrest⟩ := hsizes (d.single word (chr '-')) hap hwidth
      exact ⟨d', hd'.single (by decide), hrest⟩
    | zero =>
      obtain ⟨d', hd', hrest⟩ := hsizes (d.single word (chr '0')) hap hwidth
      exact ⟨d', hd'.single (by decide), hrest⟩
  cases alt with
  | false => exact hflag (Dir.start fmt ap) rfl rfl rfl
  | true =>
    obtain ⟨d', hd', hrest⟩ := hflag ((Dir.start fmt ap).single word (chr '#')) rfl rfl rfl
    exact ⟨d', hd'.single (by decide), hrest⟩

end Scanning

/-- a directive as far as `%s` looks at it -/
def Dir.sized (padc width precision : Word) (alt : Bool) : Dir where
  fmt := Ptr.null
  ap := 0
  padc := padc
  width := width
  precision := precision
  lflag := 0#32
  altflag := alt

/-- the fields of a directive that `%s` looks at -/
def Sized (d : Dir) (padc width precision : Word) (alt : Bool) : Prop :=
  d.padc = padc ∧ d.altflag = alt ∧ d.width = width ∧ d.precision = precision

theorem Sized.stringText {d : Dir} {padc width precision : Word} {alt : Bool} (h : Sized d padc width precision alt)
    (l : List Byte) : stringText d l = Jos.stringText (Dir.sized padc width precision alt) l := by
  obtain ⟨rfl, rfl, rfl, rfl⟩ := h
  rfl

/-- a directive for a string, whatever its modifiers but 'l' -/
theorem puts_sized (a : Args) {mods : List Byte} (hmods : ∀ b ∈ mods, Modifier b) {n ap : ℕ}
    (hstar : mods.count (chr '*') = n) (hlong : chr 'l' ∉ mods) {padc width precision : Word} {alt : Bool}
    (hd : ∀ fmt, ∃ d, Scanned a.word (Dir.start fmt ap) mods (chr 's') d ∧ Sized d padc width precision alt)
    (hnul : 0#8 ∉ a.text (ap + n)) :
    Puts a (chr '%' :: (mods ++ [chr 's'])) ap (ap + n + 1)
      (stringText (Dir.sized padc width precision alt) (a.text (ap + n))) := by
  have hslots : ap + n + 1 =
      ap + mods.count (chr '*') + slots (chr 's') (BitVec.ofNat 32 (mods.count (chr 'l'))) := by
    rw [hstar, List.count_eq_zero_of_not_mem hlong]
    rfl
  rw [hslots]
  apply puts_directive hmods (by decide)
  · intro fmt
    obtain ⟨d, hscan, hsized⟩ := hd fmt
    refine ⟨d, hscan, ?_⟩
    have hap : d.ap = ap + n := by
      rw [hscan.ap, hstar]
      rfl
    rw [convText_string, hap, hsized.stringText]
  · rw [hstar]
    exact proper_string a hnul

/-- a string with its sizes as arguments -/
theorem puts_string (a : Args) (alt : Bool) (flag : Flag) (prec : Bool) (ap : ℕ) (hw : (a.word ap).slt 0#32 = false)
    (hnul : 0#8 ∉ a.text (ap + stars prec)) :
    Puts a (starFormat alt flag prec) ap (ap + stars prec + 1)
      (stringText (Dir.sized flag.padc (a.word ap) (if prec then a.word (ap + 1) else -1#32) alt)
        (a.text (ap + stars prec))) := by
  have hs : ¬ Modifier (chr 's') := by decide
  have hmods : ∀ b ∈ starModifiers alt flag prec, Modifier b := by
    cases alt <;> cases flag <;> cases prec <;> decide
  have hstars : (starModifiers alt flag prec).count (chr '*') = stars prec := by
    cases alt <;> cases flag <;> cases prec <;> decide
  have hlong : chr 'l' ∉ starModifiers alt flag prec := by
    cases alt <;> cases flag <;> cases prec <;> decide
  exact puts_sized a hmods hstars hlong (fun fmt => scanned_stars a.word hs alt flag prec fmt ap hw) hnul

/-! ## The field of a string -/

/-- the byte that is printed for c -/
def visible (alt : Bool) (c : Byte) : Byte := if alt ∧ (c < chr ' ' ∨ chr '~' < c) then chr '?' else c

/-- the text in a field of w bytes -/
def textField (flag : Flag) (w : ℕ) (t : List Byte) : List Byte :=
  match flag with
  | .none => List.replicate (w - t.length) (chr ' ') ++ t
  | .zero => List.replicate (w - t.length) (chr '0') ++ t
  | .minus => t ++ List.replicate (w - t.length) (chr ' ')

/-- an int of w that is decreased by n, and once more for padding on the left, ends as no padding where it should -/
def WidthLasts (flag : Flag) (w n : ℕ) : Prop :=
  n ≤ w + 2 ^ 31 ∧ (flag = .minus ∨ w = 0 ∨ 2 * n ≤ w + 2 ^ 31 ∨ w + 2 ^ 32 ≤ 2 * n)

theorem shown_byte (alt : Bool) (c : Byte) : (shown alt c).setWidth 8 = visible alt c := by
  revert c
  cases alt <;> decide

section Widths

variable {w n : ℕ}

theorem slt_ofNat (hw : w < 2 ^ 31) : (0#32).slt (BitVec.ofNat 32 w) ↔ 0 < w := by
  rw [toInt_pos, BitVec.toInt_eq_toNat_cond, BitVec.toNat_ofNat]
  split_ifs <;> omega

/-- an int that is decreased has the right remainder -/
theorem toInt_sub_emod (x : Word) (n : ℕ) : ((x - BitVec.ofNat 32 n).toInt - (x.toInt - n)) % 2 ^ 32 = 0 := by
  have := x.isLt
  rw [BitVec.toInt_eq_toNat_cond, BitVec.toInt_eq_toNat_cond, BitVec.toNat_sub, BitVec.toNat_ofNat]
  split_ifs <;> omega

/-- padding on the right only: the width has been decreased once -/
theorem right_fills (hw : w < 2 ^ 31) (hn : n < 2 ^ 32) :
    (BitVec.ofNat 32 w - BitVec.ofNat 32 n).toInt.toNat = w - n ↔ n ≤ w + 2 ^ 31 := by
  have hmod := sub_toInt_emod w n
  have hlo := BitVec.le_toInt (BitVec.ofNat 32 w - BitVec.ofNat 32 n)
  have hhi := BitVec.toInt_lt (x := BitVec.ofNat 32 w - BitVec.ofNat 32 n)
  omega

/-- padding on both sides: the width has been decreased twice, or has been used up and then decreased -/
theorem left_fills (hpos : 0 < w) (hw : w < 2 ^ 31) (hn : n < 2 ^ 32) :
    (BitVec.ofNat 32 w - BitVec.ofNat 32 n).toInt.toNat +
        (padded (BitVec.ofNat 32 w - BitVec.ofNat 32 n) - BitVec.ofNat 32 n).toInt.toNat = w - n ↔
      n ≤ w + 2 ^ 31 ∧ (2 * n ≤ w + 2 ^ 31 ∨ w + 2 ^ 32 ≤ 2 * n) := by
  have hmod := sub_toInt_emod w n
  have hlo := BitVec.le_toInt (BitVec.ofNat 32 w - BitVec.ofNat 32 n)
  have hhi := BitVec.toInt_lt (x := BitVec.ofNat 32 w - BitVec.ofNat 32 n)
  have hmod' := toInt_sub_emod (padded (BitVec.ofNat 32 w - BitVec.ofNat 32 n)) n
  have hlo' := BitVec.le_toInt (padded (BitVec.ofNat 32 w - BitVec.ofNat 32 n) - BitVec.ofNat 32 n)
  have hhi' := BitVec.toInt_lt (x := padded (BitVec.ofNat 32 w - BitVec.ofNat 32 n) - BitVec.ofNat 32 n)
  by_cases hleft : (0#32).slt (BitVec.ofNat 32 w - BitVec.ofNat 32 n)
  · have hpadded : (padded (BitVec.ofNat 32 w - BitVec.ofNat 32 n)).toInt = 0 := by
      rw [padded, if_pos hleft]
      rfl
    rw [hpadded] at hmod'
    rw [toInt_pos] at hleft
    omega
  · have hpadded : padded (BitVec.ofNat 32 w - BitVec.ofNat 32 n) = BitVec.ofNat 32 w - BitVec.ofNat 32 n := if_neg hleft
    rw [hpadded] at hmod' hlo' hhi' ⊢
    rw [toInt_pos] at hleft
    omega

end Widths

section Fields

variable {flag : Flag} {alt : Bool} {w : ℕ} {l t : List Byte}

theorem map_padding (pc width : Word) :
    (padding pc width).map (BitVec.setWidth 8) = List.replicate width.toInt.toNat (pc.setWidth 8) := List.map_replicate

theorem map_shown (alt : Bool) (l : List Byte) : (l.map (shown alt)).map (BitVec.setWidth 8) = l.map (visible alt) := by
  rw [List.map_map]
  exact List.map_congr_left fun c _ => shown_byte alt c

/-- all that is padded on the left and on the right is what the field needs on one side -/
theorem left_field {pc : Byte} {x y : ℕ} (h : x = w - t.length ∨ x + y ≠ w - t.length) :
    List.replicate x pc ++ (t ++ List.replicate y (chr ' ')) = List.replicate (w - t.length) pc ++ t ↔
      x + y = w - t.length := by
  constructor
  · intro heq
    have hlen := congrArg List.length heq
    rw [List.length_append, List.length_append, List.length_append, List.length_replicate, List.length_replicate,
      List.length_replicate] at hlen
    omega
  · intro hsum
    have hx : x = w - t.length := by
      rcases h with h | h
      · exact h
      · exact absurd hsum h
    have hy : y = 0 := by omega
    rw [hx, hy, List.replicate_zero, List.append_nil]

theorem right_field {x : ℕ} :
    t ++ List.replicate x (chr ' ') = t ++ List.replicate (w - t.length) (chr ' ') ↔ x = w - t.length := by
  constructor
  · intro heq
    have hlen := congrArg List.length heq
    rw [List.length_append, List.length_append, List.length_replicate, List.length_replicate] at hlen
    exact Nat.add_left_cancel hlen
  · rintro rfl
    rfl

/-- padded on the left first -/
theorem stringText_left {padc width : Word} (h : (0#32).slt width ∧ padc ≠ int (chr '-')) (precision : Word) (alt : Bool)
    (l : List Byte) : stringText (Dir.sized padc width precision alt) l =
      padding padc (width - BitVec.ofNat 32 (min l.length precision.toNat)) ++
        ((cut precision l).map (shown alt) ++ padding (int (chr ' '))
          (padded (width - BitVec.ofNat 32 (min l.length precision.toNat)) -
            BitVec.ofNat 32 (cut precision l).length)) := if_pos h

/-- padded on the right only -/
theorem stringText_right {padc width : Word} (h : ¬ ((0#32).slt width ∧ padc ≠ int (chr '-'))) (precision : Word)
    (alt : Bool) (l : List Byte) : stringText (Dir.sized padc width precision alt) l =
      (cut precision l).map (shown alt) ++
        padding (int (chr ' ')) (width - BitVec.ofNat 32 (cut precision l).length) := if_neg h

/-- the text t, of l, in its field -/
theorem stringText_field (alt : Bool) (flag : Flag) {precision : Word} (ht : cut precision l = t)
    (hmin : min l.length precision.toNat = t.length) (hw : w < 2 ^ 31) (hn : t.length < 2 ^ 32) :
    (stringText (Dir.sized flag.padc (BitVec.ofNat 32 w) precision alt) l).map (BitVec.setWidth 8) =
        textField flag w (t.map (visible alt)) ↔ WidthLasts flag w t.length := by
  subst ht
  have hright := right_fills hw hn
  have htlen : ((cut precision l).map (visible alt)).length = (cut precision l).length := List.length_map _
  have hblank : (int (chr ' ')).setWidth 8 = chr ' ' := by decide
  have hside : ((0#32).slt (BitVec.ofNat 32 w) ∧ flag.padc ≠ int (chr '-')) ↔ 0 < w ∧ flag ≠ .minus := by
    rw [slt_ofNat hw]
    refine and_congr_right ?_
    intro _
    cases flag <;> decide
  rw [WidthLasts]
  by_cases hleft : 0 < w ∧ flag ≠ .minus
  · obtain ⟨hpos, hflag⟩ := hleft
    have hboth := left_fills hpos hw hn
    have hfield : textField flag w ((cut precision l).map (visible alt)) =
        List.replicate (w - ((cut precision l).map (visible alt)).length) (flag.padc.setWidth 8) ++
          (cut precision l).map (visible alt) := by
      cases flag with
      | none => rfl
      | minus => exact absurd rfl hflag
      | zero => rfl
    rw [stringText_left (hside.2 ⟨hpos, hflag⟩), hmin, List.map_append, List.map_append, map_padding, map_padding, map_shown, hblank,
      hfield, left_field, htlen, hboth]
    · have hne : ¬ w = 0 := Nat.ne_of_gt hpos
      simp only [hflag, hne, false_or]
    · rw [htlen]
      by_cases hle : (cut precision l).length ≤ w + 2 ^ 31
      · exact Or.inl (hright.2 hle)
      · exact Or.inr fun h => hle (hboth.1 h).1
  · have hzero : flag = .minus ∨ w = 0 := by
      by_contra h
      obtain ⟨hflag, hw0⟩ := not_or.1 h
      exact hleft ⟨Nat.pos_of_ne_zero hw0, hflag⟩
    have hfield : textField flag w ((cut precision l).map (visible alt)) = (cut precision l).map (visible alt) ++
        List.replicate (w - ((cut precision l).map (visible alt)).length) (chr ' ') := by
      rcases hzero with rfl | rfl
      · rfl
      · cases flag <;> simp [textField]
    rw [stringText_right fun h => hleft (hside.1 h), List.map_append, map_padding, map_shown, hblank, hfield, right_field, htlen,
      hright]
    constructor
    · intro h
      rcases hzero with h0 | h0
      · exact ⟨h, Or.inl h0⟩
      · exact ⟨h, Or.inr (Or.inl h0)⟩
    · exact And.left

end Fields

/-- the part of the string that the precision leaves -/
def part (a : Args) (prec : Bool) (ap : ℕ) : List Byte :=
  if prec then (a.text (ap + stars prec)).take (a.word (ap + 1)).toNat else a.text (ap + stars prec)

/-- sizes that are given: no negative int, and a string that a 32-bit memory can hold -/
structure Sizes (a : Args) (prec : Bool) (ap : ℕ) : Prop where
  width : 0 ≤ (a.word ap).toInt
  precision : prec = true → 0 ≤ (a.word (ap + 1)).toInt
  nul : 0#8 ∉ a.text (ap + stars prec)
  length : (a.text (ap + stars prec)).length < 2 ^ 32

theorem slt_zero {x : Word} (h : 0 ≤ x.toInt) : x.slt 0#32 = false :=
  eq_false_of_ne_true fun hlt => absurd (BitVec.slt_iff_toInt_lt.1 hlt) (not_lt.2 h)

theorem ofNat_not_slt {n : ℕ} (hn : n < 2 ^ 31) : (BitVec.ofNat 32 n).slt 0#32 = false := by
  refine slt_zero ?_
  rw [BitVec.toInt_eq_toNat_cond, BitVec.toNat_ofNat]
  split_ifs <;> omega

theorem toNat_lt {x : Word} (h : 0 ≤ x.toInt) : x.toNat < 2 ^ 31 := by
  rw [BitVec.toInt_eq_toNat_cond] at h
  split_ifs at h <;> omega

/-- what is put out is the field where the width lasts -/
theorem Sizes.puts {a : Args} {prec : Bool} {ap : ℕ} (h : Sizes a prec ap) (alt : Bool) (flag : Flag) :
    ∃ cs, Puts a (starFormat alt flag prec) ap (ap + stars prec + 1) cs ∧
      (cs.map (BitVec.setWidth 8) = textField flag (a.word ap).toNat ((part a prec ap).map (visible alt)) ↔
        WidthLasts flag (a.word ap).toNat (part a prec ap).length) := by
  have hputs := puts_string a alt flag prec ap (slt_zero h.width) h.nul
  have hlen := h.length
  have hcut : cut (if prec then a.word (ap + 1) else -1#32) (a.text (ap + stars prec)) = part a prec ap ∧
      min (a.text (ap + stars prec)).length (if prec then a.word (ap + 1) else -1#32 : Word).toNat =
        (part a prec ap).length := by
    cases prec with
    | false =>
      have hmax : (-1#32 : Word).toNat = 2 ^ 32 - 1 := by decide
      refine ⟨cut_neg_one _, ?_⟩
      change min (a.text (ap + stars false)).length (-1#32 : Word).toNat = (a.text (ap + stars false)).length
      rw [hmax]
      omega
    | true =>
      have hnn : ¬ (a.word (ap + 1)).slt 0#32 := by
        rw [slt_zero (h.precision rfl)]
        decide
      refine ⟨if_neg hnn, ?_⟩
      exact (Nat.min_comm _ _).trans List.length_take.symm
  obtain ⟨hpart, hmin⟩ := hcut
  have hpartlen : (part a prec ap).length ≤ (a.text (ap + stars prec)).length := by
    rw [← hmin]
    exact min_le_left _ _
  have hfield := stringText_field alt flag hpart hmin (toNat_lt h.width) (lt_of_le_of_lt hpartlen hlen)
  rw [BitVec.ofNat_toNat, BitVec.setWidth_eq] at hfield
  exact ⟨_, hputs, hfield⟩

/-- **The field of a string.** A string with its sizes as arguments is put out as the part that the precision leaves, in a
field of the width, exactly when the width lasts: it is an int that is decreased by the length of that part, and for
padding on the left once more, and where it wraps around the text is padded though it needs no padding. -/
theorem string_field (a : Args) (alt : Bool) (flag : Flag) (prec : Bool) (ap : ℕ) (h : Sizes a prec ap) :
    (∃ cs, Puts a (starFormat alt flag prec) ap (ap + stars prec + 1) cs ∧
      cs.map (BitVec.setWidth 8) = textField flag (a.word ap).toNat ((part a prec ap).map (visible alt))) ↔
    WidthLasts flag (a.word ap).toNat (part a prec ap).length := by
  obtain ⟨cs, hputs, hiff⟩ := h.puts alt flag
  rw [← hiff]
  constructor
  · rintro ⟨cs', hputs', hfield⟩
    rw [hputs.unique hputs']
    exact hfield
  · intro hfield
    exact ⟨cs, hputs, hfield⟩

/-- `%*.*s` of 5, 2 and "abc" -/
theorem string_field_abc : ∃ cs,
    Puts ⟨fun i => if i = 0 then 5#32 else 2#32, fun _ => str "abc"⟩ (starFormat false .none true) 0 3 cs ∧
      cs.map (BitVec.setWidth 8) = str "   ab" := by
  let a : Args := ⟨fun i => if i = 0 then 5#32 else 2#32, fun _ => str "abc"⟩
  have hsizes : Sizes a true 0 := ⟨by decide, fun _ => by decide, by decide, by decide⟩
  obtain ⟨cs, hputs, hfield⟩ := (string_field a false .none true 0 hsizes).2 ⟨by decide, by decide⟩
  have htext : textField .none (a.word 0).toNat ((part a true 0).map (visible false)) = str "   ab" := by decide
  exact ⟨cs, hputs, hfield.trans htext⟩

/-- a width of 1 does not last for a text of more than 2^30 bytes -/
theorem wide_text {n : ℕ} (hlo : 2 ^ 31 + 1 < 2 * n) (hhi : n < 2 ^ 31) :
    ¬ ∃ cs, Puts ⟨fun i => if i = 0 then 1#32 else BitVec.ofNat 32 n, fun _ => List.replicate n (chr 'a')⟩
      (starFormat false .none true) 0 3 cs ∧ cs.map (BitVec.setWidth 8) = List.replicate n (chr 'a') := by
  let a : Args := ⟨fun i => if i = 0 then 1#32 else BitVec.ofNat 32 n, fun _ => List.replicate n (chr 'a')⟩
  have hn : (BitVec.ofNat 32 n).toNat = n := by
    rw [BitVec.toNat_ofNat]
    omega
  have hsizes : Sizes a true 0 := by
    have hone : 0 ≤ (1#32 : Word).toInt := by decide
    refine ⟨hone, ?_, ?_, ?_⟩
    · intro _
      change 0 ≤ (BitVec.ofNat 32 n).toInt
      rw [BitVec.toInt_eq_toNat_cond, hn]
      split_ifs <;> omega
    · intro hmem
      exact absurd (List.eq_of_mem_replicate hmem) (by decide)
    · change (List.replicate n (chr 'a')).length < 2 ^ 32
      rw [List.length_replicate]
      omega
  have hpart : part a true 0 = List.replicate n (chr 'a') := by
    change (List.replicate n (chr 'a')).take (BitVec.ofNat 32 n).toNat = _
    rw [hn, List.take_replicate, Nat.min_self]
  obtain ⟨cs, hputs, hiff⟩ := hsizes.puts false .none
  rw [hpart, List.map_replicate, List.length_replicate] at hiff
  have hvisible : visible false (chr 'a') = chr 'a' := by decide
  have hone : (a.word 0).toNat = 1 := rfl
  have hfield : textField .none (a.word 0).toNat (List.replicate n (visible false (chr 'a'))) = List.replicate n (chr 'a') := by
    rw [hvisible, textField, List.length_replicate, hone, Nat.sub_eq_zero_of_le (by omega)]
    rfl
  rw [hfield, hone] at hiff
  rintro ⟨cs', hputs', htext⟩
  rw [← hputs.unique hputs'] at htext
  obtain ⟨-, hlasts⟩ := hiff.1 htext
  rcases hlasts with h | h | h | h
  · exact absurd h (by decide)
  · exact absurd h (by decide)
  · omega
  · omega

/-- `%*.*s` of 1 and a text of 2^30 + 1 bytes puts out blanks behind the text -/
theorem string_field_wraps :
    ¬ ∃ cs, Puts ⟨fun i => if i = 0 then 1#32 else BitVec.ofNat 32 (2 ^ 30 + 1),
        fun _ => List.replicate (2 ^ 30 + 1) (chr 'a')⟩ (starFormat false .none true) 0 3 cs ∧
      cs.map (BitVec.setWidth 8) = List.replicate (2 ^ 30 + 1) (chr 'a') :=
  wide_text (by decide) (by decide)

/-! ## Literal sizes -/

/-- a numeral without a leading 0 is not 0 -/
theorem decimalValue_pos {b : Byte} {ds : List Byte} (hb : Digit b) (h0 : b ≠ chr '0') : 0 < decimalValue (b :: ds) := by
  have hmono : ∀ (l : List Byte) (n : ℕ), n ≤ l.foldl (fun n c => n * 10 + (c.toNat - 48)) n := by
    intro l
    induction l with
    | nil => exact fun n => le_refl n
    | cons c l ih => exact fun n => le_trans (by omega) (ih (n * 10 + (c.toNat - 48)))
  have hfirst : 0 < b.toNat - 48 := by
    have hlo : (chr '1').toNat ≤ b.toNat := (hb.of_ne_zero h0).1
    have h49 : (chr '1').toNat = 49 := by decide
    omega
  have hfold : 0 * 10 + (b.toNat - 48) ≤ decimalValue (b :: ds) := hmono ds _
  omega

section Literal

variable {c : Byte} {P : List Byte}

/-- the precision behind a '.': its leading zeros are flags -/
theorem scanned_digits (word : ℕ → Word) (hc : ¬ Modifier c) (hP : ∀ x ∈ P, Digit x) {d : Dir}
    (hw : d.width.slt 0#32 = false) :
    ∃ d', Scanned word d P c d' ∧
      Sized d' (if P.head? = some (chr '0') then int (chr '0') else d.padc) d.width
        (if decimalValue P = 0 then d.precision else BitVec.ofNat 32 (decimalValue P)) d.altflag := by
  induction P generalizing d with
  | nil => exact ⟨_, Scanned.last word d hc, rfl, rfl, rfl, rfl⟩
  | cons b P ih =>
    have hP' : ∀ x ∈ P, Digit x := fun x hx => hP x (List.mem_cons_of_mem b hx)
    by_cases h0 : b = chr '0'
    · subst h0
      obtain ⟨d', hd', hpadc, hrest⟩ := ih hP' (d := d.single word (chr '0')) hw
      refine ⟨d', hd'.single (by decide), ?_, hrest⟩
      rw [hpadc, List.head?_cons, if_pos rfl]
      exact ite_self _
    · have hb : Digit b := hP b List.mem_cons_self
      have hpos : 0 < decimalValue (b :: P) := decimalValue_pos hb h0
      have hend : ∃ x l, [] ++ [c] = x :: l ∧ ¬ Digit x := ⟨c, [], rfl, fun h => hc (Or.inr (Or.inl h))⟩
      have hscan := (Scanned.last word (d.number b P) hc).number (hb.of_ne_zero h0) hP' hend
      rw [List.append_nil] at hscan
      have hhead : (b :: P).head? ≠ some (chr '0') := fun h => h0 (Option.some.inj h)
      refine ⟨_, hscan, ?_⟩
      rw [if_neg hhead, if_neg (Nat.ne_of_gt hpos), Dir.number, Dir.processPrecision]
      simp only [hw]
      exact ⟨rfl, rfl, rfl, decimal_value hP 0⟩

/-- `%`, the width if there is one, '.', the precision and 's' -/
def literalFormat (W P : List Byte) : List Byte := chr '%' :: (W ++ chr '.' :: P ++ [chr 's'])

/-- the pad character and the precision that a literal precision leaves -/
def literalPadc (P : List Byte) : Word := if P.head? = some (chr '0') then int (chr '0') else int (chr ' ')
def literalPrecision (P : List Byte) : Word := if decimalValue P = 0 then -1#32 else BitVec.ofNat 32 (decimalValue P)

/-- a '.' without a width in front of it sets the width to 0 -/
theorem single_dot_start (word : ℕ → Word) (fmt : Ptr) (ap : ℕ) :
    (Dir.start fmt ap).single word (chr '.') = { Dir.start fmt ap with fmt := fmt.next, width := 0#32 } := by
  rw [Dir.single, if_neg (by decide), if_neg (by decide), if_neg (by decide), if_pos rfl]
  exact if_pos neg_one_slt

theorem scanned_dot (word : ℕ → Word) (hc : ¬ Modifier c) (hP : ∀ x ∈ P, Digit x) (fmt : Ptr) (ap : ℕ) :
    ∃ d, Scanned word (Dir.start fmt ap) ([] ++ chr '.' :: P) c d ∧
      Sized d (literalPadc P) 0#32 (literalPrecision P) false := by
  have hdot := single_dot_start word fmt ap
  obtain ⟨d, hd, hsized⟩ := scanned_digits word hc hP (d := (Dir.start fmt ap).single word (chr '.'))
    (by rw [hdot]; exact zero_not_slt)
  rw [hdot] at hsized
  exact ⟨d, hd.single (by decide), hsized⟩

/-- the width stays as it is at the '.' -/
theorem scanned_literal (word : ℕ → Word) (hc : ¬ Modifier c) {W : List Byte} (hW : Numeral W)
    (hw : decimalValue W < 2 ^ 31) (hP : ∀ x ∈ P, Digit x) (fmt : Ptr) (ap : ℕ) :
    ∃ d, Scanned word (Dir.start fmt ap) (W ++ chr '.' :: P) c d ∧
      Sized d (literalPadc P) (BitVec.ofNat 32 (decimalValue W)) (literalPrecision P) false := by
  obtain ⟨⟨b, ds, rfl, h0⟩, hdigit⟩ := hW
  have hnum : (Dir.start fmt ap).number b ds =
      { Dir.start fmt ap with fmt := fmt.skip (ds.length + 1), width := BitVec.ofNat 32 (decimalValue (b :: ds)) } := by
    have hval : ds.foldl decimal (decimal 0#32 b) = BitVec.ofNat 32 (decimalValue (b :: ds)) := decimal_value hdigit 0
    rw [Dir.number, Dir.processPrecision, hval]
    exact if_pos neg_one_slt
  have hnn := ofNat_not_slt hw
  have hdot : ((Dir.start fmt ap).number b ds).single word (chr '.') =
      { (Dir.start fmt ap).number b ds with fmt := ((Dir.start fmt ap).number b ds).fmt.next } := by
    rw [Dir.single, if_neg (by decide), if_neg (by decide), if_neg (by decide), if_pos rfl, hnum]
    simp only [hnn]
    rfl
  obtain ⟨d, hd, hsized⟩ := scanned_digits word hc hP (d := ((Dir.start fmt ap).number b ds).single word (chr '.'))
    (by rw [hdot, hnum]; exact hnn)
  rw [hdot, hnum] at hsized
  exact ⟨d, (hd.single (by decide)).number ((hdigit b List.mem_cons_self).of_ne_zero h0)
    (fun x hx => hdigit x (List.mem_cons_of_mem b hx)) ⟨chr '.', P ++ [c], rfl, by decide⟩, hsized⟩

end Literal

section Same

variable {w p : ℕ} {l P : List Byte}

/-- pad characters are seen where something is padded -/
theorem padding_inj {pc pc' width : Word} (hpc : pc ≠ pc') : padding pc width = padding pc' width ↔ width.toInt.toNat = 0 := by
  rw [padding, padding]
  constructor
  · intro h
    by_contra hpos
    obtain ⟨k, hk⟩ := Nat.exists_eq_succ_of_ne_zero hpos
    rw [hk, List.replicate_succ, List.replicate_succ] at h
    exact hpc (List.cons.inj h).1
  · intro h
    rw [h]
    rfl

theorem blank_ne_minus : int (chr ' ') ≠ int (chr '-') := by decide
theorem zero_ne_minus : int (chr '0') ≠ int (chr '-') := by decide

/-- zeros in place of blanks -/
theorem zeros_same (hpos : 0 < w) (hw : w < 2 ^ 31) (hp : p < 2 ^ 31) :
    stringText (Dir.sized (int (chr '0')) (BitVec.ofNat 32 w) (BitVec.ofNat 32 p) false) l =
        stringText (Dir.sized (int (chr ' ')) (BitVec.ofNat 32 w) (BitVec.ofNat 32 p) false) l ↔
      w ≤ min l.length p := by
  have hslt := (slt_ofNat hw).2 hpos
  have hpnat : (BitVec.ofNat 32 p).toNat = p := by
    rw [BitVec.toNat_ofNat]
    omega
  have hmin : min l.length p ≤ p := min_le_right _ _
  rw [stringText_left ⟨hslt, zero_ne_minus⟩, stringText_left ⟨hslt, blank_ne_minus⟩, List.append_cancel_right_eq,
    padding_inj (by decide), hpnat, (right_fills hw (by omega)).2 (by omega)]
  omega

/-- behind padding on the left nothing is padded, if the width lasts -/
theorem trailing_none (pc : Word) {n : ℕ} (hpos : 0 < w) (hw : w < 2 ^ 31) (hn : 2 * n ≤ w + 2 ^ 31) :
    padding pc (padded (BitVec.ofNat 32 w - BitVec.ofNat 32 n) - BitVec.ofNat 32 n) = [] := by
  have hsum := (left_fills hpos hw (n := n) (by omega)).2 ⟨by omega, Or.inl hn⟩
  have hleft := (right_fills hw (n := n) (by omega)).2 (by omega)
  have hnone : (padded (BitVec.ofNat 32 w - BitVec.ofNat 32 n) - BitVec.ofNat 32 n).toInt.toNat = 0 := by omega
  rw [padding, hnone]
  rfl

/-- the blanks that a precision of 0 leaves, and the whole string padded with zeros -/
theorem blanks_same (hpos : 0 < w) (hw : w < 2 ^ 31) :
    stringText (Dir.sized (int (chr '0')) (BitVec.ofNat 32 w) (-1#32) false) l =
        stringText (Dir.sized (int (chr ' ')) (BitVec.ofNat 32 w) (BitVec.ofNat 32 0) false) l ↔
      l = List.replicate w (chr ' ') := by
  have hslt := (slt_ofNat hw).2 hpos
  have hmax : (-1#32 : Word).toNat = 2 ^ 32 - 1 := by decide
  have hcut : cut (BitVec.ofNat 32 0) l = [] := List.take_zero (l := l)
  have hmin : min l.length (BitVec.ofNat 32 0).toNat = 0 := Nat.min_zero _
  have hstar : stringText (Dir.sized (int (chr ' ')) (BitVec.ofNat 32 w) (BitVec.ofNat 32 0) false) l =
      List.replicate w (int (chr ' ')) := by
    rw [stringText_left ⟨hslt, blank_ne_minus⟩, hcut, hmin, List.length_nil, trailing_none _ hpos hw (by omega),
      padding_sub _ (n := 0) (by omega) (by omega)]
    exact List.append_nil _
  rw [hstar, stringText_left ⟨hslt, zero_ne_minus⟩, cut_neg_one, hmax]
  constructor
  · intro heq
    -- a zero would be seen, and then all of the text is blank
    have hleft : (BitVec.ofNat 32 w - BitVec.ofNat 32 (min l.length (2 ^ 32 - 1))).toInt.toNat = 0 := by
      by_contra hne
      obtain ⟨k, hk⟩ := Nat.exists_eq_succ_of_ne_zero hne
      rw [padding, hk, List.replicate_succ] at heq
      have hhead : int (chr '0') ∈ List.replicate w (int (chr ' ')) := heq ▸ List.mem_cons_self
      exact absurd (List.eq_of_mem_replicate hhead) (by decide)
    have hblank : ∀ c ∈ l, c = chr ' ' := by
      intro c hc
      have hmem : shown false c ∈ List.replicate w (int (chr ' ')) := by
        rw [← heq]
        exact List.mem_append_right _ (List.mem_append_left _ (List.mem_map_of_mem hc))
      have hlow := congrArg (BitVec.setWidth 8) (List.eq_of_mem_replicate hmem)
      rw [shown_byte] at hlow
      exact hlow
    have hle : l.length ≤ w := by
      have hlen := congrArg List.length heq
      rw [List.length_append, List.length_append, List.length_map, List.length_replicate] at hlen
      omega
    rw [min_eq_left (by omega), (right_fills hw (by omega)).2 (by omega)] at hleft
    exact List.eq_replicate_iff.2 ⟨by omega, hblank⟩
  · rintro rfl
    have hshown : shown false (chr ' ') = int (chr ' ') := by decide
    rw [List.length_replicate, min_eq_left (by omega), padding_sub _ (by omega) (by omega), Nat.sub_self,
      List.replicate_zero, List.nil_append, trailing_none _ hpos hw (by omega), List.append_nil, List.map_replicate, hshown]

/-- without a width nothing is padded on the left -/
theorem stringText_bare (padc precision : Word) (l : List Byte) : stringText (Dir.sized padc 0#32 precision false) l =
    (cut precision l).map (shown false) ++ padding (int (chr ' ')) (0#32 - BitVec.ofNat 32 (cut precision l).length) :=
  stringText_right (fun h => absurd h.1 (by decide)) precision false l

/-- without a width nothing is padded, and a precision of 0 that is not seen leaves the whole string -/
theorem whole_same (padc : Word) :
    stringText (Dir.sized padc 0#32 (-1#32) false) l =
        stringText (Dir.sized (int (chr ' ')) 0#32 (BitVec.ofNat 32 0) false) l ↔ l = [] := by
  have hcut : cut (BitVec.ofNat 32 0) l = [] := List.take_zero (l := l)
  have hnone : padding (int (chr ' ')) (0#32 - BitVec.ofNat 32 0) = [] := by decide
  rw [stringText_bare, stringText_bare, hcut, cut_neg_one, List.map_nil, List.nil_append, List.length_nil, hnone]
  constructor
  · intro h
    exact List.map_eq_nil_iff.1 (List.append_eq_nil_iff.1 h).1
  · rintro rfl
    exact hnone

/-- the pad character does not matter without a width -/
theorem padc_same (padc padc' precision : Word) :
    stringText (Dir.sized padc 0#32 precision false) l = stringText (Dir.sized padc' 0#32 precision false) l := by
  rw [stringText_bare, stringText_bare]

end Same

section Notations

variable {a : Args} {ap : ℕ} {W P : List Byte}

theorem digits_modifiers {l : List Byte} (h : ∀ x ∈ l, Digit x ∨ x = chr '.') :
    (∀ x ∈ l, Modifier x) ∧ chr '*' ∉ l ∧ chr 'l' ∉ l := by
  refine ⟨fun x hx => ?_, fun hx => absurd (h _ hx) (by decide), fun hx => absurd (h _ hx) (by decide)⟩
  rcases h x hx with hd | rfl
  · exact Or.inr (Or.inl hd)
  · decide

/-- literal sizes, from the slot of the string -/
theorem puts_literal (hP : ∀ x ∈ P, Digit x) (hW : ∀ x ∈ W, Digit x) {width : Word}
    (hd : ∀ fmt, ∃ d, Scanned a.word (Dir.start fmt ap) (W ++ chr '.' :: P) (chr 's') d ∧
      Sized d (literalPadc P) width (literalPrecision P) false) (hnul : 0#8 ∉ a.text ap) :
    Puts a (literalFormat W P) ap (ap + 1)
      (stringText (Dir.sized (literalPadc P) width (literalPrecision P) false) (a.text ap)) := by
  have hchars : ∀ x ∈ W ++ chr '.' :: P, Digit x ∨ x = chr '.' := by
    intro x hx
    rcases List.mem_append.1 hx with hx | hx
    · exact Or.inl (hW x hx)
    · rcases List.mem_cons.1 hx with rfl | hx
      · exact Or.inr rfl
      · exact Or.inl (hP x hx)
  obtain ⟨hmods, hstar, hlong⟩ := digits_modifiers hchars
  exact puts_sized a hmods (List.count_eq_zero_of_not_mem hstar) hlong hd hnul

/-- `%.*s`: the precision is an argument -/
theorem puts_dotStar (a : Args) (ap : ℕ) (hnul : 0#8 ∉ a.text (ap + 1)) :
    Puts a (str "%.*s") ap (ap + 2) (stringText (Dir.sized (int (chr ' ')) 0#32 (a.word ap) false) (a.text (ap + 1))) := by
  have hputs : Puts a (chr '%' :: ([chr '.', chr '*'] ++ [chr 's'])) ap (ap + 1 + 1)
      (stringText (Dir.sized (int (chr ' ')) 0#32 (a.word ap) false) (a.text (ap + 1))) := by
    refine puts_sized a (by decide) (by decide) (by decide) (fun fmt => ?_) hnul
    have hstar : ((Dir.start fmt ap).single a.word (chr '.')).single a.word (chr '*') =
        { Dir.start fmt ap with fmt := fmt.next.next, ap := ap + 1, width := 0#32, precision := a.word ap } := by
      rw [single_dot_start, Dir.single, if_neg (by decide), if_neg (by decide), if_pos rfl, Dir.processPrecision]
      simp only [zero_not_slt]
      rfl
    have hlast := Scanned.last a.word (((Dir.start fmt ap).single a.word (chr '.')).single a.word (chr '*'))
      (c := chr 's') (by decide)
    refine ⟨_, (hlast.single (by decide)).single (by decide), ?_⟩
    rw [hstar]
    exact ⟨rfl, rfl, rfl, rfl⟩
  exact hputs

theorem Puts.same_iff {f f' : List Byte} {ap₁ ap₂ ap' : ℕ} {cs cs' : List Word} (h : Puts a f ap₁ ap' cs)
    (h' : Puts a f' ap₂ ap' cs') : (∃ ds, Puts a f ap₁ ap' ds ∧ Puts a f' ap₂ ap' ds) ↔ cs = cs' := by
  constructor
  · rintro ⟨ds, hds, hds'⟩
    exact (h.unique hds).trans (h'.unique hds').symm
  · rintro rfl
    exact ⟨cs, h, h'⟩

/-- **Literal sizes.** `%W.Ps` prints what `%*.*s` prints exactly when P has no leading 0, or the zeros that it then pads
with are not seen: P is 0 and the string is the field of blanks, or nothing is padded. `%.Ps` prints what `%.*s` prints
exactly when P is not 0 or the string is empty: a literal 0 is a flag and no precision. -/
theorem literal_sizes (hW : Numeral W) (hw : decimalValue W < 2 ^ 31) (hne : P ≠ []) (hP : ∀ x ∈ P, Digit x)
    (hp : decimalValue P < 2 ^ 31) (hwidth : a.word ap = BitVec.ofNat 32 (decimalValue W))
    (hprec : a.word (ap + 1) = BitVec.ofNat 32 (decimalValue P)) (hnul : 0#8 ∉ a.text (ap + 2)) :
    ((∃ cs, Puts a (literalFormat W P) (ap + 2) (ap + 3) cs ∧ Puts a (starFormat false .none true) ap (ap + 3) cs) ↔
      P.head? ≠ some (chr '0') ∨
      (decimalValue P = 0 ∧ a.text (ap + 2) = List.replicate (decimalValue W) (chr ' ')) ∨
      (decimalValue P ≠ 0 ∧ decimalValue W ≤ min (a.text (ap + 2)).length (decimalValue P))) ∧
    ((∃ cs, Puts a (literalFormat [] P) (ap + 2) (ap + 3) cs ∧ Puts a (str "%.*s") (ap + 1) (ap + 3) cs) ↔
      decimalValue P ≠ 0 ∨ a.text (ap + 2) = []) := by
  have hs : ¬ Modifier (chr 's') := by decide
  have hpos : 0 < decimalValue W := by
    obtain ⟨⟨b, ds, rfl, h0⟩, hdigit⟩ := hW
    exact decimalValue_pos (hdigit b List.mem_cons_self) h0
  have hhead : P.head? ≠ some (chr '0') → decimalValue P ≠ 0 := by
    intro h
    obtain ⟨b, ds, rfl⟩ := List.exists_cons_of_ne_nil hne
    exact Nat.ne_of_gt (decimalValue_pos (hP b List.mem_cons_self) fun h0 => h (congrArg some h0))
  constructor
  · have hlit := puts_literal hP hW.digit
      (fun fmt => scanned_literal a.word hs hW hw hP fmt (ap + 2)) hnul
    have hnn : (a.word ap).slt 0#32 = false := by
      rw [hwidth]
      exact ofNat_not_slt hw
    have hstar := puts_string a false .none true ap hnn hnul
    rw [hwidth, if_pos rfl, hprec] at hstar
    rw [hlit.same_iff hstar, literalPadc, literalPrecision]
    change stringText _ (a.text (ap + 2)) = stringText (Dir.sized (int (chr ' ')) _ _ false) (a.text (ap + 2)) ↔ _
    by_cases hzero : P.head? = some (chr '0')
    · rw [if_pos hzero]
      by_cases hp0 : decimalValue P = 0
      · rw [if_pos hp0, hp0, blanks_same hpos hw]
        simp [hzero]
      · rw [if_neg hp0, zeros_same hpos hw hp]
        simp [hzero, hp0]
    · rw [if_neg hzero, if_neg (hhead hzero)]
      exact iff_of_true rfl (Or.inl hzero)
  · have hlit := puts_literal hP (fun x hx => absurd hx List.not_mem_nil)
      (fun fmt => scanned_dot a.word hs hP fmt (ap + 2)) hnul
    have hstar := puts_dotStar a (ap + 1) hnul
    rw [hprec] at hstar
    rw [hlit.same_iff hstar, literalPrecision]
    change stringText _ (a.text (ap + 2)) = stringText _ (a.text (ap + 2)) ↔ _
    by_cases hp0 : decimalValue P = 0
    · rw [if_pos hp0, hp0, whole_same]
      simp
    · rw [if_neg hp0]
      exact iff_of_true (padc_same _ _ _) (Or.inl hp0)

/-- `%5.2s` and `%*.*s` of 5 and 2 -/
theorem literal_sizes_abc : ∃ cs,
    Puts ⟨fun i => if i = 0 then 5#32 else 2#32, fun _ => str "abc"⟩ (literalFormat (str "5") (str "2")) 2 3 cs ∧
    Puts ⟨fun i => if i = 0 then 5#32 else 2#32, fun _ => str "abc"⟩ (starFormat false .none true) 0 3 cs := by
  let a : Args := ⟨fun i => if i = 0 then 5#32 else 2#32, fun _ => str "abc"⟩
  have hnum : Numeral (str "5") := ⟨⟨chr '5', [], by decide⟩, by decide⟩
  have hnul : 0#8 ∉ a.text 2 := by
    change 0#8 ∉ str "abc"
    decide
  exact (literal_sizes (a := a) (P := str "2") hnum (by decide) (by decide) (by decide) (by decide) rfl rfl hnul).1.2
    (Or.inl (by decide))

/-- `%4.0s` of "ab" prints it behind two zeros, and `%.0s` prints all of it -/
theorem literal_sizes_differ :
    (Puts ⟨fun i => if i = 0 then 4#32 else 0#32, fun _ => str "ab"⟩ (literalFormat (str "4") (str "0")) 2 3
        ((str "00ab").map int) ∧
      ¬ Puts ⟨fun i => if i = 0 then 4#32 else 0#32, fun _ => str "ab"⟩ (starFormat false .none true) 0 3
        ((str "00ab").map int)) ∧
    Puts ⟨fun i => if i = 0 then 4#32 else 0#32, fun _ => str "ab"⟩ (literalFormat [] (str "0")) 2 3
        ((str "ab").map int) ∧
      ¬ Puts ⟨fun i => if i = 0 then 4#32 else 0#32, fun _ => str "ab"⟩ (str "%.*s") 1 3 ((str "ab").map int) := by
  let a : Args := ⟨fun i => if i = 0 then 4#32 else 0#32, fun _ => str "ab"⟩
  have hs : ¬ Modifier (chr 's') := by decide
  have hnum : Numeral (str "4") := ⟨⟨chr '4', [], by decide⟩, by decide⟩
  have hdigit : ∀ x ∈ str "0", Digit x := by decide
  have hnul : 0#8 ∉ a.text 2 := by
    change 0#8 ∉ str "ab"
    decide
  have hlit := puts_literal hdigit hnum.digit
    (fun fmt => scanned_literal a.word hs hnum (by decide) hdigit fmt 2) hnul
  have hstar := puts_string a false .none true 0 (by decide) hnul
  have hlit' := puts_literal hdigit (W := []) (fun x hx => absurd hx List.not_mem_nil)
    (fun fmt => scanned_dot a.word hs hdigit fmt 2) hnul
  have hstar' := puts_dotStar a 1 hnul
  have htext : stringText (Dir.sized (literalPadc (str "0")) (BitVec.ofNat 32 (decimalValue (str "4")))
      (literalPrecision (str "0")) false) (a.text 2) = (str "00ab").map int := by decide
  rw [htext] at hlit
  refine ⟨⟨?_, ?_⟩, ?_, ?_⟩
  · exact hlit
  · intro h
    exact absurd (hstar.unique h) (by decide)
  · exact hlit'
  · intro h
    exact absurd (hstar'.unique h) (by decide)

end Notations

end Jos
