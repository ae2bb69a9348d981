/-
What a format means, apart from the loop that prints it.

`pieces` cuts a format into text and directives, `Piece.prints` is what one of them prints from the argument ap on, and
`render` prints them one after the other. Neither knows of pointers, fuel or a sink. Results:
- `pieces_source`: the pieces of a format are the format;
- `scanned_flags`: the modifiers of a directive, read by the reswitch loop, are the fold `flags` over their characters;
- `pieces_append`: a format that does not end in the middle of a directive is cut apart from what follows it;
- `closed_or_cut`: a format is closed, or closed up to the directive that its end cuts off;
- `vprintfmt_closed`: a closed format at the head of another prints its pieces and goes on behind itself;
- `vprintfmt_renders`: vprintfmt prints the pieces of its format, on any sink, and a format in two parts prints the first
  and then the second with the arguments that are left.
-/
import Jos.Printf.Field

namespace Jos

open Jos.Lib

/-! ## The syntax -/

/-- a part of a format; `cut` is a directive that the end of the format cuts off -/
inductive Piece where
  | text (c : Byte)
  | conv (mods : List Byte) (c : Byte)
  | unknown (mods : List Byte) (c : Byte)
  | cut (mods : List Byte)
deriving DecidableEq, Repr

def Piece.source : Piece → List Byte
  | .text c => [c]
  | .conv mods c => chr '%' :: (mods ++ [c])
  | .unknown mods c => chr '%' :: (mods ++ [c])
  | .cut mods => chr '%' :: mods

/-- the characters that end a directive with a conversion -/
def Conversion (c : Byte) : Prop := c ∈ conversions

instance : DecidablePred Conversion := fun c => inferInstanceAs (Decidable (c ∈ conversions))

/-- the pieces of a format; `some mods` is in a directive, behind those modifiers -/
def piecesFrom : Option (List Byte) → List Byte → List Piece
  | none, [] => []
  | some mods, [] => [.cut mods]
  | none, c :: f => if c = chr '%' then piecesFrom (some []) f else .text c :: piecesFrom none f
  | some mods, c :: f =>
    if Modifier c then piecesFrom (some (mods ++ [c])) f
    else (if Conversion c then .conv mods c else .unknown mods c) :: piecesFrom none f

def pieces (f : List Byte) : List Piece := piecesFrom none f

/-- the format does not end in the middle of a directive -/
def Closed (f : List Byte) : Prop := ∀ mods, Piece.cut mods ∉ pieces f

/-! ## The meaning -/

/-- a directive after the modifiers l, p being the value of the number that they start in -/
def flags (word : ℕ → Word) : List Byte → Option Word → Dir → Dir
  | [], none, d => d
  | [], some p, d => d.processPrecision p
  | b :: l, none, d =>
    if chr '1' ≤ b ∧ b ≤ chr '9' then flags word l (some (decimal 0#32 b)) { d with fmt := d.fmt.next }
    else flags word l none (d.single word b)
  | b :: l, some p, d =>
    if Digit b then flags word l (some (decimal p b)) { d with fmt := d.fmt.next }
    else flags word l none ((d.processPrecision p).single word b)

/-- the directive with the modifiers mods, whose arguments start at ap -/
def directive (a : Args) (mods : List Byte) (ap : ℕ) : Dir := flags a.word mods none (Dir.start .null ap)

namespace Piece

/-- what a piece prints -/
def prints (a : Args) (ap : ℕ) : Piece → List Word
  | .text c => [int c]
  | .conv mods c => convText a c (directive a mods ap)
  | .unknown mods c => (chr '%' :: (mods ++ [c])).map int
  | .cut mods => (chr '%' :: mods).map int

/-- the arguments that it takes: one for each '*', and those of the conversion -/
def takes : Piece → ℕ
  | .text _ => 0
  | .conv mods c => mods.count (chr '*') + slots c (BitVec.ofNat 32 (mods.count (chr 'l')))
  | .unknown mods _ => mods.count (chr '*')
  | .cut mods => mods.count (chr '*')

end Piece

/-- what the pieces print, from the argument ap on -/
def render (a : Args) : ℕ → List Piece → List Word
  | _, [] => []
  | ap, p :: ps => p.prints a ap ++ render a (ap + p.takes) ps

def takesAll (ps : List Piece) : ℕ := (ps.map Piece.takes).sum

/-! ## Cutting -/

section Cutting

variable {f g : List Byte}

theorem piecesFrom_modifiers {mods : List Byte} (hmods : ∀ b ∈ mods, Modifier b) (l f : List Byte) :
    piecesFrom (some l) (mods ++ f) = piecesFrom (some (l ++ mods)) f := by
  induction mods generalizing l with
  | nil => rw [List.nil_append, List.append_nil]
  | cons b mods ih =>
    rw [List.cons_append, piecesFrom, if_pos (hmods b List.mem_cons_self),
      ih (fun x hx => hmods x (List.mem_cons_of_mem b hx)), List.append_assoc]
    rfl

/-- a directive at the head of a format -/
theorem pieces_directive {mods : List Byte} (hmods : ∀ b ∈ mods, Modifier b) (f : List Byte) :
    pieces (chr '%' :: (mods ++ f)) = piecesFrom (some mods) f := by
  rw [pieces, piecesFrom, if_pos rfl, piecesFrom_modifiers hmods, List.nil_append]

/-- a directive with its conversion -/
theorem pieces_conv {mods : List Byte} (hmods : ∀ b ∈ mods, Modifier b) {c : Byte} (hc : ¬ Modifier c)
    (hconv : c ∈ conversions) (f : List Byte) : pieces (chr '%' :: (mods ++ c :: f)) = .conv mods c :: pieces f := by
  have hconv : Conversion c := hconv
  rw [pieces_directive hmods, piecesFrom, if_neg hc, if_pos hconv]
  rfl

theorem pieces_unknown {mods : List Byte} (hmods : ∀ b ∈ mods, Modifier b) {c : Byte} (hc : ¬ Modifier c)
    (hconv : c ∉ conversions) (f : List Byte) : pieces (chr '%' :: (mods ++ c :: f)) = .unknown mods c :: pieces f := by
  have hconv : ¬ Conversion c := hconv
  rw [pieces_directive hmods, piecesFrom, if_neg hc, if_neg hconv]
  rfl

theorem piecesFrom_source (st : Option (List Byte)) (f : List Byte) :
    (piecesFrom st f).flatMap Piece.source = (match st with
      | none => []
      | some mods => chr '%' :: mods) ++ f := by
  induction f generalizing st with
  | nil => cases st <;> simp [piecesFrom, Piece.source]
  | cons c f ih =>
    cases st with
    | none =>
      rw [piecesFrom]
      split_ifs with hc
      · rw [ih, hc]
        rfl
      · rw [List.flatMap_cons, ih]
        rfl
    | some mods =>
      rw [piecesFrom]
      split_ifs with hm hconv
      · rw [ih]
        simp
      · rw [List.flatMap_cons, ih]
        simp [Piece.source]
      · rw [List.flatMap_cons, ih]
        simp [Piece.source]

/-- **The pieces of a format are the format.** -/
theorem pieces_source (f : List Byte) : (pieces f).flatMap Piece.source = f := piecesFrom_source none f

/-- what is behind a format does not change how it is cut, if its last directive is complete -/
theorem piecesFrom_append (st : Option (List Byte)) (h : ∀ mods, Piece.cut mods ∉ piecesFrom st f) :
    piecesFrom st (f ++ g) = piecesFrom st f ++ pieces g := by
  induction f generalizing st with
  | nil =>
    cases st with
    | none => rfl
    | some mods => exact absurd List.mem_cons_self (h mods)
  | cons c f ih =>
    cases st with
    | none =>
      rw [List.cons_append]
      simp only [piecesFrom] at h ⊢
      split_ifs at h ⊢ with hc
      · exact ih _ h
      · rw [ih _ fun mods hm => h mods (List.mem_cons_of_mem _ hm)]
        rfl
    | some mods =>
      rw [List.cons_append]
      simp only [piecesFrom] at h ⊢
      split_ifs at h ⊢ with hm hconv
      · exact ih _ h
      · rw [ih _ fun mods hm => h mods (List.mem_cons_of_mem _ hm)]
        rfl
      · rw [ih _ fun mods hm => h mods (List.mem_cons_of_mem _ hm)]
        rfl

theorem pieces_append (h : Closed f) : pieces (f ++ g) = pieces f ++ pieces g := piecesFrom_append none h

theorem render_append (a : Args) (ap : ℕ) (ps qs : List Piece) :
    render a ap (ps ++ qs) = render a ap ps ++ render a (ap + takesAll ps) qs := by
  induction ps generalizing ap with
  | nil => rfl
  | cons p ps ih =>
    have hsum : ap + takesAll (p :: ps) = ap + p.takes + takesAll ps := by
      rw [takesAll, List.map_cons, List.sum_cons, ← Nat.add_assoc]
      rfl
    rw [List.cons_append, render, render, ih, List.append_assoc, hsum]

end Cutting

/-! ## Modifiers -/

section Modifiers

variable {word : ℕ → Word} {c : Byte}

theorem flags_digits {ds : List Byte} (hds : ∀ x ∈ ds, Digit x) (l : List Byte) (p : Word) (d : Dir) :
    flags word (ds ++ l) (some p) d = flags word l (some (ds.foldl decimal p)) { d with fmt := d.fmt.skip ds.length } := by
  induction ds generalizing p d with
  | nil =>
    rw [List.nil_append, List.foldl_nil, List.length_nil, Ptr.skip_zero]
  | cons b ds ih =>
    rw [List.cons_append, flags, if_pos (hds b List.mem_cons_self), ih fun x hx => hds x (List.mem_cons_of_mem b hx),
      Ptr.skip_next]
    rfl

/-- a number ends where the digits end -/
theorem flags_number_end {l : List Byte} (hl : ∀ x m, l = x :: m → ¬ Digit x) (p : Word) (d : Dir) :
    flags word l (some p) d = flags word l none (d.processPrecision p) := by
  cases l with
  | nil => rfl
  | cons x m =>
    have hx := hl x m rfl
    have hnum : ¬ (chr '1' ≤ x ∧ x ≤ chr '9') := by
      rintro ⟨hlo, hhi⟩
      exact hx ⟨BitVec.le_trans (by decide) hlo, hhi⟩
    rw [flags, flags, if_neg hx, if_neg hnum]

theorem flags_number {b : Byte} {ds l : List Byte} (hb : chr '1' ≤ b ∧ b ≤ chr '9') (hds : ∀ x ∈ ds, Digit x)
    (hl : ∀ x m, l = x :: m → ¬ Digit x) (d : Dir) :
    flags word (b :: (ds ++ l)) none d = flags word l none (d.number b ds) := by
  rw [flags, if_pos hb, flags_digits hds, flags_number_end hl, Ptr.skip_next]
  rfl

/-- **The reswitch loop reads the modifiers as `flags` does.** -/
theorem scanned_flags (hc : ¬ Modifier c) {mods : List Byte} (hmods : ∀ b ∈ mods, Modifier b) (d : Dir) :
    Scanned word d mods c { flags word mods none d with fmt := (flags word mods none d).fmt.next } := by
  -- on the number of modifiers that are left: one of them, or a number with all its digits, goes first
  induction hn : mods.length using Nat.strong_induction_on generalizing mods d with
  | _ n ih =>
    cases mods with
    | nil => exact Scanned.last word d hc
    | cons b ms =>
      have hms : ∀ x ∈ ms, Modifier x := fun x hx => hmods x (List.mem_cons_of_mem b hx)
      rw [List.length_cons] at hn
      have hone : b ∈ str "-0*.#l" → ¬ (chr '1' ≤ b ∧ b ≤ chr '9') → Scanned word d (b :: ms) c
          { flags word (b :: ms) none d with fmt := (flags word (b :: ms) none d).fmt.next } := by
        intro hb hnum
        rw [flags, if_neg hnum]
        exact (ih ms.length (by omega) hms (d.single word b) rfl).single hb
      rcases hmods b List.mem_cons_self with rfl | hdigit | rfl | rfl | rfl | rfl
      · exact hone (by decide) (by decide)
      · by_cases h0 : b = chr '0'
        · subst h0
          exact hone (by decide) (by decide)
        · obtain ⟨ds, rest, rfl, hds, hrest⟩ := longest_prefix Digit ms
          rw [List.length_append] at hn
          have hb := hdigit.of_ne_zero h0
          rw [flags_number hb hds hrest]
          refine (ih rest.length (by omega) (fun x hx => hms x (List.mem_append_right ds hx)) (d.number b ds) rfl).number
            hb hds ?_
          cases rest with
          | nil => exact ⟨c, [], rfl, fun h => hc (Or.inr (Or.inl h))⟩
          | cons x l => exact ⟨x, l ++ [c], rfl, hrest x l rfl⟩
      · exact hone (by decide) (by decide)
      · exact hone (by decide) (by decide)
      · exact hone (by decide) (by decide)
      · exact hone (by decide) (by decide)

/-! Where the directive stands in memory is of no account. -/

theorem processPrecision_at (d : Dir) (p : Word) (q : Ptr) :
    { d with fmt := q }.processPrecision p = { d.processPrecision p with fmt := q } := by
  unfold Dir.processPrecision
  split_ifs <;> rfl

theorem single_at (d : Dir) (b : Byte) (q : Ptr) :
    { d with fmt := q }.single word b = { d.single word b with fmt := q.next } := by
  unfold Dir.single Dir.processPrecision
  split_ifs <;> rfl

theorem flags_at (l : List Byte) (p : Option Word) (d : Dir) (q : Ptr) :
    ∃ r, flags word l p { d with fmt := q } = { flags word l p d with fmt := r } := by
  induction l generalizing p d q with
  | nil =>
    cases p with
    | none => exact ⟨q, rfl⟩
    | some p => exact ⟨q, processPrecision_at d p q⟩
  | cons b l ih =>
    cases p with
    | none =>
      simp only [flags]
      split_ifs
      · exact ih _ { d with fmt := d.fmt.next } q.next
      · rw [single_at]
        exact ih _ _ _
    | some p =>
      simp only [flags]
      split_ifs
      · exact ih _ { d with fmt := d.fmt.next } q.next
      · rw [processPrecision_at, single_at]
        exact ih _ _ _

/-- what a directive prints, wherever its format is -/
theorem convText_directive (a : Args) (mods : List Byte) (ap : ℕ) (fmt q : Ptr) :
    convText a c { flags a.word mods none (Dir.start fmt ap) with fmt := q } = convText a c (directive a mods ap) := by
  obtain ⟨r, hr⟩ := @flags_at a.word mods none (Dir.start .null ap) fmt
  change convText a c { flags a.word mods none { Dir.start .null ap with fmt := fmt } with fmt := q } = _
  rw [hr]
  rfl

end Modifiers

/-! ## The formatter -/

section Formatter

variable {τ : Type} {k : Sink τ} {s t : τ} {va : VaList} {a : Args} {f g : List Byte}

/-- one complete directive, from any format that goes on behind it -/
theorem vprintfmt_conv {mods : List Byte} (hmods : ∀ b ∈ mods, Modifier b) {c : Byte} (hc : ¬ Modifier c)
    (hconv : c ∈ conversions) {fmt : Ptr} {ap : ℕ} (h : Text k s fmt (chr '%' :: (mods ++ [c]))) {reqs : List (Byte × ℕ)}
    (ha : a.Proper ((c, ap + mods.count (chr '*')) :: reqs))
    (hva : Passed k s va a ((c, ap + mods.count (chr '*')) :: reqs)) :
    Returns (fun n => vprintfmt k n fmt va ap) s () t ↔
      Returns (fun n => vprintfmt k n (fmt.skip (mods.length + 2)) va (ap + (Piece.conv mods c).takes))
        (feed k s ((Piece.conv mods c).prints a ap)) () t := by
  have hd := @scanned_flags a.word c hc mods hmods (Dir.start fmt.next ap)
  have hap := hd.ap
  have hlflag := hd.lflag
  have hfmt := hd.fmt
  have htext := convText_directive (c := c) a mods ap fmt.next (flags a.word mods none (Dir.start fmt.next ap)).fmt.next
  generalize { flags a.word mods none (Dir.start fmt.next ap) with
    fmt := (flags a.word mods none (Dir.start fmt.next ap)).fmt.next } = d at hd hap hlflag hfmt htext
  change d.ap = ap + _ at hap
  change d.lflag = 0#32 + _ at hlflag
  change d.fmt = fmt.next.skip _ at hfmt
  rw [BitVec.zero_add] at hlflag
  rw [← hap] at ha hva
  have hret := returns_conv (k := k) (s := s) hconv (d := d) hva.word
    (fun he => ha.err d.ap (he ▸ List.mem_cons_self))
    fun hs => ⟨ha.nul d.ap (hs ▸ List.mem_cons_self), hva.text d.ap (hs ▸ List.mem_cons_self)⟩
  have htakes : d.ap + slots c d.lflag = ap + (Piece.conv mods c).takes := by
    rw [hap, hlflag, Nat.add_assoc]
    rfl
  rw [vprintfmt_directive h (hva.word ▸ hd) hret, htext, htakes, hfmt, Ptr.skip_next]
  rfl

theorem Closed.tail {p : Piece} (hf : Closed f) (h : pieces f = p :: pieces g) : Closed g := by
  intro mods hmem
  apply hf mods
  rw [h]
  exact List.mem_cons_of_mem p hmem

theorem takesAll_cons (p : Piece) (ps : List Piece) : takesAll (p :: ps) = p.takes + takesAll ps := by
  rw [takesAll, List.map_cons, List.sum_cons]
  rfl

/-- **What a closed format does** at the head of any other: its pieces are printed, its arguments are taken, and the loop
goes on behind it. -/
theorem vprintfmt_closed (hf : 0#8 ∉ f) (hclosed : Closed f) {fmt : Ptr} {ap : ℕ}
    (ha : a.Proper (requests none f ap)) (hfmt : Text k s fmt (f ++ g)) (hva : Passed k s va a (requests none f ap)) :
    Returns (fun n => vprintfmt k n fmt va ap) s () t ↔
      Returns (fun n => vprintfmt k n (fmt.skip f.length) va (ap + takesAll (pieces f)))
        (feed k s (render a ap (pieces f))) () t := by
  induction hn : f.length using Nat.strong_induction_on generalizing f s fmt ap with
  | _ n ih =>
    cases f with
    | nil =>
      rw [List.length_nil] at hn
      rw [← hn, Ptr.skip_zero]
      rfl
    | cons c f =>
      have hn' := hn
      rw [List.length_cons] at hn
      obtain ⟨hc0, hf'⟩ := not_or.1 (List.mem_cons.not.1 hf)
      by_cases hp : c = chr '%'
      · subst hp
        obtain ⟨mods, rest, rfl, hmods, hrest⟩ := longest_prefix Modifier f
        rw [List.length_append] at hn
        rw [requests_directive hmods] at ha hva
        cases rest with
        | nil =>
          -- the directive would be cut off
          exact absurd (by rw [pieces_directive hmods]; exact List.mem_cons_self) (hclosed mods)
        | cons c post =>
          have hnc : ¬ Modifier c := hrest c post rfl
          have hpost : 0#8 ∉ post := fun h => hf' (List.mem_append_right mods (List.mem_cons_of_mem c h))
          rw [List.length_cons] at hn
          rw [requests, if_neg hnc] at ha hva
          obtain ⟨hdir, hpostText⟩ := hfmt.directive
          by_cases hconv : c ∈ conversions
          · have hpieces := pieces_conv hmods hnc hconv post
            have htakes : ap + (Piece.conv mods c).takes =
                ap + mods.count (chr '*') + slots c (BitVec.ofNat 32 (mods.count (chr 'l'))) := by
              rw [Piece.takes, Nat.add_assoc]
            have hlen : (chr '%' :: (mods ++ c :: post)).length = mods.length + 2 + post.length := by
              rw [List.length_cons, List.length_append, List.length_cons]
              omega
            rw [if_pos hconv] at ha hva
            rw [vprintfmt_conv hmods hnc hconv hdir ha hva, hpieces, render, takesAll_cons, feed_append, ← Nat.add_assoc,
              htakes, ← hn', hlen, ← Ptr.skip_skip fmt (mods.length + 2)]
            exact ih post.length (by omega) hpost (hclosed.tail hpieces) (ha.mono fun x hx => List.mem_cons_of_mem _ hx)
              (hpostText.feed _) ((hva.mono fun x hx => List.mem_cons_of_mem _ hx).feed _) rfl
          · have hpieces := pieces_unknown hmods hnc hconv post
            have hlen : (chr '%' :: (mods ++ c :: post)).length = mods.length + 2 + post.length := by
              rw [List.length_cons, List.length_append, List.length_cons]
              omega
            have hc0' : c ≠ 0#8 := by
              rintro rfl
              exact hf' (List.mem_append_right mods List.mem_cons_self)
            rw [if_neg hconv] at ha hva
            rw [vprintfmt_unknown hmods hnc hconv hc0' hdir, hpieces, render, takesAll_cons, feed_append, ← Nat.add_assoc,
              ← hn', hlen, ← Ptr.skip_skip fmt (mods.length + 2)]
            exact ih post.length (by omega) hpost (hclosed.tail hpieces) ha (hpostText.feed _) (hva.feed _) rfl
      · have hpieces : pieces (c :: f) = .text c :: pieces f := by
          rw [pieces, piecesFrom, if_neg hp]
          rfl
        rw [requests, if_neg hp] at ha hva
        rw [vprintfmt_char (Text.reads hfmt).head hp (Ne.symm hc0), hpieces, render, takesAll_cons, feed_append,
          ← Nat.add_assoc, ← hn', List.length_cons, ← Ptr.skip_next]
        exact ih f.length (by omega) hf' (hclosed.tail hpieces) ha ((Text.tail hfmt).putch (int c)) (hva.feed [int c]) rfl

/-! ## Formats that end in a directive -/

theorem Closed.cons {p : Piece} (hp : ∀ mods, p ≠ .cut mods) (h : pieces f = p :: pieces g) (hg : Closed g) : Closed f := by
  intro mods hmem
  rw [h] at hmem
  rcases List.mem_cons.1 hmem with heq | hmem
  · exact hp mods heq.symm
  · exact hg mods hmem

/-- a complete piece at the head of a format -/
theorem Closed.cons_or_cut {p : Piece} (hp : ∀ mods, p ≠ .cut mods) {pre : List Byte}
    (hpre : ∀ h, pieces (pre ++ h) = p :: pieces h)
    (h : Closed f ∨ ∃ g mods, f = g ++ chr '%' :: mods ∧ (∀ b ∈ mods, Modifier b) ∧ Closed g) :
    Closed (pre ++ f) ∨ ∃ g mods, pre ++ f = g ++ chr '%' :: mods ∧ (∀ b ∈ mods, Modifier b) ∧ Closed g := by
  rcases h with hf | ⟨g, mods, rfl, hmods, hg⟩
  · exact Or.inl (hf.cons hp (hpre f))
  · exact Or.inr ⟨pre ++ g, mods, (List.append_assoc ..).symm, hmods, hg.cons hp (hpre g)⟩

/-- only the last directive can be cut off -/
theorem closed_or_cut (f : List Byte) :
    Closed f ∨ ∃ g mods, f = g ++ chr '%' :: mods ∧ (∀ b ∈ mods, Modifier b) ∧ Closed g := by
  induction hn : f.length using Nat.strong_induction_on generalizing f with
  | _ n ih =>
    cases f with
    | nil => exact Or.inl fun mods => List.not_mem_nil
    | cons c f =>
      rw [List.length_cons] at hn
      by_cases hp : c = chr '%'
      · subst hp
        obtain ⟨mods, rest, rfl, hmods, hrest⟩ := longest_prefix Modifier f
        rw [List.length_append] at hn
        cases rest with
        | nil => exact Or.inr ⟨[], mods, by rw [List.append_nil]; rfl, hmods, fun mods => List.not_mem_nil⟩
        | cons c post =>
          have hnc : ¬ Modifier c := hrest c post rfl
          rw [List.length_cons] at hn
          have hsplit : chr '%' :: (mods ++ c :: post) = chr '%' :: (mods ++ [c]) ++ post := by simp
          rw [hsplit]
          refine Closed.cons_or_cut (p := if Conversion c then .conv mods c else .unknown mods c) ?_ ?_
            (ih post.length (by omega) post rfl)
          · intro l
            split_ifs <;> exact fun h => by cases h
          · intro h
            have hjoin : chr '%' :: (mods ++ [c]) ++ h = chr '%' :: (mods ++ c :: h) := by simp
            rw [hjoin, pieces_directive hmods, piecesFrom, if_neg hnc]
            rfl
      · refine @Closed.cons_or_cut f (.text c) (fun l h => by cases h) [c] ?_ (ih f.length (by omega) f rfl)
        intro h
        change piecesFrom none (c :: h) = _
        rw [piecesFrom, if_neg hp]
        rfl

/-- a format asks for the arguments that its head asks for -/
theorem requests_append (st : Option ℕ) (f g : List Byte) (ap : ℕ) :
    ∀ x ∈ requests st f ap, x ∈ requests st (f ++ g) ap := by
  induction f generalizing st ap with
  | nil =>
    intro x hx
    cases st <;> exact absurd hx List.not_mem_nil
  | cons c f ih =>
    cases st with
    | none =>
      rw [List.cons_append, requests, requests]
      exact ih _ _
    | some l =>
      rw [List.cons_append, requests, requests]
      by_cases hm : Modifier c
      · rw [if_pos hm, if_pos hm]
        exact ih _ _
      · rw [if_neg hm, if_neg hm]
        by_cases hconv : c ∈ conversions
        · rw [if_pos hconv, if_pos hconv]
          intro x hx
          rcases List.mem_cons.1 hx with rfl | hx
          · exact List.mem_cons_self
          · exact List.mem_cons_of_mem _ (ih _ _ x hx)
        · rw [if_neg hconv, if_neg hconv]
          exact ih _ _

/-- on any sink the pieces of the format are put out, the last of which may be cut off -/
theorem vprintfmt_prints (hf : 0#8 ∉ f) {fmt : Ptr} {ap : ℕ} (ha : a.Proper (requests none f ap))
    (hfmt : Text k s fmt (f ++ [0#8])) (hva : Passed k s va a (requests none f ap)) :
    Returns (fun n => vprintfmt k n fmt va ap) s () (feed k s (render a ap (pieces f))) := by
  rcases closed_or_cut f with hclosed | ⟨g, mods, rfl, hmods, hg⟩
  · rw [vprintfmt_closed hf hclosed ha hfmt hva]
    exact vprintfmt_nul (hfmt.right.feed _).reads.head
  · -- the head prints its pieces, and the rest of the format is printed as it is
    have hg0 : 0#8 ∉ g := fun h => hf (List.mem_append_left _ h)
    have hsub := requests_append none g (chr '%' :: mods) ap
    rw [List.append_assoc] at hfmt
    have hcut : pieces (chr '%' :: mods) = [.cut mods] := by
      have := pieces_directive hmods []
      rwa [List.append_nil] at this
    have hrender : render a (ap + takesAll (pieces g)) [.cut mods] = (chr '%' :: mods).map int := List.append_nil _
    rw [vprintfmt_closed hg0 hg (ha.mono hsub) hfmt (hva.mono hsub), pieces_append hg, render_append, feed_append, hcut,
      hrender]
    exact vprintfmt_cut hmods (hfmt.right.feed _)

/-- **printf means its pieces.** On any sink vprintfmt returns with the text of the pieces put out, each with its own
arguments; the pieces are the format again; and a format in two parts, the first of which is closed, puts out the text of
the first and that of the second from the arguments that are left. -/
theorem vprintfmt_renders (a : Args) (f : List Byte) (hf : 0#8 ∉ f) (ap : ℕ) (ha : a.Proper (requests none f ap)) :
    (pieces f).flatMap Piece.source = f ∧
    (∀ {τ : Type} (k : Sink τ) (s : τ) (va : VaList) (fmt : Ptr), Text k s fmt (f ++ [0#8]) →
      Passed k s va a (requests none f ap) →
        Returns (fun n => vprintfmt k n fmt va ap) s () (feed k s (render a ap (pieces f)))) ∧
    ∀ g h, f = g ++ h → Closed g →
      render a ap (pieces f) = render a ap (pieces g) ++ render a (ap + takesAll (pieces g)) (pieces h) := by
  refine ⟨pieces_source f, ?_, ?_⟩
  · intro τ k s va fmt hfmt hva
    exact vprintfmt_prints hf ha hfmt hva
  · rintro g h rfl hg
    rw [pieces_append hg, render_append]

/-- a number with a width from the arguments, a string and a directive that is cut off -/
theorem vprintfmt_renders_cut :
    Returns (fun n => vprintfmt recorder n (.lit (str "%*d=%s%-") 0)
      ⟨fun i => if i = 0 then 4#32 else 7#32, fun _ => .lit (str "ab") 0⟩ 0) [] () ((str "   7=ab%-").map int) := by
  let a : Args := ⟨fun i => if i = 0 then 4#32 else 7#32, fun _ => str "ab"⟩
  have htext : render a 0 (pieces (str "%*d=%s%-")) = (str "   7=ab%-").map int := by decide
  have ha : a.Proper (requests none (str "%*d=%s%-") 0) := by
    have hreqs : requests none (str "%*d=%s%-") 0 = [(chr 'd', 1), (chr 's', 2)] := by decide
    rw [hreqs]
    constructor
    · intro i hi
      simp [show chr 'e' ≠ chr 'd' by decide, show chr 'e' ≠ chr 's' by decide] at hi
    · intro i _
      change 0#8 ∉ str "ab"
      decide
  have hrun := (vprintfmt_renders a (str "%*d=%s%-") (by decide) 0 ha).2.1 recorder []
    ⟨a.word, fun _ => .lit (str "ab") 0⟩ (.lit (str "%*d=%s%-") 0) (Text.lit _) ⟨rfl, fun _ _ => Text.lit _⟩
  rw [feed_recorder, htext] at hrun
  exact hrun

end Formatter

end Jos
