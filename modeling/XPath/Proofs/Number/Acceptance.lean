/-
The texts that are numbers.

A text is read as a number in two passes.  The first one counts its digits and points and refuses
everything else; the second one knows exponents, plus signs and names as well, but after the first
one it meets nothing of these.  What both let pass are the numerals between blanks.  The counts have
32 bits, so that a text with a multiple of `2 ^ 32` digits counts as one without digits.

* `Literal.Writes.parse?_eq`, `Literal.exists_writes_of_parse?` — the second pass, both ways;
* `Tally.of?_eq`, `Tally.isCounted_of_foldlM_add` — the first pass;
* `Counted` — the digits of a text are seen by a count of 32 bits;
* `read_of_writes`, `isNaN_read_iff` — which texts are read as numbers, and as which.
-/
import XPath.Proofs.Number.Grammar
import XPath.Proofs.Number.Nearest
import XPath.Proofs.Text.Blank

namespace XPath.Number

/-! ### The wider grammar -/

/-- The characters that are counted. -/
def IsCounted (c : Char) : Prop := c.isDigit = true ∨ c = '.'

instance : DecidablePred IsCounted :=
  fun c => inferInstanceAs (Decidable (c.isDigit = true ∨ c = '.'))

namespace Literal

variable {negative : Bool} {l : Literal} {s : List Char} {c : Char}

theorem Form.isCounted (h : l.Form s) : ∀ c ∈ s, IsCounted c := by
  obtain ⟨hwhole, hfraction, -, hs⟩ := form_iff.1 h
  intro c hc
  rcases hs with rfl | ⟨-, rfl⟩
  · rcases List.mem_append.1 hc with hc | hc
    · exact Or.inl (hwhole c hc)
    · rcases List.mem_cons.1 hc with rfl | hc
      · exact Or.inr rfl
      · exact Or.inl (hfraction c hc)
  · exact Or.inl (hwhole c hc)

theorem Form.countP_pos (h : l.Form s) : 0 < s.countP Char.isDigit := by
  obtain ⟨whole, fraction, hdigits, hne, hs⟩ := isUnsigned_of_form h
  obtain ⟨c, hc⟩ := List.exists_mem_of_ne_nil _ hne
  refine List.countP_pos_iff.2 ⟨c, ?_, hdigits c hc⟩
  rcases hs with rfl | rfl
  · exact hc
  · exact List.mem_append.2 ((List.mem_append.1 hc).imp_right (List.mem_cons_of_mem _))

/-- There is one point in a literal, or none. -/
theorem Form.count_point (h : l.Form s) : s.count '.' = 0 ∨ s.count '.' = 1 := by
  obtain ⟨hwhole, hfraction, -, hs⟩ := form_iff.1 h
  have hnone : ∀ digits : List Char, (∀ c ∈ digits, c.isDigit = true) → digits.count '.' = 0 :=
    fun digits hdigits => List.count_eq_zero.2 fun hc => absurd (hdigits _ hc) (by decide)
  rcases hs with rfl | ⟨-, rfl⟩
  · right
    rw [List.count_append, List.count_cons_self, hnone _ hwhole, hnone _ hfraction]
  · exact Or.inl (hnone _ hwhole)

/-- What is left behind a literal was in the text. -/
theorem mem_of_split? {rest : List Char} (h : split? negative s = some (l, rest)) (hc : c ∈ rest) :
    c ∈ s := by
  have hsuffix := List.dropWhile_suffix (l := s) Char.isDigit
  unfold split? at h
  dsimp only at h
  generalize s.dropWhile Char.isDigit = rest' at h hsuffix
  split at h
  · split at h
    · cases h
    · obtain ⟨-, rfl⟩ := Prod.mk.inj (Option.some.inj h)
      have hdrop := (List.dropWhile_suffix Char.isDigit).subset hc
      exact hsuffix.subset (List.mem_cons_of_mem _ hdrop)
  · split at h
    · cases h
    · obtain ⟨-, rfl⟩ := Prod.mk.inj (Option.some.inj h)
      exact hsuffix.subset hc

theorem parseUnsigned?_of_form (h : l.Form s) :
    parseUnsigned? l.negative s = some l.value := by
  rw [parseUnsigned?, split?_eq_some_iff.2 ⟨rfl, h⟩]

theorem toLower_of_isCounted (h : IsCounted c) : c.toLower = c := by
  rcases h with h | rfl
  · have hnine : '9'.val.toNat < 'A'.val.toNat := by decide
    have hupper : ¬ (c.val ≥ 'A'.val ∧ c.val ≤ 'Z'.val) := by
      simp only [Char.isDigit, Bool.and_eq_true, decide_eq_true_eq] at h
      simp only [ge_iff_le, UInt32.le_iff_toNat_le] at h ⊢
      omega
    unfold Char.toLower
    rw [dif_neg hupper]
  · rfl

/-- Digits and points are no name. -/
theorem named?_of_isCounted (h : ∀ c ∈ s, IsCounted c) : named? negative s = none := by
  have hlower : s.map Char.toLower = s :=
    (List.map_congr_left fun c hc => toLower_of_isCounted (h c hc)).trans (List.map_id' s)
  have hname : ∀ (c : Char) (rest : List Char), ¬ IsCounted c →
      String.ofList s ≠ String.ofList (c :: rest) := by
    intro c rest hc heq
    rw [String.ofList_inj] at heq
    exact hc (h c (heq ▸ List.mem_cons_self))
  unfold named?
  rw [hlower]
  split
  · next heq => exact (hname 'i' ['n', 'f'] (by decide) heq).elim
  · next heq => exact (hname 'i' ['n', 'f', 'i', 'n', 'i', 't', 'y'] (by decide) heq).elim
  · next heq => exact (hname 'n' ['a', 'n'] (by decide) heq).elim
  · rfl

/-- Of digits and points, no more than the grammar of the language is read as a number. -/
theorem exists_form_of_parseUnsigned? {x : Float} (hs : ∀ c ∈ s, IsCounted c)
    (h : parseUnsigned? negative s = some x) :
    ∃ l : Literal, l.negative = negative ∧ l.Form s := by
  unfold parseUnsigned? at h
  split at h
  · next l hl => exact ⟨l, split?_eq_some_iff.1 hl⟩
  · next l c rest hl =>
    have hc := hs c (mem_of_split? hl List.mem_cons_self)
    split at h
    · next he =>
      simp only [Bool.or_eq_true, beq_iff_eq] at he
      rcases he with rfl | rfl <;> exact absurd hc (by decide)
    · cases h
  · rw [named?_of_isCounted hs] at h
    cases h

theorem Writes.parse?_eq (h : l.Writes s) :
    l.Form (dropMinus s) ∧ parse? s = some l.value := by
  obtain ⟨rest, hform, rfl⟩ := h
  have hparse := parseUnsigned?_of_form hform
  cases hneg : l.negative with
  | true =>
    rw [hneg] at hparse
    exact ⟨hform, hparse⟩
  | false =>
    rw [hneg] at hparse
    rw [if_neg Bool.false_ne_true]
    -- A sign is neither a digit nor a point.
    unfold dropMinus parse?
    split
    · exact absurd (hform.isCounted '-' List.mem_cons_self) (by decide)
    · split
      · exact absurd (hform.isCounted '-' List.mem_cons_self) (by decide)
      · exact absurd (hform.isCounted '+' List.mem_cons_self) (by decide)
      · exact ⟨hform, hparse⟩

theorem exists_writes_of_parse? {x : Float} (hs : ∀ c ∈ dropMinus s, IsCounted c)
    (h : parse? s = some x) : ∃ l : Literal, l.Writes s := by
  unfold parse? at h
  split at h
  · next rest =>
    obtain ⟨l, hneg, hform⟩ := exists_form_of_parseUnsigned? hs h
    exact ⟨l, rest, hform, (if_pos hneg).symm⟩
  · exact absurd (hs '+' List.mem_cons_self) (by decide)
  · next hminus _ =>
    have hdrop : dropMinus s = s := by
      unfold dropMinus
      split
      · exact (hminus _ rfl).elim
      · rfl
    rw [hdrop] at hs
    obtain ⟨l, hneg, hform⟩ := exists_form_of_parseUnsigned? hs h
    exact ⟨l, s, hform, by rw [hneg, if_neg Bool.false_ne_true]⟩

end Literal

/-! ### Counting -/

/-- A count of 32 bits is zero at each multiple of its range. -/
theorem int32_ofNat_eq_zero_iff {n : Nat} : Int32.ofNat n = 0 ↔ 2 ^ 32 ∣ n := by
  rw [← Int32.toInt_inj, Int32.toInt_ofNat', Int32.toInt_zero, ← Int.dvd_iff_bmod_eq_zero,
    Int.natCast_dvd_natCast]
  rfl

namespace Tally

variable {s : List Char} {c : Char} {t t' : Tally}

theorem add_of_isDigit (h : c.isDigit = true) : t.add c = some ⟨t.digits + 1, t.points⟩ :=
  if_pos h

theorem add_point : t.add '.' = some ⟨t.digits, t.points + 1⟩ := rfl

theorem add_of_not_isCounted (h : ¬ IsCounted c) : t.add c = none := by
  rw [add, if_neg fun hc => h (Or.inl hc), if_neg fun hc => h (Or.inr (beq_iff_eq.1 hc))]

theorem foldlM_add (h : ∀ c ∈ s, IsCounted c) (t : Tally) :
    s.foldlM add t =
      some ⟨t.digits + .ofNat (s.countP Char.isDigit), t.points + .ofNat (s.count '.')⟩ := by
  induction s generalizing t with
  | nil => simp
  | cons c s ih =>
    rw [List.forall_mem_cons] at h
    rw [List.foldlM_cons]
    rcases h.1 with hc | rfl
    · have hpoint : c ≠ '.' := by
        rintro rfl
        exact absurd hc (by decide)
      rw [add_of_isDigit hc, Option.bind_eq_bind, Option.bind_some, ih h.2,
        List.countP_cons_of_pos hc, List.count_cons_of_ne hpoint, Nat.add_comm _ 1,
        Int32.ofNat_add, Int32.add_assoc]
      rfl
    · rw [add_point, Option.bind_eq_bind, Option.bind_some, ih h.2,
        List.countP_cons_of_neg (by decide), List.count_cons_self, Nat.add_comm _ 1,
        Int32.ofNat_add, Int32.add_assoc]
      rfl

theorem of?_eq (h : ∀ c ∈ s, IsCounted c) :
    of? s = some ⟨.ofNat (s.countP Char.isDigit), .ofNat (s.count '.')⟩ := by
  rw [of?, foldlM_add h, Int32.zero_add, Int32.zero_add]

/-- Nothing but digits and points is counted. -/
theorem isCounted_of_foldlM_add (h : s.foldlM add t = some t') : ∀ c ∈ s, IsCounted c := by
  induction s generalizing t with
  | nil => exact fun c hc => absurd hc List.not_mem_nil
  | cons c s ih =>
    rw [List.foldlM_cons, Option.bind_eq_bind] at h
    obtain ⟨t₁, hadd, hrest⟩ := Option.bind_eq_some_iff.1 h
    refine List.forall_mem_cons.2 ⟨?_, ih hrest⟩
    by_contra hc
    rw [add_of_not_isCounted hc] at hadd
    cases hadd

end Tally

/-! ### Reading -/

/-- What a literal is read as may be an infinity, but it is never NaN. -/
theorem Literal.isNaN_value (l : Literal) : l.value.isNaN = false := isNaN_ofGrains _ _ _

theorem isXmlBlank_of_isDigit {c : Char} (h : c.isDigit = true) : Text.isXmlBlank c = false := by
  by_contra hblank
  rw [Bool.not_eq_false] at hblank
  simp only [Text.isXmlBlank, Bool.or_eq_true, beq_iff_eq] at hblank
  rcases hblank with ((rfl | rfl) | rfl) | rfl <;> exact absurd h (by decide)

/-- A count of 32 bits sees that a text has digits: their number is no multiple of its range. -/
def Counted (s : String) : Prop := ¬ 2 ^ 32 ∣ s.toList.countP Char.isDigit

instance : DecidablePred Counted :=
  fun s => inferInstanceAs (Decidable (¬ 2 ^ 32 ∣ s.toList.countP Char.isDigit))

variable {s : String} {l : Literal}

/-- The digits of a text are those between its blanks and behind its sign. -/
theorem countP_body (s : List Char) :
    (dropMinus (Text.strip Text.isXmlBlank s)).countP Char.isDigit = s.countP Char.isDigit := by
  obtain ⟨before, after, hblank, hs⟩ := Text.exists_append_strip Text.isXmlBlank s
  have hnone : ∀ blanks : List Char, (∀ c ∈ blanks, c ∈ before ++ after) →
      blanks.countP Char.isDigit = 0 := fun blanks hsub => List.countP_eq_zero.2 fun c hc hdigit =>
    absurd (hblank c (hsub c hc)) (by rw [isXmlBlank_of_isDigit hdigit]; exact Bool.false_ne_true)
  have hstrip : s.countP Char.isDigit = (Text.strip Text.isXmlBlank s).countP Char.isDigit := by
    conv_lhs => rw [hs]
    rw [List.countP_append, List.countP_append,
      hnone before fun c hc => List.mem_append_left _ hc,
      hnone after fun c hc => List.mem_append_right _ hc, Nat.zero_add, Nat.add_zero]
  rw [hstrip]
  unfold dropMinus
  split
  · next rest heq => rw [heq, List.countP_cons_of_neg (by decide)]
  · rfl

/-- A literal passes if its digits are counted. -/
theorem passes_iff {body : List Char} (h : l.Form body) :
    Tally.passes ⟨.ofNat (body.countP Char.isDigit), .ofNat (body.count '.')⟩ = true ↔
      ¬ 2 ^ 32 ∣ body.countP Char.isDigit := by
  have hpoints : ¬ Int32.ofNat (body.count '.') > 1 := by
    rcases h.count_point with hcount | hcount <;> rw [hcount] <;> decide
  rw [← int32_ofNat_eq_zero_iff]
  simp [Tally.passes, hpoints]

/-- A literal between blanks is read as its double, unless its digits are not counted. -/
theorem read_of_writes (h : l.Writes (Text.strip Text.isXmlBlank s.toList)) :
    read s = if Counted s then l.value else nan := by
  obtain ⟨hform, hparse⟩ := h.parse?_eq
  have hpasses := passes_iff hform
  rw [countP_body] at hpasses
  rw [read, Tally.of?_eq hform.isCounted]
  dsimp only
  rw [countP_body, hparse, Option.getD_some]
  exact if_congr hpasses rfl rfl

/-- A text that is read as a number is a literal between blanks. -/
theorem exists_writes_of_read (h : (read s).isNaN = false) :
    ∃ l : Literal, l.Writes (Text.strip Text.isXmlBlank s.toList) := by
  have hnan : ¬ nan.isNaN = false := by rw [isNaN_nan]; exact Bool.noConfusion
  rw [read] at h
  split at h
  · exact (hnan h).elim
  next tally htally =>
  split at h
  · cases hparse : parse? (Text.strip Text.isXmlBlank s.toList) with
    | none =>
      rw [hparse] at h
      exact (hnan h).elim
    | some x => exact Literal.exists_writes_of_parse? (Tally.isCounted_of_foldlM_add htally) hparse
  · exact (hnan h).elim

/-- A text is read as a number if it is a numeral between blanks whose digits are counted, and as
NaN if it is not. -/
theorem isNaN_read_iff :
    (read s).isNaN = false ↔
      IsNumeral (Text.strip Text.isXmlBlank s.toList) ∧ Counted s := by
  rw [← Literal.exists_writes_iff]
  constructor
  · intro h
    obtain ⟨l, hl⟩ := exists_writes_of_read h
    refine ⟨⟨l, hl⟩, ?_⟩
    by_contra hcounted
    rw [read_of_writes hl, if_neg hcounted, isNaN_nan] at h
    cases h
  · rintro ⟨⟨l, hl⟩, hcounted⟩
    rw [read_of_writes hl, if_pos hcounted]
    exact l.isNaN_value

/-- The digits of a numeral that is not too long are counted. -/
theorem counted_of_length_lt (h : l.Writes (Text.strip Text.isXmlBlank s.toList))
    (hlength : s.length < 2 ^ 32) : Counted s := by
  have hpos := h.parse?_eq.1.countP_pos
  rw [countP_body] at hpos
  have hle := List.countP_le_length (p := Char.isDigit) (l := s.toList)
  rw [String.length_toList] at hle
  exact Nat.not_dvd_of_pos_of_lt hpos (by omega)

end XPath.Number
