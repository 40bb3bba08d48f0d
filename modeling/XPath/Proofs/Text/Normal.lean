/-
Normal forms of texts.

A text falls apart in one way only into runs of characters that are not blank and the blanks around
them.  The normal form of a text has the same runs with one space between neighbours and no other
blanks, so two texts have the same normal form if they have the same runs, and a text in which
blanks are nothing but such spaces is its own normal form.

* `HasRuns`, `hasRuns_iff` — what the runs of a text are, and that they are found;
* `IsNormal` — texts whose blanks are single spaces between other characters;
* `isNormal_normalizeSpace`, `runs_normalizeSpace` — normal forms are such texts, and have the
  runs of the text that they are made from;
* `IsNormal.normalizeSpace_eq` — such texts are left alone;
* `normalizeSpace_normal` — all of it, and of calls of the function.
-/
import XPath.Proofs.Library.Strings
import XPath.Proofs.Text.Blank
import XPath.Proofs.Text.Words

namespace XPath.Text

/-! ### Runs -/

/-- A text has certain runs of characters that are not blank, in order: each is followed by a blank
or by nothing, and all that is left are blanks. -/
inductive HasRuns (blank : Char → Bool) : List Char → List (List Char) → Prop
  | nil {gap : List Char} (hgap : ∀ c ∈ gap, blank c = true) : HasRuns blank gap []
  | cons {gap w rest : List Char} {ws : List (List Char)} (hgap : ∀ c ∈ gap, blank c = true)
      (hne : w ≠ []) (hw : ∀ c ∈ w, blank c = false) (hrest : ∀ c ∈ rest.head?, blank c = true)
      (h : HasRuns blank rest ws) : HasRuns blank (gap ++ w ++ rest) (w :: ws)

section Runs

variable {blank : Char → Bool} {c : Char} {s gap : List Char} {ws : List (List Char)}

theorem runs_cons_of_blank (hc : blank c = true) : runs blank (c :: s) = runs blank s :=
  runs_append_cons (s := []) hc

/-- Blanks in front of a text make no difference to its runs. -/
theorem runs_append_of_blank (hgap : ∀ c ∈ gap, blank c = true) :
    runs blank (gap ++ s) = runs blank s := by
  induction gap with
  | nil => rfl
  | cons c gap ih =>
    obtain ⟨hc, hgap⟩ := List.forall_mem_cons.1 hgap
    rw [List.cons_append, runs_cons_of_blank hc, ih hgap]

theorem HasRuns.runs_eq (h : HasRuns blank s ws) : runs blank s = ws := by
  induction h with
  | @nil gap hgap =>
    rw [← List.append_nil gap, runs_append_of_blank hgap]
    rfl
  | @cons gap w rest ws hgap hne hw hrest h ih =>
    rw [List.append_assoc, runs_append_of_blank hgap]
    cases rest with
    | nil =>
      rw [List.append_nil, runs_of_forall hne hw, ← ih]
      rfl
    | cons c rest =>
      have hc := hrest c rfl
      rw [runs_append_cons hc, runs_of_forall hne hw, ← runs_cons_of_blank hc, ih]
      rfl

/-- Every text has runs. -/
theorem exists_hasRuns (blank : Char → Bool) (s : List Char) : ∃ ws, HasRuns blank s ws := by
  -- Without the blanks in front and the run after them the text is shorter.
  induction hn : s.length using Nat.strongRecOn generalizing s with
  | ind n ih =>
    have hgap : ∀ c ∈ s.takeWhile blank, blank c = true := fun c hc => List.mem_takeWhile_imp hc
    have hs := s.takeWhile_append_dropWhile (p := blank)
    generalize s.takeWhile blank = gap at hgap hs
    cases hbody : s.dropWhile blank with
    | nil =>
      rw [hbody, List.append_nil] at hs
      exact ⟨[], hs ▸ .nil hgap⟩
    | cons c body =>
      have hc : blank c = false := by simpa [hbody] using List.head?_dropWhile_not blank s
      rw [hbody] at hs
      have hbody := (c :: body).takeWhile_append_dropWhile (p := (!blank ·))
      have hne : (c :: body).takeWhile (!blank ·) ≠ [] := by simp [hc]
      have hw : ∀ d ∈ (c :: body).takeWhile (!blank ·), blank d = false := fun d hd => by
        simpa using List.mem_takeWhile_imp hd
      have hrest := List.head?_dropWhile_not (!blank ·) (c :: body)
      generalize (c :: body).takeWhile (!blank ·) = w at hbody hne hw
      generalize (c :: body).dropWhile (!blank ·) = rest at hbody hrest
      rw [← hbody, ← List.append_assoc] at hs
      obtain ⟨ws, hws⟩ := ih rest.length (by
        have := List.length_pos_iff.2 hne
        rw [← hn, ← hs, List.length_append, List.length_append]
        omega) rest rfl
      refine ⟨w :: ws, hs ▸ .cons hgap hne hw (fun d hd => ?_) hws⟩
      simpa [Option.mem_def.1 hd] using hrest

/-- The runs of a text are those that are found. -/
theorem hasRuns_iff : HasRuns blank s ws ↔ runs blank s = ws := by
  refine ⟨HasRuns.runs_eq, ?_⟩
  rintro rfl
  obtain ⟨ws, hws⟩ := exists_hasRuns blank s
  rwa [hws.runs_eq]

end Runs

/-! ### Words with single spaces between them -/

/-- No blank is at the ends of a list, and none is next to another. -/
structure Tidy (blank : Char → Bool) (s : List Char) : Prop where
  head : ∀ c ∈ s.head?, blank c = false
  last : ∀ c ∈ s.getLast?, blank c = false
  single : s.IsChain fun a b => blank a = true → blank b = false

section Tidy

variable {blank : Char → Bool} {s w : List Char} {ws : List (List Char)}

theorem tidy_of_forall (h : ∀ c ∈ w, blank c = false) : Tidy blank w where
  head c hc := h c (List.mem_of_mem_head? hc)
  last c hc := h c (List.mem_of_mem_getLast? hc)
  single := List.Pairwise.isChain (List.pairwise_of_forall_mem_list fun _ _ b hb _ => h b hb)

/-- Words are a tidy list if there is a space between them. -/
theorem tidy_intercalate (h : ∀ w ∈ ws, w ≠ [] ∧ ∀ c ∈ w, blank c = false) :
    Tidy blank ([' '].intercalate ws) := by
  induction ws with
  | nil => exact tidy_of_forall fun c hc => by cases hc
  | cons w ws ih =>
    obtain ⟨⟨hne, hw⟩, hws⟩ := List.forall_mem_cons.1 h
    have hfirst := tidy_of_forall hw
    cases ws with
    | nil => rwa [List.intercalate_singleton]
    | cons w' ws =>
      have hrest := ih hws
      have hrest_ne : [' '].intercalate (w' :: ws) ≠ [] := by
        have := (hws w' List.mem_cons_self).1
        cases ws <;> simp [List.intercalate_cons_cons, this]
      rw [List.intercalate_cons_cons, List.append_assoc, List.singleton_append]
      refine ⟨?_, ?_, ?_⟩
      · rw [List.head?_append_of_ne_nil _ hne]
        exact hfirst.head
      · rw [List.getLast?_append_of_ne_nil _ (by simp), List.getLast?_cons_of_ne_nil hrest_ne]
        exact hrest.last
      · refine List.isChain_append.2 ⟨hfirst.single, List.isChain_cons.2 ⟨?_, hrest.single⟩, ?_⟩
        · exact fun d hd _ => hrest.head d hd
        · intro c hc d _ hblank
          rw [hfirst.last c hc] at hblank
          cases hblank

theorem eq_space_of_mem_intercalate (h : ∀ w ∈ ws, ∀ c ∈ w, blank c = false) {c : Char}
    (hc : c ∈ [' '].intercalate ws) (hblank : blank c = true) : c = ' ' := by
  induction ws with
  | nil => cases hc
  | cons w ws ih =>
    obtain ⟨hw, hws⟩ := List.forall_mem_cons.1 h
    have hnot : c ∉ w := fun hmem => by
      rw [hw c hmem] at hblank
      cases hblank
    cases ws with
    | nil =>
      rw [List.intercalate_singleton] at hc
      exact (hnot hc).elim
    | cons w' ws =>
      rw [List.intercalate_cons_cons, List.append_assoc, List.mem_append, List.mem_append,
        List.mem_singleton] at hc
      rcases hc with hc | hc | hc
      · exact (hnot hc).elim
      · exact hc
      · exact ih hws hc

/-- In a list whose blanks are single spaces, the runs have one space between neighbours. -/
theorem HasRuns.dropWhile_eq (h : HasRuns blank s ws) (hspace : ∀ c ∈ s, blank c = true → c = ' ')
    (hlast : ∀ c ∈ s.getLast?, blank c = false)
    (hsingle : s.IsChain fun a b => blank a = true → blank b = false) :
    s.dropWhile blank = [' '].intercalate ws := by
  induction h with
  | nil hgap => exact List.dropWhile_eq_nil_iff.2 hgap
  | @cons gap w rest ws hgap hne hw hrest h ih =>
    rw [List.append_assoc] at hspace hlast hsingle ⊢
    have hbody : (w ++ rest).dropWhile blank = w ++ rest := by
      rw [dropWhile_eq_self_iff_head?, List.head?_append_of_ne_nil _ hne]
      exact (tidy_of_forall hw).head
    rw [List.dropWhile_append_of_pos hgap, hbody]
    cases rest with
    | nil =>
      obtain rfl : [] = ws := h.runs_eq
      rw [List.append_nil, List.intercalate_singleton]
    | cons c rest =>
      have hc := hrest c rfl
      obtain rfl : c = ' ' := hspace c (by simp) hc
      have hsuffix : ' ' :: rest <:+ gap ++ (w ++ ' ' :: rest) := by
        rw [← List.append_assoc]
        exact List.suffix_append _ _
      rw [List.getLast?_append_of_ne_nil _ (by simp), List.getLast?_append_of_ne_nil _ (by simp)]
        at hlast
      have hchain := hsingle.suffix hsuffix
      have hrest_ne : rest ≠ [] := by
        rintro rfl
        rw [hlast ' ' rfl] at hc
        cases hc
      have hhead : rest.dropWhile blank = rest :=
        dropWhile_eq_self_iff_head?.2 fun d hd => (List.isChain_cons.1 hchain).1 d hd hc
      have hws := ih (fun d hd => hspace d (hsuffix.subset hd)) hlast hchain
      rw [List.dropWhile_cons_of_pos hc, hhead] at hws
      cases ws with
      | nil => exact (hrest_ne hws).elim
      | cons w' ws =>
        rw [List.intercalate_cons_cons, ← hws, List.append_assoc, List.singleton_append]

end Tidy

/-! ### Normal forms -/

/-- The only blanks of a text are single spaces between other characters. -/
structure IsNormal (s : String) : Prop where
  tab : '\t' ∉ s.toList
  carriageReturn : '\r' ∉ s.toList
  lineFeed : '\n' ∉ s.toList
  head : s.toList.head? ≠ some ' '
  last : s.toList.getLast? ≠ some ' '
  single : ∀ u v : String, s ≠ u ++ "  " ++ v

section Normal

variable {s t : String}

theorem isNormal_iff :
    IsNormal s ↔ (∀ c ∈ s.toList, isXmlBlank c = true → c = ' ') ∧ Tidy isXmlBlank s.toList := by
  constructor
  · intro h
    have hspace : ∀ c ∈ s.toList, isXmlBlank c = true → c = ' ' := by
      intro c hc hblank
      have hfour := isXmlBlank_iff.1 hblank
      simp only [List.mem_cons, List.not_mem_nil, or_false] at hfour
      rcases hfour with rfl | rfl | rfl | rfl
      · rfl
      · exact (h.tab hc).elim
      · exact (h.carriageReturn hc).elim
      · exact (h.lineFeed hc).elim
    have hnot : ∀ {c}, c ∈ s.toList → c ≠ ' ' → isXmlBlank c = false := fun hc hne =>
      Bool.eq_false_of_not_eq_true (mt (hspace _ hc) hne)
    refine ⟨hspace, fun c hc => ?_, fun c hc => ?_, ?_⟩
    · exact hnot (List.mem_of_mem_head? hc) fun heq => h.head (heq ▸ hc)
    · exact hnot (List.mem_of_mem_getLast? hc) fun heq => h.last (heq ▸ hc)
    · refine List.isChain_iff_forall_rel_of_append_cons_cons.2 fun a b u v hs ha => ?_
      refine hnot (hs ▸ by simp) ?_
      rintro rfl
      obtain rfl : a = ' ' := hspace a (hs ▸ by simp) ha
      refine h.single (String.ofList u) (String.ofList v) (String.toList_injective ?_)
      rw [hs]
      simp
  · rintro ⟨hspace, htidy⟩
    refine ⟨fun h => ?_, fun h => ?_, fun h => ?_, fun h => ?_, fun h => ?_, fun u v h => ?_⟩
    · cases hspace _ h rfl
    · cases hspace _ h rfl
    · cases hspace _ h rfl
    · cases htidy.head _ h
    · cases htidy.last _ h
    · have hchain := htidy.single
      rw [h, String.toList_append, String.toList_append, List.append_assoc] at hchain
      cases (List.isChain_append_cons_cons.1 hchain).2.1 rfl

theorem toList_normalizeSpace (s : String) :
    (normalizeSpace s).toList = [' '].intercalate (runs isXmlBlank s.toList) := by
  rw [normalizeSpace, String.toList_intercalate, words, List.map_map]
  simp [Function.comp_def]

theorem forall_mem_runs :
    ∀ w ∈ runs isXmlBlank s.toList, w ≠ [] ∧ ∀ c ∈ w, isXmlBlank c = false :=
  fun _ hw => ⟨(isRun_of_mem_runs hw).1, (isRun_of_mem_runs hw).2.1⟩

theorem isNormal_normalizeSpace (s : String) : IsNormal (normalizeSpace s) := by
  rw [isNormal_iff, toList_normalizeSpace]
  refine ⟨fun c hc => ?_, tidy_intercalate forall_mem_runs⟩
  exact eq_space_of_mem_intercalate (fun w hw => (forall_mem_runs w hw).2) hc

/-- A normal form has the runs of the text that it is made from. -/
theorem runs_normalizeSpace (s : String) :
    runs isXmlBlank (normalizeSpace s).toList = runs isXmlBlank s.toList := by
  have hwords : ∀ w ∈ words isXmlBlank s, words isXmlBlank w = [w] := by
    intro w hw
    obtain ⟨run, hrun, rfl⟩ := List.mem_map.1 hw
    obtain ⟨hne, hrun⟩ := forall_mem_runs run hrun
    rw [words, String.toList_ofList, runs_of_forall hne hrun]
    rfl
  have h : words isXmlBlank (normalizeSpace s) = words isXmlBlank s := by
    rw [normalizeSpace, words_intercalate rfl, List.flatMap_congr hwords, List.flatMap_singleton']
  exact List.map_injective_iff.2 (fun _ _ => String.ofList_injective) h

/-- A text with no other blanks than single spaces between characters is its own normal form. -/
theorem IsNormal.normalizeSpace_eq (h : IsNormal s) : normalizeSpace s = s := by
  obtain ⟨hspace, htidy⟩ := isNormal_iff.1 h
  have hruns : HasRuns isXmlBlank s.toList (runs isXmlBlank s.toList) := hasRuns_iff.2 rfl
  refine String.toList_injective ?_
  rw [toList_normalizeSpace, ← hruns.dropWhile_eq hspace htidy.last htidy.single]
  exact dropWhile_eq_self_iff_head?.2 htidy.head

end Normal

/-- Every text has its runs of characters other than spaces, tabs, carriage returns and line feeds,
and has them in one way.  Its normal form has the same runs, and no other of these blanks than
single spaces between characters; such a text is its own normal form, and all normal forms are.
So two texts have the same normal form if they have the same runs.  The function `normalize-space`
gives the normal form of its argument, or of the string-value of the context node. -/
theorem normalizeSpace_normal :
    (∀ c, isXmlBlank c = true ↔ c ∈ [' ', '\t', '\r', '\n']) ∧
    (∀ s : String, ∃! ws, HasRuns isXmlBlank s.toList ws) ∧
    (∀ s : String, IsNormal (normalizeSpace s)) ∧
    (∀ (s : String) (ws : List (List Char)),
      HasRuns isXmlBlank (normalizeSpace s).toList ws ↔ HasRuns isXmlBlank s.toList ws) ∧
    (∀ s : String, normalizeSpace (normalizeSpace s) = normalizeSpace s) ∧
    (∀ s : String, normalizeSpace s = s ↔ IsNormal s) ∧
    (∀ s t : String, normalizeSpace s = normalizeSpace t ↔
      ∃ ws, HasRuns isXmlBlank s.toList ws ∧ HasRuns isXmlBlank t.toList ws) ∧
    ∀ (σ : Setting) (c : Context),
      (∀ a : Expr, ((Expr.call ⟨none, "normalize-space"⟩ [a]).meaning
          (.standard Registry.core.library σ)).value c = do
            return .string (normalizeSpace (← a.text σ c))) ∧
      ((Expr.call ⟨none, "normalize-space"⟩ []).meaning
          (.standard Registry.core.library σ)).value c =
        pure (.string (normalizeSpace (σ.view.stringValue c.node))) := by
  refine ⟨fun c => isXmlBlank_iff, fun s => ?_, isNormal_normalizeSpace, fun s ws => ?_,
    fun s => ?_, fun s => ⟨fun h => h ▸ isNormal_normalizeSpace s, IsNormal.normalizeSpace_eq⟩,
    fun s t => ?_,
    fun σ c => ⟨Expr.value_normalizeSpace σ c, Expr.value_normalizeSpace_context σ c⟩⟩
  · exact ⟨_, hasRuns_iff.2 rfl, fun ws hws => hws.runs_eq.symm⟩
  · rw [hasRuns_iff, hasRuns_iff, runs_normalizeSpace]
  · exact (isNormal_normalizeSpace s).normalizeSpace_eq
  · simp only [hasRuns_iff, exists_eq_left']
    constructor
    · intro h
      rw [← runs_normalizeSpace s, ← runs_normalizeSpace t, h]
    · intro h
      refine String.toList_injective ?_
      rw [toList_normalizeSpace, toList_normalizeSpace, h]

/-- Blanks of other kinds are no blanks here. -/
example : normalizeSpace "\t a\u00a0b \r\n c " = "a\u00a0b c" := by decide

end XPath.Text
