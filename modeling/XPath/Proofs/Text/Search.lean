/-
Texts cut at the first occurrence of another.

A text is cut at the first place where a pattern occurs, and what is before, the pattern and what is
after make up the text again.  A text that is written in bytes cannot be cut at another place than
before or after a character: the first byte of a character is no byte inside of one, so the bytes of
a pattern are found where its characters are.

* `dropPrefix?_eq_some_iff`, `cutAt?_eq_some_iff`, `cutAt?_eq_none_iff` — prefixes and first
  occurrences of lists;
* `exists_of_bytes` — where the bytes of a pattern occur, its characters do;
* `cut_at_first_occurrence` — the functions that search and cut texts.
-/
import XPath.Proofs.Library.Strings

namespace XPath.Text

/-! ### Lists of characters -/

section Cut

variable {pattern s u v rest : List Char}

theorem dropPrefix?_eq_some_iff : dropPrefix? pattern s = some rest ↔ s = pattern ++ rest := by
  induction pattern generalizing s with
  | nil => rw [dropPrefix?, Option.some.injEq, List.nil_append]
  | cons c pattern ih =>
    cases s with
    | nil => simp [dropPrefix?]
    | cons d s =>
      rw [dropPrefix?, List.cons_append, List.cons.injEq, ← ih, eq_comm (a := d)]
      split
      · next h => rw [and_iff_right h]
      · next h => simp [h]

/-- A pattern is found at the front of a list, or further on. -/
theorem cutAt?_cons (c : Char) : cutAt? pattern (c :: s) =
    match dropPrefix? pattern (c :: s) with
    | some rest => some ([], rest)
    | none => (cutAt? pattern s).map fun (first, rest) => (c :: first, rest) := rfl

theorem cutAt?_append : cutAt? pattern (pattern ++ rest) = some ([], rest) := by
  have h : dropPrefix? pattern (pattern ++ rest) = some rest := dropPrefix?_eq_some_iff.2 rfl
  cases hs : pattern ++ rest with
  | nil =>
    rw [hs] at h
    rw [cutAt?, h]
    rfl
  | cons c s =>
    rw [hs] at h
    rw [cutAt?_cons, h]

theorem eq_append_of_cutAt? (h : cutAt? pattern s = some (u, v)) : s = u ++ pattern ++ v := by
  induction s generalizing u with
  | nil =>
    obtain ⟨rest, hrest, heq⟩ := Option.map_eq_some_iff.1 h
    cases heq
    exact dropPrefix?_eq_some_iff.1 hrest
  | cons c s ih =>
    rw [cutAt?_cons] at h
    split at h
    · next rest hrest =>
      cases h
      exact dropPrefix?_eq_some_iff.1 hrest
    · obtain ⟨⟨first, rest⟩, hcut, heq⟩ := Option.map_eq_some_iff.1 h
      cases heq
      rw [ih hcut]
      rfl

/-- A list with an occurrence of the pattern is cut there or before. -/
theorem exists_cutAt?_append (pattern u v : List Char) :
    ∃ u' v', cutAt? pattern (u ++ pattern ++ v) = some (u', v') ∧ u'.length ≤ u.length := by
  induction u with
  | nil => exact ⟨[], v, cutAt?_append, le_rfl⟩
  | cons c u ih =>
    obtain ⟨u', v', hcut, hle⟩ := ih
    rw [List.cons_append, List.cons_append, cutAt?_cons]
    split
    · next rest _ => exact ⟨[], rest, rfl, Nat.zero_le _⟩
    · exact ⟨c :: u', v', by rw [hcut]; rfl, Nat.succ_le_succ hle⟩

/-- A list is cut at the first occurrence of the pattern. -/
theorem cutAt?_eq_some_iff : cutAt? pattern s = some (u, v) ↔
    s = u ++ pattern ++ v ∧ ∀ u' v', s = u' ++ pattern ++ v' → u.length ≤ u'.length := by
  constructor
  · intro h
    refine ⟨eq_append_of_cutAt? h, ?_⟩
    rintro u' v' rfl
    obtain ⟨_, _, hcut, hle⟩ := exists_cutAt?_append pattern u' v'
    rw [h] at hcut
    cases hcut
    exact hle
  · rintro ⟨rfl, hfirst⟩
    obtain ⟨u', v', hcut, hle⟩ := exists_cutAt?_append pattern u v
    have heq := eq_append_of_cutAt? hcut
    have hlength := hfirst u' v' heq
    rw [List.append_assoc, List.append_assoc] at heq
    obtain ⟨rfl, hrest⟩ := List.append_inj heq (by omega)
    rw [hcut, List.append_cancel_left hrest]

theorem cutAt?_eq_none_iff : cutAt? pattern s = none ↔ ∀ u v, s ≠ u ++ pattern ++ v := by
  constructor
  · rintro h u v rfl
    obtain ⟨_, _, hcut, -⟩ := exists_cutAt?_append pattern u v
    rw [h] at hcut
    cases hcut
  · intro h
    rw [Option.eq_none_iff_forall_ne_some]
    exact fun ⟨u, v⟩ hcut => h u v (eq_append_of_cutAt? hcut)

end Cut

/-! ### Bytes -/

/-- The bytes of characters. -/
def bytes (s : List Char) : List UInt8 := s.flatMap String.utf8EncodeChar

section Bytes

variable {s pattern : List Char} {x y : List UInt8}

theorem bytes_cons (c : Char) (s : List Char) :
    bytes (c :: s) = String.utf8EncodeChar c ++ bytes s := rfl

theorem bytes_append (s t : List Char) : bytes (s ++ t) = bytes s ++ bytes t := List.flatMap_append

theorem toByteArray_bytes (s : List Char) : (bytes s).toByteArray = s.utf8Encode := rfl

/-- The bytes of characters at the front are those of the first characters. -/
theorem prefix_of_bytes (h : bytes s = bytes pattern ++ y) :
    ∃ rest, s = pattern ++ rest ∧ y = bytes rest := by
  have hbytes : pattern.utf8Encode ++ y.toByteArray = s.utf8Encode := by
    rw [← toByteArray_bytes, ← toByteArray_bytes, h, List.toByteArray_append]
  obtain ⟨rest, rfl⟩ := List.isPrefix_of_utf8Encode_append_eq_utf8Encode _ hbytes
  rw [bytes_append] at h
  exact ⟨rest, rfl, (List.append_cancel_left h).symm⟩

/-- The bytes of characters do not start inside of a character. -/
theorem length_le_of_bytes {c : Char} (hx : x ≠ []) (hne : pattern ≠ [])
    (h : bytes (c :: s) = x ++ bytes pattern ++ y) :
    (String.utf8EncodeChar c).length ≤ x.length := by
  by_contra hlt
  have hc : x.length < (String.utf8EncodeChar c).length := by omega
  obtain ⟨d, rest, rfl⟩ := List.exists_cons_of_ne_nil hne
  have hd : 0 < (String.utf8EncodeChar d).length := by
    rw [String.length_utf8EncodeChar]
    exact d.utf8Size_pos
  have hbyte : (String.utf8EncodeChar c)[x.length] = (String.utf8EncodeChar d)[0] := by
    have hget := congrArg (·[x.length]?) h
    rw [bytes_cons, bytes_cons, List.append_assoc, List.getElem?_append_left hc,
      List.getElem?_append_right le_rfl, Nat.sub_self, List.append_assoc,
      List.getElem?_append_left hd, List.getElem?_eq_getElem hc,
      List.getElem?_eq_getElem hd] at hget
    exact Option.some.inj hget
  have hfirst : (String.utf8EncodeChar d)[0].IsUTF8FirstByte :=
    UInt8.isUTF8FirstByte_getElem_utf8EncodeChar.2 rfl
  rw [← hbyte, UInt8.isUTF8FirstByte_getElem_utf8EncodeChar, List.length_eq_zero_iff] at hfirst
  exact hx hfirst

/-- Where the bytes of a pattern occur among those of a text, there are its characters. -/
theorem exists_of_bytes (hne : pattern ≠ []) (h : bytes s = x ++ bytes pattern ++ y) :
    ∃ u v, s = u ++ pattern ++ v ∧ x = bytes u ∧ y = bytes v := by
  induction s generalizing x with
  | nil =>
    obtain ⟨d, rest, rfl⟩ := List.exists_cons_of_ne_nil hne
    have := d.utf8Size_pos
    have hlength := congrArg List.length h
    simp [bytes] at hlength
    omega
  | cons c s ih =>
    rcases eq_or_ne x [] with rfl | hx
    · obtain ⟨rest, hs, hy⟩ := prefix_of_bytes h
      exact ⟨[], rest, hs, rfl, hy⟩
    · have hle := length_le_of_bytes hx hne h
      rw [bytes_cons, List.append_assoc] at h
      obtain ⟨x', rfl⟩ : String.utf8EncodeChar c <+: x :=
        List.prefix_of_prefix_length_le ⟨_, h⟩ (List.prefix_append _ _) hle
      rw [List.append_assoc, ← List.append_assoc x'] at h
      obtain ⟨u, v, rfl, rfl, rfl⟩ := ih (List.append_cancel_left h)
      exact ⟨c :: u, v, rfl, rfl, rfl⟩

end Bytes

/-! ### Texts -/

section Texts

variable {s t : String}

theorem eq_append_iff {u v : String} :
    s = u ++ t ++ v ↔ s.toList = u.toList ++ t.toList ++ v.toList := by
  rw [← String.toList_inj, String.toList_append, String.toList_append]

/-- A text contains another if this occurs somewhere. -/
theorem contains_iff : contains s t = true ↔ ∃ u v, s = u ++ t ++ v := by
  rw [contains, Option.isSome_iff_ne_none, ne_eq, cutAt?_eq_none_iff]
  push Not
  constructor
  · rintro ⟨u, v, h⟩
    refine ⟨String.ofList u, String.ofList v, ?_⟩
    rw [eq_append_iff, String.toList_ofList, String.toList_ofList, h]
  · rintro ⟨u, v, h⟩
    exact ⟨u.toList, v.toList, eq_append_iff.1 h⟩

theorem startsWith_iff : startsWith s t = true ↔ ∃ v, s = t ++ v := by
  rw [startsWith, Option.isSome_iff_exists]
  simp only [dropPrefix?_eq_some_iff]
  constructor
  · rintro ⟨v, h⟩
    refine ⟨String.ofList v, ?_⟩
    rw [← String.toList_inj, String.toList_append, String.toList_ofList, h]
  · rintro ⟨v, rfl⟩
    exact ⟨v.toList, String.toList_append⟩

/-- A text that is not found leaves nothing before it and after it. -/
theorem before_eq_empty (h : contains s t = false) : before s t = "" ∧ after s t = "" := by
  rw [contains, Option.isSome_eq_false_iff, Option.isNone_iff_eq_none] at h
  rw [before, after, h]
  exact ⟨rfl, rfl⟩

/-- A text that is found is cut out at its first occurrence. -/
theorem toList_before_after (h : contains s t = true) :
    cutAt? t.toList s.toList = some ((before s t).toList, (after s t).toList) := by
  obtain ⟨⟨u, v⟩, hcut⟩ := Option.isSome_iff_exists.1 h
  rw [before, after, hcut, String.toList_ofList, String.toList_ofList]
  rfl

/-- What is found and what is around it make up the text. -/
theorem eq_before_append_after (h : contains s t = true) : s = before s t ++ t ++ after s t :=
  eq_append_iff.2 (cutAt?_eq_some_iff.1 (toList_before_after h)).1

/-- What is before a text is the start of whatever is before an occurrence of it. -/
theorem before_isPrefix {u v : String} (h : s = u ++ t ++ v) :
    (before s t).toList <+: u.toList := by
  have hcontains := contains_iff.2 ⟨u, v, h⟩
  have hs := eq_append_iff.1 h
  obtain ⟨hcut, hfirst⟩ := cutAt?_eq_some_iff.1 (toList_before_after hcontains)
  have hle := hfirst _ _ hs
  rw [List.append_assoc] at hcut hs
  exact List.prefix_of_prefix_length_le ⟨_, hcut.symm⟩ ⟨_, hs.symm⟩ hle

/-- Where the bytes of a text occur in those of another, the text itself does. -/
theorem exists_of_toUTF8 {x y : ByteArray} (h : s.toUTF8 = x ++ t.toUTF8 ++ y) (ht : t ≠ "") :
    ∃ u v, s = u ++ t ++ v ∧ x = u.toUTF8 := by
  have hbytes : ∀ r : String, r.toUTF8 = (bytes r.toList).toByteArray := fun r => by
    rw [toByteArray_bytes, String.utf8Encode_toList, String.toUTF8]
  have hlist : ∀ b : ByteArray, b = b.data.toList.toByteArray := fun b =>
    ByteArray.ext (by rw [List.data_toByteArray, Array.toArray_toList])
  rw [hlist x, hlist y, hbytes, hbytes, ← List.toByteArray_append, ← List.toByteArray_append,
    List.toByteArray_inj] at h
  have hne : t.toList ≠ [] := fun hnil => ht (String.toList_eq_nil_iff.1 hnil)
  obtain ⟨u, v, hs, hx, -⟩ := exists_of_bytes hne h
  refine ⟨String.ofList u, String.ofList v, eq_append_iff.2 ?_, ?_⟩
  · rw [String.toList_ofList, String.toList_ofList, hs]
  · rw [hbytes, String.toList_ofList, ← hx, ← hlist]

theorem toUTF8_append (u v : String) : (u ++ v).toUTF8 = u.toUTF8 ++ v.toUTF8 :=
  String.toByteArray_append

/-- A text occurs in another if its bytes do. -/
theorem contains_iff_toUTF8 :
    contains s t = true ↔ ∃ x y : ByteArray, s.toUTF8 = x ++ t.toUTF8 ++ y := by
  rw [contains_iff]
  constructor
  · rintro ⟨u, v, rfl⟩
    exact ⟨u.toUTF8, v.toUTF8, by rw [toUTF8_append, toUTF8_append]⟩
  · rintro ⟨x, y, h⟩
    rcases eq_or_ne t "" with rfl | ht
    · exact ⟨"", s, by simp⟩
    · obtain ⟨u, v, hs, -⟩ := exists_of_toUTF8 h ht
      exact ⟨u, v, hs⟩

/-- No bytes of the text occur before what is found. -/
theorem size_toUTF8_before_le {x y : ByteArray} (h : s.toUTF8 = x ++ t.toUTF8 ++ y) :
    (before s t).toUTF8.size ≤ x.size := by
  rcases eq_or_ne t "" with rfl | ht
  · have hnil := before_isPrefix (s := s) (t := "") (u := "") (v := s) (by simp)
    rw [String.toList_eq_nil_iff.1 (List.prefix_nil.1 hnil)]
    exact Nat.zero_le _
  · obtain ⟨u, v, hs, rfl⟩ := exists_of_toUTF8 h ht
    obtain ⟨rest, hrest⟩ := before_isPrefix hs
    have hu : u = before s t ++ String.ofList rest := by
      rw [← String.toList_inj, String.toList_append, String.toList_ofList, hrest]
    conv => rhs; rw [hu, toUTF8_append, ByteArray.size_append]
    exact Nat.le_add_right _ _

end Texts

/-- A text is found in another if it occurs there, be it as characters or as bytes.  What is before
it, the text and what is after it make up the other again, and it occurs at no earlier character and
at no earlier byte; if it does not occur, both parts are empty.  A text starts with another if this
is found with nothing before it.  The four functions evaluate their arguments, and say this of their
strings. -/
theorem cut_at_first_occurrence :
    (∀ s t : String,
      (contains s t = true ↔ ∃ u v, s = u ++ t ++ v) ∧
      (contains s t = true ↔ ∃ x y : ByteArray, s.toUTF8 = x ++ t.toUTF8 ++ y) ∧
      (contains s t = true → s = before s t ++ t ++ after s t) ∧
      (∀ u v : String, s = u ++ t ++ v → (before s t).length ≤ u.length) ∧
      (∀ x y : ByteArray, s.toUTF8 = x ++ t.toUTF8 ++ y → (before s t).toUTF8.size ≤ x.size) ∧
      (contains s t = false → before s t = "" ∧ after s t = "") ∧
      (startsWith s t = true ↔ ∃ v, s = t ++ v) ∧
      (startsWith s t = true ↔ contains s t = true ∧ before s t = "")) ∧
    ∀ p ∈ [("contains", fun s t => Value.boolean (contains s t)),
        ("starts-with", fun s t => .boolean (startsWith s t)),
        ("substring-before", fun s t => .string (before s t)),
        ("substring-after", fun s t => .string (after s t))],
      ∀ (σ : Setting) (a b : Expr) (c : Context),
        ((Expr.call ⟨none, p.1⟩ [a, b]).meaning (.standard Registry.core.library σ)).value c = do
          let s ← a.text σ c
          let t ← b.text σ c
          return p.2 s t := by
  refine ⟨fun s t => ⟨contains_iff, contains_iff_toUTF8, eq_before_append_after, fun u v h => ?_,
    fun x y => size_toUTF8_before_le, before_eq_empty, startsWith_iff, ?_⟩, fun p hp σ a b c => ?_⟩
  · rw [← String.length_toList, ← String.length_toList]
    exact (before_isPrefix h).length_le
  · rw [startsWith_iff]
    constructor
    · rintro ⟨v, rfl⟩
      have hs : t ++ v = "" ++ t ++ v := by simp
      have hnil := List.prefix_nil.1 (before_isPrefix hs)
      exact ⟨contains_iff.2 ⟨"", v, hs⟩, String.toList_eq_nil_iff.1 hnil⟩
    · rintro ⟨hcontains, hempty⟩
      refine ⟨after s t, ?_⟩
      conv => lhs; rw [eq_before_append_after hcontains, hempty]
      simp
  · simp only [List.mem_cons, List.not_mem_nil, or_false] at hp
    rcases hp with rfl | rfl | rfl | rfl
    · exact Expr.value_ofStrings σ c rfl a b
    · exact Expr.value_ofStrings σ c rfl a b
    · exact Expr.value_ofStrings σ c rfl a b
    · exact Expr.value_ofStrings σ c rfl a b

/-- Of two occurrences that overlap the first one counts. -/
theorem cut_at_first_occurrence_overlap :
    contains "ßéaéaé" "éaé" = true ∧
    "ßéaéaé" = before "ßéaéaé" "éaé" ++ "éaé" ++ after "ßéaéaé" "éaé" ∧
    "ßéaéaé" = "ßéa" ++ "éaé" ++ "" ∧
    (before "ßéaéaé" "éaé").length ≤ "ßéa".length ∧
    before "ßéaéaé" "éaé" = "ß" ∧
    startsWith "ßéaéaé" "éaé" = false ∧ contains "éaéaé" "ß" = false ∧
    before "éaéaé" "ß" = "" := by
  obtain ⟨h, -⟩ := cut_at_first_occurrence
  obtain ⟨-, -, hcut, hfirst, -⟩ := h "ßéaéaé" "éaé"
  obtain ⟨-, -, -, -, -, hempty, -⟩ := h "éaéaé" "ß"
  have hcontains : contains "ßéaéaé" "éaé" = true := by decide
  have hnone : contains "éaéaé" "ß" = false := by decide
  exact ⟨hcontains, hcut hcontains, by decide, hfirst "ßéa" "" (by decide), by decide, by decide,
    hnone, (hempty hnone).1⟩

end XPath.Text
