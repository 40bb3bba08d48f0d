/-
What is kept compiled is what was used last.

Of all trees that compiled so far, the ones that were last used are kept, as many as there is room
for, and in the order of their last use.  Nothing else matters: a tree that made way and was
compiled again is a tree that was used, and one that does not compile takes up no room.  So whether
a tree is compiled again can be read off the trees that were asked for before.

* `Store.Recency` — a store in which the use that is longest ago makes way;
* `recent` — the trees that compile, last used first;
* `Recorded`, `Store.Recency.compile` — what the calls so far say about the entries, and that
  another call keeps to it;
* `compile_keeps_recent` — what is kept after any calls, when a call takes what is kept, and that
  one that fails changes nothing.
-/
import XPath.Proofs.Query.Recall
import XPath.Tree.Order

namespace XPath

/-! ### Lists -/

section Occurrences

variable {α : Type} [DecidableEq α]

theorem occurrencesAfter_eq_filter (seen xs : List α) :
    occurrencesAfter seen xs = (firstOccurrences xs).filter (· ∉ seen) := by
  induction xs generalizing seen with
  | nil => rfl
  | cons a rest ih =>
    have hfirst : firstOccurrences (a :: rest) = a :: (firstOccurrences rest).filter (· ∉ [a]) := by
      rw [← ih [a]]
      rfl
    rw [occurrencesAfter, hfirst]
    split
    · next ha =>
      rw [List.filter_cons_of_neg (by simpa using ha), ih, List.filter_filter]
      refine List.filter_congr fun b _ => ?_
      grind
    · next ha =>
      rw [List.filter_cons_of_pos (by simpa using ha), ih, List.filter_filter]
      refine congrArg (a :: ·) (List.filter_congr fun b _ => ?_)
      simp [Bool.and_comm]

theorem firstOccurrences_cons (a : α) (xs : List α) :
    firstOccurrences (a :: xs) = a :: (firstOccurrences xs).filter (· ≠ a) := by
  show a :: occurrencesAfter [a] xs = _
  rw [occurrencesAfter_eq_filter]
  simp

/-- Taking a member out of the first ones leaves the first ones of what is left. -/
theorem take_filter_take {xs : List α} (h : xs.Nodup) (a : α) (n : Nat) :
    ((xs.take (n + 1)).filter (· ≠ a)).take n = (xs.filter (· ≠ a)).take n := by
  induction xs generalizing n with
  | nil => rfl
  | cons b rest ih =>
    obtain ⟨hb, hrest⟩ := List.nodup_cons.1 h
    rw [List.take_succ_cons]
    by_cases hba : b = a
    · -- The member was there only once, and one more of the others takes its place.
      have hall : ∀ {ys : List α}, ys ⊆ rest → ys.filter (· ≠ a) = ys := fun hys =>
        List.filter_eq_self.2 fun c hc => by
          have hne : c ≠ b := fun hcb => hb (hcb ▸ hys hc)
          simpa [← hba] using hne
      rw [List.filter_cons_of_neg (by simp [hba]), List.filter_cons_of_neg (by simp [hba]),
        hall (List.take_subset n rest), hall (List.Subset.refl rest), List.take_take,
        Nat.min_self]
    · rw [List.filter_cons_of_pos (by simp [hba]), List.filter_cons_of_pos (by simp [hba])]
      cases n with
      | zero => rfl
      | succ n => rw [List.take_succ_cons, List.take_succ_cons, ih hrest]

end Occurrences

/-- A run over a list whose every step goes on from what holds of the steps before it. -/
theorem run_mapM_of_history {σ α β : Type} {f : α → StateM σ β} {P : List α → List β → σ → Prop}
    (step : ∀ as bs a s, P as bs s → P (as ++ [a]) (bs ++ [((f a).run s).1]) ((f a).run s).2)
    (l : List α) {as : List α} {bs : List β} {s : σ} (hs : P as bs s) :
    P (as ++ l) (bs ++ ((l.mapM f).run s).1) ((l.mapM f).run s).2 := by
  induction l generalizing as bs s with
  | nil =>
    rw [List.append_nil]
    exact (List.append_nil bs).symm ▸ hs
  | cons a rest ih =>
    have hrest := ih (step as bs a s hs)
    rw [List.append_assoc, List.append_assoc] at hrest
    rw [List.mapM_cons]
    exact hrest

/-! ### Stores that forget what is longest ago -/

namespace Store

/-- The entries after a use of one of them, or of a new one, last used first. -/
def promote (entries : List (SyntaxTree × Compiled)) (t : SyntaxTree) (x : Compiled) :
    List (SyntaxTree × Compiled) :=
  (t, x) :: entries.filter (·.1 ≠ t)

/-- The entries stand in the order of their last use, and there is room for a number of them.
Looking a tree up is a use if it is found.  Putting one in is a use, and if there is no room left,
the last entry makes way. -/
structure Recency (store : Store) (room : store.State → Nat) : Prop where
  entries_new : ∀ n, store.entries (store.new n) = []
  room_new : ∀ n, 0 < n → room (store.new n) = n
  get_eq : ∀ s t, (store.get s t).1 = (store.entries s).lookup t
  entries_get_of_none : ∀ {s t}, (store.entries s).lookup t = none →
    store.entries (store.get s t).2 = store.entries s
  entries_get_of_some : ∀ {s t x}, (store.entries s).length ≤ room s →
    (store.entries s).lookup t = some x →
    store.entries (store.get s t).2 = promote (store.entries s) t x
  room_get : ∀ s t, room (store.get s t).2 = room s
  entries_put : ∀ s t x,
    store.entries (store.put s t x) = (promote (store.entries s) t x).take (room s)
  room_put : ∀ s t x, room (store.put s t x) = room s

/-- A use of what is kept takes no more room. -/
theorem length_promote_le {entries : List (SyntaxTree × Compiled)} {t : SyntaxTree} {x y : Compiled}
    (h : (t, y) ∈ entries) : (promote entries t x).length ≤ entries.length := by
  have hlt : (entries.filter (·.1 ≠ t)).length < entries.length :=
    List.length_filter_lt_length_iff_exists.2 ⟨(t, y), h, by simp⟩
  rw [promote, List.length_cons]
  exact hlt

theorem not_mem_keys_of_lookup {entries : List (SyntaxTree × Compiled)} {t : SyntaxTree}
    (h : entries.lookup t = none) : t ∉ entries.map Prod.fst := fun hkey => by
  obtain ⟨⟨_, x⟩, hp, rfl⟩ := List.mem_map.1 hkey
  simpa using List.lookup_eq_none_iff.1 h _ hp

/-- The room of a store, or none where there is no store. -/
def optionalRoom {store : Store} (room : store.State → Nat) : store.optional.State → Nat :=
  fun s => Option.elim s 0 room

theorem Recency.optional {store : Store} {room : store.State → Nat} (h : store.Recency room) :
    store.optional.Recency (optionalRoom room) where
  entries_new n := by
    unfold Store.optional
    dsimp only
    split
    · rfl
    · exact h.entries_new n
  room_new n hn := by
    show Option.elim (if n = 0 then none else some (store.new n)) 0 room = n
    rw [if_neg (Nat.ne_of_gt hn)]
    exact h.room_new n hn
  get_eq s t := by
    cases s with
    | none => rfl
    | some s => exact h.get_eq s t
  entries_get_of_none {s t} hnone := by
    cases s with
    | none => rfl
    | some s => exact h.entries_get_of_none hnone
  entries_get_of_some {s t x} hlength hsome := by
    cases s with
    | none => cases hsome
    | some s => exact h.entries_get_of_some hlength hsome
  room_get s t := by
    cases s with
    | none => rfl
    | some s => exact h.room_get s t
  entries_put s t x := by
    cases s with
    | none => rfl
    | some s => exact h.entries_put s t x
  room_put s t x := by
    cases s with
    | none => rfl
    | some s => exact h.room_put s t x

end Store

/-! ### What is kept -/

def SyntaxTree.compiles (t : SyntaxTree) : Bool := (Expr.ofSyntax t).isOk

/-- The trees of a sequence that compile, last used first. -/
def recent (ts : List SyntaxTree) : List SyntaxTree :=
  firstOccurrences (ts.reverse.filter SyntaxTree.compiles)

theorem nodup_recent (ts : List SyntaxTree) : (recent ts).Nodup := nodup_firstOccurrences _

theorem mem_recent {ts : List SyntaxTree} {t : SyntaxTree} :
    t ∈ recent ts ↔ t ∈ ts ∧ t.compiles = true := by
  rw [recent, mem_firstOccurrences, List.mem_filter, List.mem_reverse]

theorem recent_concat_of_ok {t : SyntaxTree} {e : Expr} (h : Expr.ofSyntax t = .ok e)
    (ts : List SyntaxTree) : recent (ts ++ [t]) = t :: (recent ts).filter (· ≠ t) := by
  have hok : t.compiles = true := by
    rw [SyntaxTree.compiles, h]
    rfl
  rw [recent, List.reverse_concat, List.filter_cons_of_pos hok, firstOccurrences_cons]
  rfl

theorem recent_concat_of_error {t : SyntaxTree} {e : Error} (h : Expr.ofSyntax t = .error e)
    (ts : List SyntaxTree) : recent (ts ++ [t]) = recent ts := by
  have hok : ¬ t.compiles = true := by
    rw [SyntaxTree.compiles, h]
    exact Bool.false_ne_true
  rw [recent, List.reverse_concat, List.filter_cons_of_neg hok]
  rfl

/-- A call that gives the compilation of an earlier one. -/
def Reuses (earlier : List (Except Error Compiled)) (result : Except Error Compiled) : Prop :=
  ∃ x y, Except.ok x ∈ earlier ∧ result = .ok y ∧ y.serial = x.serial

/-- What the calls so far say about the entries that they left, the room for them and the number of
compilations. -/
structure Recorded (ts : List SyntaxTree) (results : List (Except Error Compiled))
    (entries : List (SyntaxTree × Compiled)) (room count : Nat) : Prop where
  keys : entries.map Prod.fst = (recent ts).take room
  mem_results : ∀ p ∈ entries, Except.ok p.2 ∈ results
  serial_lt : ∀ x, Except.ok x ∈ results → x.serial < count

theorem Recorded.start (room count : Nat) : Recorded [] [] [] room count where
  keys := List.take_nil.symm
  mem_results := by simp
  serial_lt := by simp

namespace Recorded

variable {ts : List SyntaxTree} {results : List (Except Error Compiled)}
  {entries : List (SyntaxTree × Compiled)} {room count : Nat} {t : SyntaxTree}
  (h : Recorded ts results entries room count)

include h

theorem length_le : entries.length ≤ room := by
  have hlength := congrArg List.length h.keys
  rw [List.length_map, List.length_take] at hlength
  omega

/-- A tree that is kept compiles. -/
theorem exists_ofSyntax_of_mem_keys (ht : t ∈ entries.map Prod.fst) :
    ∃ e, Expr.ofSyntax t = .ok e := by
  rw [h.keys] at ht
  have hok := (mem_recent.1 (List.mem_of_mem_take ht)).2
  cases hfresh : Expr.ofSyntax t with
  | error e =>
    rw [SyntaxTree.compiles, hfresh] at hok
    cases hok
  | ok e => exact ⟨e, rfl⟩

/-- A use of an expression puts its tree first. -/
theorem promote {e : Expr} (ht : Expr.ofSyntax t = .ok e) {x : Compiled} {count' : Nat}
    (hx : x.serial < count') (hcount : count ≤ count') :
    Recorded (ts ++ [t]) (results ++ [.ok x]) ((Store.promote entries t x).take room) room
      count' where
  keys := by
    have hkeys : (Store.promote entries t x).map Prod.fst =
        t :: (entries.map Prod.fst).filter (· ≠ t) := by
      rw [Store.promote, List.map_cons, List.filter_map]
      rfl
    rw [List.map_take, hkeys, h.keys, recent_concat_of_ok ht]
    cases room with
    | zero => rfl
    | succ n => rw [List.take_succ_cons, List.take_succ_cons, take_filter_take (nodup_recent ts)]
  mem_results p hp := by
    rcases List.mem_cons.1 (List.mem_of_mem_take hp) with rfl | hp
    · exact List.mem_concat_self
    · exact List.mem_append_left _ (h.mem_results p (List.mem_of_mem_filter hp))
  serial_lt y hy := by
    rcases List.mem_append.1 hy with hy | hy
    · exact Nat.lt_of_lt_of_le (h.serial_lt y hy) hcount
    · cases List.mem_singleton.1 hy
      exact hx

/-- A call that fails is no use. -/
theorem fail {e : Error} (ht : Expr.ofSyntax t = .error e) :
    Recorded (ts ++ [t]) (results ++ [.error e]) entries room count where
  keys := by rw [recent_concat_of_error ht, h.keys]
  mem_results p hp := List.mem_append_left _ (h.mem_results p hp)
  serial_lt y hy := h.serial_lt y (by simpa using hy)

end Recorded

namespace Store

/-- What the calls so far say about a store with a given capacity and its count. -/
def Records (store : Store) (room : store.State → Nat) (capacity : Nat) (ts : List SyntaxTree)
    (results : List (Except Error Compiled)) (m : store.State × Nat) : Prop :=
  room m.1 = capacity ∧ Recorded ts results (store.entries m.1) capacity m.2

/-- What the next call gives and leaves.  It gives the compilation of an earlier one exactly if its
tree is kept, and leaves everything in its place if it fails. -/
structure Continues (store : Store) (room : store.State → Nat) (capacity : Nat)
    (ts : List SyntaxTree) (results : List (Except Error Compiled)) (m : store.State × Nat)
    (t : SyntaxTree) (next : Except Error Compiled × (store.State × Nat)) : Prop where
  records : store.Records room capacity (ts ++ [t]) (results ++ [next.1]) next.2
  reuses_iff : Reuses results next.1 ↔ t ∈ (store.entries m.1).map Prod.fst
  entries_of_error : ∀ e, next.1 = .error e → store.entries next.2.1 = store.entries m.1

namespace Recency

variable {store : Store} {room : store.State → Nat} (h : store.Recency room) {capacity : Nat}
  {ts : List SyntaxTree} {results : List (Except Error Compiled)} {m : store.State × Nat}
  (hm : store.Records room capacity ts results m) {t : SyntaxTree}

include h hm

/-- A tree that is kept is found, and is the one used last from then on. -/
theorem continues_of_some {x : Compiled} (hfound : (store.entries m.1).lookup t = some x) :
    store.Continues room capacity ts results m t (.ok x, ((store.get m.1 t).2, m.2)) := by
  obtain ⟨rfl, hm⟩ := hm
  have hkept := mem_of_lookup hfound
  have hkey : t ∈ (store.entries m.1).map Prod.fst := List.mem_map_of_mem hkept
  have hresult := hm.mem_results _ hkept
  refine ⟨⟨h.room_get m.1 t, ?_⟩, iff_of_true ⟨x, x, hresult, rfl, rfl⟩ hkey,
    fun _ h => nomatch h⟩
  obtain ⟨e, ht⟩ := hm.exists_ofSyntax_of_mem_keys hkey
  have hfit := Nat.le_trans (length_promote_le (x := x) hkept) hm.length_le
  have hpromote := hm.promote ht (hm.serial_lt x hresult) (Nat.le_refl _)
  rwa [List.take_of_length_le hfit, ← h.entries_get_of_some hm.length_le hfound] at hpromote

section Missing

variable (hfound : (store.entries m.1).lookup t = none)

include hfound

/-- A tree that is neither kept nor compiles leaves things as they are. -/
theorem continues_of_error {e : Error} (ht : Expr.ofSyntax t = .error e) :
    store.Continues room capacity ts results m t (.error e, ((store.get m.1 t).2, m.2)) := by
  obtain ⟨rfl, hm⟩ := hm
  have hentries := h.entries_get_of_none hfound
  refine ⟨⟨h.room_get m.1 t, ?_⟩, iff_of_false ?_ (not_mem_keys_of_lookup hfound),
    fun _ _ => hentries⟩
  · rw [hentries]
    exact hm.fail ht
  · rintro ⟨x, y, -, herror, -⟩
    cases herror

/-- A tree that is compiled gets a number that no compilation had before. -/
theorem continues_of_ok {e : Expr} (ht : Expr.ofSyntax t = .ok e) :
    store.Continues room capacity ts results m t
      (.ok ⟨m.2, e⟩, (store.put (store.get m.1 t).2 t ⟨m.2, e⟩, m.2 + 1)) := by
  obtain ⟨rfl, hm⟩ := hm
  have hentries := h.entries_get_of_none hfound
  have hroom := h.room_get m.1 t
  refine ⟨⟨(h.room_put _ t _).trans hroom, ?_⟩, iff_of_false ?_ (not_mem_keys_of_lookup hfound),
    fun _ h => nomatch h⟩
  · rw [h.entries_put, hentries, hroom]
    exact hm.promote ht (Nat.lt_succ_self m.2) (Nat.le_succ m.2)
  · rintro ⟨x, y, hx, hy, hserial⟩
    cases hy
    exact Nat.ne_of_gt (hm.serial_lt x hx) hserial

end Missing

/-- A call goes on from the calls so far. -/
theorem compile (t : SyntaxTree) :
    store.Continues room capacity ts results m t ((store.compile t).run m) := by
  have hget := h.get_eq m.1 t
  cases hfound : (store.entries m.1).lookup t with
  | some x =>
    rw [run_compile_of_some store m (Prod.ext (hget.trans hfound) rfl)]
    exact h.continues_of_some hm hfound
  | none =>
    have hmissing : store.get m.1 t = (none, (store.get m.1 t).2) :=
      Prod.ext (hget.trans hfound) rfl
    cases ht : Expr.ofSyntax t with
    | error e =>
      rw [run_compile_of_error store m hmissing ht]
      exact h.continues_of_error hm hfound ht
    | ok e =>
      rw [run_compile_of_ok store m hmissing ht]
      exact h.continues_of_ok hm hfound ht

end Recency

end Store

/-! ### The cache -/

namespace Cache

theorem recency_store : store.Recency capacity where
  entries_new _ := rfl
  room_new _ _ := rfl
  get_eq _ _ := rfl
  entries_get_of_none {c t} h := by
    have hfind : c.find? t = none := h
    show ((c.find? t).elim c (c.use t)).entries = c.entries
    rw [hfind]
    rfl
  entries_get_of_some {c t x} hlength h := by
    have hfind : c.find? t = some x := h
    show ((c.find? t).elim c (c.use t)).entries = _
    rw [hfind]
    exact List.take_of_length_le (Nat.le_trans (Store.length_promote_le (mem_of_lookup h)) hlength)
  room_get c t := by
    show ((c.find? t).elim c (c.use t)).capacity = c.capacity
    cases c.find? t <;> rfl
  entries_put _ _ _ := rfl
  room_put _ _ _ := rfl

/-- What the calls so far say about a cache. -/
def Records (c : Cache) (capacity : Nat) (ts : List SyntaxTree)
    (results : List (Except Error Compiled)) : Prop :=
  store.Records Cache.capacity capacity ts results (c, c.compilations)

theorem Records.compile {capacity : Nat} {ts : List SyntaxTree}
    {results : List (Except Error Compiled)} {c : Cache} (h : c.Records capacity ts results)
    (t : SyntaxTree) :
    (c.compile t).2.Records capacity (ts ++ [t]) (results ++ [(c.compile t).1]) ∧
    (Reuses results (c.compile t).1 ↔ t ∈ c.entries.map Prod.fst) := by
  have hnext := recency_store.compile h t
  rw [compile_eq]
  exact ⟨hnext.records, hnext.reuses_iff⟩

/-- The whole cache stays what it is, with its count. -/
theorem compile_of_error {c : Cache} {t : SyntaxTree} {e : Error} (h : (c.compile t).1 = .error e) :
    (c.compile t).2 = c := by
  unfold compile at h ⊢
  split at h
  · cases h
  · split at h
    · rfl
    · cases h

end Cache

theorem Engine.run_compile_of_error {e : Engine} {t : SyntaxTree} {error : Error}
    (h : ((compile t).run e).1 = .error error) : ((compile t).run e).2 = e := by
  have hcache := Cache.compile_of_error (c := e.cache) h
  show { e with cache := (e.cache.compile t).2 } = e
  rw [hcache]

/-- After any calls, the trees that are kept are the first of those that compiled, last used first,
as many as there is room for.  A call gives the compilation of an earlier one exactly if its tree is
kept, and one that fails leaves everything in its place. -/
theorem compile_keeps_recent :
    (∀ (store : Store) (room : store.State → Nat), store.Recency room →
      ∀ capacity, 0 < capacity → ∀ (ts : List SyntaxTree) (t : SyntaxTree),
      let run := (ts.mapM store.optional.compile).run (store.optional.new capacity, 0)
      let next := (store.optional.compile t).run run.2
      let kept := (store.optional.entries run.2.1).map Prod.fst
      kept = (recent ts).take capacity ∧ (Reuses run.1 next.1 ↔ t ∈ kept) ∧
        ∀ error, next.1 = .error error →
          store.optional.entries next.2.1 = store.optional.entries run.2.1) ∧
    ∀ (engine : Engine) (options : Options) (ts : List SyntaxTree) (t : SyntaxTree),
      let run := (ts.mapM Engine.compile).run (engine.withOptions options)
      let next := (Engine.compile t).run run.2
      let kept := run.2.cache.entries.map Prod.fst
      kept = (recent ts).take options.capacity ∧ (Reuses run.1 next.1 ↔ t ∈ kept) ∧
        ∀ error, next.1 = .error error → next.2 = run.2 := by
  constructor
  · intro store room h capacity hcapacity ts t
    have hrecency := h.optional
    have hnew : store.optional.Records (Store.optionalRoom room) capacity [] []
        (store.optional.new capacity, 0) := by
      refine ⟨hrecency.room_new capacity hcapacity, ?_⟩
      rw [hrecency.entries_new]
      exact .start capacity 0
    have hrun := run_mapM_of_history
      (P := store.optional.Records (Store.optionalRoom room) capacity)
      (fun _ _ t _ hm => (hrecency.compile hm t).records) ts hnew
    have hnext := hrecency.compile hrun t
    exact ⟨hrun.2.keys, hnext.reuses_iff, hnext.entries_of_error⟩
  · intro engine options ts t
    have hnew : (engine.withOptions options).cache.Records options.capacity [] [] :=
      ⟨rfl, .start options.capacity engine.cache.compilations⟩
    have hrun := run_mapM_of_history
      (P := fun ts results (e : Engine) => e.cache.Records options.capacity ts results)
      (f := Engine.compile) (fun _ _ t _ he => (Cache.Records.compile he t).1) ts hnew
    exact ⟨hrun.2.keys, (Cache.Records.compile hrun t).2, fun _ => Engine.run_compile_of_error⟩

/-- Three variables, one of which is asked for again after a negation of nothing. -/
def SyntaxTree.requests : List SyntaxTree :=
  [.variableReference "x", .variableReference "y", .node .unaryMinusExpr "-" [],
   .variableReference "x", .variableReference "z"]

/-- With room for two expressions, the tree that does not compile takes up none, and when the third
variable comes it is the second one that makes way, since the first one was used again. -/
theorem compile_keeps_recent_requests :
    let run := (SyntaxTree.requests.mapM Cache.store.optional.compile).run
      (Cache.store.optional.new 2, 0)
    let next := (Cache.store.optional.compile (.variableReference "y")).run run.2
    (Cache.store.optional.entries run.2.1).map Prod.fst =
      [.variableReference "z", .variableReference "x"] ∧ ¬ Reuses run.1 next.1 := by
  intro run next
  obtain ⟨hkept, hreuses, -⟩ := compile_keeps_recent.1 Cache.store Cache.capacity
    Cache.recency_store 2 (by decide) SyntaxTree.requests (.variableReference "y")
  have hrecent : (recent SyntaxTree.requests).take 2 =
      [.variableReference "z", .variableReference "x"] := by
    decide +kernel
  rw [hrecent] at hkept
  refine ⟨hkept, mt hreuses.1 ?_⟩
  rw [hkept]
  decide +kernel

end XPath
