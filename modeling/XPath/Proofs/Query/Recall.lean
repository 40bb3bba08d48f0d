/-
What is kept compiled cannot be told from what is compiled afresh.

A tree is looked up as a whole, so what is found for it can only be its own compilation, however
many trees were compiled, failed to compile or made way for others before.  Nothing of this depends
on which expression makes way, only on what is found having been put there for the same tree.

* `Store`, `Store.Lawful` — something that keeps expressions and may forget them;
* `Store.compile`, `Store.Sound` — compiling with a store, and that everything kept in it is the
  compilation of its tree;
* `Cache.store`, `Cache.compile_eq` — a cache is such a store, and compiles as with one;
* `Engine.Reachable`, `Engine.run_evaluate` — in every engine that calls can lead to, requests are
  answered as if nothing was kept;
* `compile_transparent` — a sequence of trees is compiled to what each of them is compiled to on its
  own.
-/
import Mathlib.Data.List.Basic
import XPath.Query.Engine
import XPath.Syntax.Build

namespace XPath

/-- A run over a list whose every step answers as `h` says and keeps an invariant does so as a
whole. -/
theorem run_mapM_of_step {σ α β γ : Type} {f : α → StateM σ β} {P : σ → Prop} {g : β → γ}
    {h : α → γ} (step : ∀ a s, P s → g ((f a).run s).1 = h a ∧ P ((f a).run s).2) (l : List α)
    {s : σ} (hs : P s) :
    ((l.mapM f).run s).1.map g = l.map h ∧ P ((l.mapM f).run s).2 := by
  induction l generalizing s with
  | nil => exact ⟨rfl, hs⟩
  | cons a as ih =>
    obtain ⟨hhead, hs'⟩ := step a s hs
    obtain ⟨htail, hend⟩ := ih hs'
    rw [List.mapM_cons]
    exact ⟨congrArg₂ List.cons hhead htail, hend⟩

/-! ### Stores that may forget -/

/-- Something that keeps compiled expressions. Looking one up may change what makes way first. -/
structure Store where
  State : Type
  new : Nat → State
  entries : State → List (SyntaxTree × Compiled)
  get : State → SyntaxTree → Option Compiled × State
  put : State → SyntaxTree → Compiled → State

namespace Store

/-- What is found is kept for that tree, and what is kept was put there. -/
structure Lawful (store : Store) : Prop where
  entries_new : ∀ n, store.entries (store.new n) = []
  mem_of_get : ∀ {s t x}, (store.get s t).1 = some x → (t, x) ∈ store.entries s
  mem_get : ∀ {s t p}, p ∈ store.entries (store.get s t).2 → p ∈ store.entries s
  mem_put : ∀ {s t x p}, p ∈ store.entries (store.put s t x) → p = (t, x) ∨ p ∈ store.entries s

/-- The store, or nothing at all where there is no room. -/
def optional (store : Store) : Store where
  State := Option store.State
  new n := if n = 0 then none else some (store.new n)
  entries s := s.elim [] store.entries
  get s t :=
    match s with
    | none => (none, none)
    | some s => ((store.get s t).1, some (store.get s t).2)
  put s t x := s.map (store.put · t x)

theorem Lawful.optional {store : Store} (h : store.Lawful) : store.optional.Lawful where
  entries_new n := by
    unfold Store.optional
    dsimp only
    split
    · rfl
    · exact h.entries_new n
  mem_of_get {s t x} hx := by
    cases s with
    | none => cases hx
    | some s => exact h.mem_of_get hx
  mem_get {s t p} hp := by
    cases s with
    | none => exact hp
    | some s => exact h.mem_get hp
  mem_put {s t x p} hp := by
    cases s with
    | none => cases hp
    | some s => exact h.mem_put hp

/-- Compiles a tree, or takes what is kept for it; the compilations are counted. -/
def compile (store : Store) (t : SyntaxTree) :
    StateM (store.State × Nat) (Except Error Compiled) := fun m =>
  match store.get m.1 t with
  | (some compiled, s) => (.ok compiled, (s, m.2))
  | (none, s) =>
    match Expr.ofSyntax t with
    | .error e => (.error e, (s, m.2))
    | .ok expr => (.ok ⟨m.2, expr⟩, (store.put s t ⟨m.2, expr⟩, m.2 + 1))

section Compile

variable (store : Store) (m : store.State × Nat) {t : SyntaxTree} {s : store.State}

theorem run_compile_of_some {x : Compiled} (h : store.get m.1 t = (some x, s)) :
    (store.compile t).run m = (.ok x, (s, m.2)) := by
  show store.compile t m = _
  rw [compile, h]

theorem run_compile_of_error {e : Error} (h : store.get m.1 t = (none, s))
    (ht : Expr.ofSyntax t = .error e) : (store.compile t).run m = (.error e, (s, m.2)) := by
  show store.compile t m = _
  rw [compile, h, ht]

theorem run_compile_of_ok {e : Expr} (h : store.get m.1 t = (none, s))
    (ht : Expr.ofSyntax t = .ok e) :
    (store.compile t).run m = (.ok ⟨m.2, e⟩, (store.put s t ⟨m.2, e⟩, m.2 + 1)) := by
  show store.compile t m = _
  rw [compile, h, ht]

end Compile

/-- Everything that is kept is the compilation of its tree. -/
def Sound (store : Store) (s : store.State) : Prop :=
  ∀ p ∈ store.entries s, Expr.ofSyntax p.1 = .ok p.2.expr

theorem sound_new {store : Store} (h : store.Lawful) (n : Nat) : store.Sound (store.new n) := by
  intro p hp
  rw [h.entries_new] at hp
  cases hp

/-- With a sound store a tree is compiled to what it is compiled to on its own, and the store stays
sound. -/
theorem Sound.compile {store : Store} (h : store.Lawful) {m : store.State × Nat}
    (hm : store.Sound m.1) (t : SyntaxTree) :
    ((store.compile t).run m).1.map Compiled.expr = Expr.ofSyntax t ∧
      store.Sound ((store.compile t).run m).2.1 := by
  rcases hfound : store.get m.1 t with ⟨_ | compiled, s⟩
  · have hs : store.Sound s := fun p hp => hm p (h.mem_get (by rwa [hfound]))
    cases hfresh : Expr.ofSyntax t with
    | error e =>
      rw [run_compile_of_error store m hfound hfresh]
      exact ⟨rfl, hs⟩
    | ok expr =>
      rw [run_compile_of_ok store m hfound hfresh]
      refine ⟨rfl, fun p hp => ?_⟩
      obtain rfl | hold := h.mem_put hp
      · exact hfresh
      · exact hs p hold
  · have hs : store.Sound s := fun p hp => hm p (h.mem_get (by rwa [hfound]))
    have hown : Expr.ofSyntax t = .ok compiled.expr :=
      hm _ (h.mem_of_get (congrArg Prod.fst hfound))
    rw [run_compile_of_some store m hfound]
    exact ⟨hown.symm, hs⟩

end Store

/-! ### The cache as a store -/

theorem mem_of_lookup {entries : List (SyntaxTree × Compiled)} {t : SyntaxTree} {x : Compiled}
    (h : entries.lookup t = some x) : (t, x) ∈ entries := by
  obtain ⟨before, after, heq, -⟩ := List.lookup_eq_some_iff.mp h
  rw [heq]
  exact List.mem_append_right _ (List.mem_cons_self ..)

namespace Cache

theorem mem_of_find? {c : Cache} {t : SyntaxTree} {x : Compiled} (h : c.find? t = some x) :
    (t, x) ∈ c.entries := mem_of_lookup h

/-- After a use, what is kept is what was used or was kept before for another tree. -/
theorem mem_use {c : Cache} {t : SyntaxTree} {x : Compiled} {p : SyntaxTree × Compiled}
    (h : p ∈ (c.use t x).entries) : p = (t, x) ∨ p.1 ≠ t ∧ p ∈ c.entries := by
  rcases List.mem_cons.mp (List.mem_of_mem_take h) with rfl | hold
  · exact .inl rfl
  · obtain ⟨hmem, hne⟩ := List.mem_filter.mp hold
    exact .inr ⟨of_decide_eq_true hne, hmem⟩

/-- A cache keeps what was used last. -/
def store : Store where
  State := Cache
  new := empty
  entries := entries
  get c t := (c.find? t, (c.find? t).elim c (c.use t))
  put := use

theorem lawful_store : store.Lawful where
  entries_new _ := rfl
  mem_of_get hx := mem_of_find? hx
  mem_get {c t p} hp := by
    change p ∈ ((c.find? t).elim c (c.use t)).entries at hp
    cases hfind : c.find? t with
    | none => rwa [hfind] at hp
    | some x =>
      rw [hfind] at hp
      obtain rfl | ⟨-, hold⟩ := mem_use hp
      · exact mem_of_find? hfind
      · exact hold
  mem_put hp := (mem_use hp).imp_right And.right

/-- A cache compiles as a store does, with its own count. -/
theorem compile_eq (c : Cache) (t : SyntaxTree) :
    let run := (store.compile t).run (c, c.compilations)
    c.compile t = (run.1, { (run.2.1 : Cache) with compilations := run.2.2 }) := by
  have hget : store.get c t = (c.find? t, (c.find? t).elim c (c.use t)) := rfl
  dsimp only
  rw [compile]
  cases hfind : c.find? t with
  | some x =>
    rw [hfind] at hget
    rw [Store.run_compile_of_some store (c, c.compilations) hget]
    rfl
  | none =>
    rw [hfind] at hget
    cases hfresh : Expr.ofSyntax t with
    | error e =>
      rw [Store.run_compile_of_error store (c, c.compilations) hget hfresh]
      rfl
    | ok expr =>
      rw [Store.run_compile_of_ok store (c, c.compilations) hget hfresh]
      rfl

end Cache

/-! ### Engines -/

/-- What a tree comes to at a node if it is compiled for this evaluation alone. -/
def Interpretation.answer (i : Interpretation) (t : SyntaxTree) (n : Node) (shape : Shape) :
    Outcome Value :=
  match Expr.ofSyntax t with
  | .error error => ⟨.error error, []⟩
  | .ok expr => .ofEval (shape.evaluate i expr n)

namespace Engine

/-- The engines that calls can lead to. Every request leaves what `compile` leaves. -/
inductive Reachable : Engine → Prop where
  | new : Reachable .new
  | withLibrary {e : Engine} (h : Reachable e) (library : Library) :
      Reachable (e.withLibrary library)
  | withVariable {e : Engine} (h : Reachable e) (name : String) (value : Value) :
      Reachable (e.withVariable name value)
  | withOptions {e : Engine} (h : Reachable e) (options : Options) :
      Reachable (e.withOptions options)
  | compile {e : Engine} (h : Reachable e) (t : SyntaxTree) : Reachable ((compile t).run e).2

theorem run_compile_of_sound {e : Engine} (h : Cache.store.Sound e.cache) (t : SyntaxTree) :
    ((compile t).run e).1.map Compiled.expr = Expr.ofSyntax t ∧
      Cache.store.Sound ((compile t).run e).2.cache := by
  show (e.cache.compile t).1.map _ = _ ∧ Cache.store.Sound (e.cache.compile t).2
  rw [Cache.compile_eq]
  exact h.compile (m := (e.cache, _)) Cache.lawful_store t

theorem Reachable.sound {e : Engine} (h : e.Reachable) : Cache.store.Sound e.cache := by
  induction h with
  | new => exact Store.sound_new Cache.lawful_store _
  | withLibrary _ _ ih => exact ih
  | withVariable _ _ _ ih => exact ih
  | @withOptions e _ options _ => exact Store.sound_new Cache.lawful_store options.capacity
  | compile _ t ih => exact (run_compile_of_sound ih t).2

/-- What a request comes to if nothing is kept. -/
def answer (e : Engine) (t : SyntaxTree) (target : Target) (shape : Shape) : Outcome Value :=
  (target.interpretation e).answer t target.node shape

/-- A request is answered as if nothing was kept, and leaves what `compile` leaves. -/
theorem run_evaluate {e : Engine} (h : e.Reachable) (t : SyntaxTree) (target : Target)
    (shape : Shape) :
    (evaluate t target shape).run e = (e.answer t target shape, ((compile t).run e).2) := by
  have hfresh := (run_compile_of_sound h.sound t).1
  have hcompile : (compile t).run e = ((e.cache.compile t).1, ((compile t).run e).2) := rfl
  rw [evaluate, StateT.run_bind, hcompile, answer, Interpretation.answer, ← hfresh]
  cases hx : (e.cache.compile t).1 with
  | error error => rw [hcompile, hx]; rfl
  | ok compiled => rw [hcompile, hx]; rfl

theorem Reachable.evaluate {e : Engine} (h : e.Reachable) (t : SyntaxTree) (target : Target)
    (shape : Shape) : Reachable ((Engine.evaluate t target shape).run e).2 := by
  rw [run_evaluate h]
  exact h.compile t

end Engine

/-- Whatever was compiled before, a sequence of trees is compiled to what each of them is compiled
to on its own, failures included, and afterwards every tree is kept with its own compilation: with
any store that finds for a tree only what was put there for it, with room for any number of
expressions or for none, and in every engine that calls can lead to. -/
theorem compile_transparent :
    (∀ store : Store, store.Lawful → ∀ (capacity : Nat) (ts : List SyntaxTree),
      let run := (ts.mapM store.optional.compile).run (store.optional.new capacity, 0)
      run.1.map (·.map Compiled.expr) = ts.map Expr.ofSyntax ∧
        ∀ p ∈ store.optional.entries run.2.1, Expr.ofSyntax p.1 = .ok p.2.expr) ∧
    ∀ engine : Engine, engine.Reachable → ∀ ts : List SyntaxTree,
      let run := (ts.mapM Engine.compile).run engine
      run.1.map (·.map Compiled.expr) = ts.map Expr.ofSyntax ∧
        ∀ p ∈ run.2.cache.entries, Expr.ofSyntax p.1 = .ok p.2.expr := by
  constructor
  · intro store h capacity ts
    exact run_mapM_of_step (P := fun m : store.optional.State × Nat => store.optional.Sound m.1)
      (fun t m hm => hm.compile h.optional t) ts (Store.sound_new h.optional capacity)
  · intro engine h ts
    exact run_mapM_of_step (P := fun e : Engine => Cache.store.Sound e.cache)
      (fun t e he => Engine.run_compile_of_sound he t) ts h.sound

/-- Negations with one text: of `$x`, once more, of `$y`, of nothing, and of `$x` again. -/
def SyntaxTree.twins : List SyntaxTree :=
  [.node .unaryMinusExpr "-$x" [.variableReference "x"],
   .node .unaryMinusExpr "-$x" [.variableReference "x"],
   .node .unaryMinusExpr "-$x" [.variableReference "y"],
   .node .unaryMinusExpr "-$x" [],
   .node .unaryMinusExpr "-$x" [.variableReference "x"]]

/-- With room for one expression the second tree is found, the third is not taken for it although
their texts are the same, and the last is compiled again. -/
theorem compile_transparent_twins :
    let cached := (SyntaxTree.twins.mapM Engine.compile).run (Engine.new.withOptions ⟨1, true⟩)
    let without := (SyntaxTree.twins.mapM Cache.store.optional.compile).run
      (Cache.store.optional.new 0, 0)
    Cache.store.Lawful ∧ (Engine.new.withOptions ⟨1, true⟩).Reachable ∧
    cached.1.map (·.toOption.map Compiled.serial) = [some 0, some 0, some 1, none, some 2] ∧
    cached.1.map (·.map Compiled.expr) = SyntaxTree.twins.map Expr.ofSyntax ∧
    (∀ p ∈ cached.2.cache.entries, Expr.ofSyntax p.1 = .ok p.2.expr) ∧
    without.1.map (·.map Compiled.expr) = SyntaxTree.twins.map Expr.ofSyntax := by
  have hreachable := Engine.Reachable.new.withOptions ⟨1, true⟩
  obtain ⟨hcached, hentries⟩ := compile_transparent.2 _ hreachable SyntaxTree.twins
  obtain ⟨hwithout, -⟩ := compile_transparent.1 _ Cache.lawful_store 0 SyntaxTree.twins
  exact ⟨Cache.lawful_store, hreachable, by decide +kernel, hcached, hentries, hwithout⟩

end XPath
