/-
Sequences whose source follows a script.

A script lists what each pull of the source leads to.  While it produces an item, the source may
read the very sequence it is the source of and go by the answers.  Readers ask for single nodes,
for the length or for all nodes, or move cursors of their own over the sequence.

* `Read`, `Reply` — what is asked and what is answered;
* `Item` — one entry of a script;
* `Scripted` — the sequence, what is left of the script, and the cursors;
* `Scripted.read`, `Scripted.next`, `Scripted.cursor` — the requests.
-/
import XPath.Sequence.Basic

namespace XPath

inductive Read where
  | get (index : Nat)
  | length
  | isEmpty
  | collect
  deriving DecidableEq, Repr

/-- The answer to a request. -/
inductive Reply where
  | node (n : Option Node)
  | count (n : Nat)
  | truth (b : Bool)
  | nodes (ns : List Node)
  deriving DecidableEq, Repr

namespace Read

/-- The index up to which a read has to know the nodes; none if it has to know all of them. -/
def stop : Read → Option Nat
  | get i => some i
  | isEmpty => some 0
  | length | collect => none

/-- The answer to a read of a list. -/
def reply (nodes : List Node) : Read → Reply
  | get i => .node nodes[i]?
  | isEmpty => .truth nodes.isEmpty
  | length => .count nodes.length
  | collect => .nodes nodes

end Read

/-- What a pull of the source leads to. -/
inductive Item where
  | node (n : Node)
  | failed (e : Error)
  /-- The source says that it has come to its end. -/
  | finish
  /-- The source reads its own sequence before it goes on. -/
  | reading (read : Read) (next : Except Error Reply → Item)

namespace Item

def failure (message : String) : Item := failed (.internal message)

/-- The source reads its own sequence, and fails with it or yields the first node of all. -/
def reread (read : Read) : Item :=
  reading read fun
    | .ok _ => node ⟨0, 0⟩
    | .error e => failed e

end Item

/-- A sequence with a script, and its cursors. -/
structure Scripted where
  sequence : Sequence
  items : List Item
  pulls : Nat
  cursors : List Nat

namespace Scripted

/-- A sequence that has not started on its script. -/
def ofItems (items : List Item) : Scripted := ⟨.fresh, items, 0, []⟩

def ofNodes (nodes : List Node) : Scripted := ⟨.ofNodes nodes, [], 0, []⟩

/-- Where the sequence is. -/
def place : Place Scripted := ⟨Scripted.sequence, fun s q => { s with sequence := q }⟩

/-- Answers a read, asking `pull` for what is not yet known. -/
def readWith (pull : EStateM Error Scripted Pull) (read : Read) : EStateM Error Scripted Reply := do
  place.fill pull read.stop ((← get).items.length + 1)
  return read.reply (← get).sequence.found

/-- Produces an item.  The source is at work, so that its own reads ask for no further pull. -/
def produce : Item → EStateM Error Scripted Pull
  | .node n => return .node n
  | .failed e => throw e
  | .finish => return .finished
  | .reading read next => fun s =>
    match readWith (throw Sequence.outOfTurn) read s with
    | .ok reply s => produce (next (.ok reply)) s
    | .error e s => produce (next (.error e)) s

/-- Takes the next item of the script. -/
def pull : EStateM Error Scripted Pull := do
  let s ← get
  set { s with items := s.items.tail, pulls := s.pulls + 1 }
  produce (s.items.headD .finish)

def read (r : Read) : EStateM Error Scripted Reply := readWith pull r

/-- Makes a cursor before the first node. -/
def cursor : EStateM Error Scripted Reply := do
  let s ← get
  set { s with cursors := s.cursors ++ [0] }
  return .count s.cursors.length

/-- Reads the node at a cursor and moves it on, unless the read fails or there is none. -/
def next (k : Nat) : EStateM Error Scripted Reply := do
  let index := (← get).cursors.getD k 0
  let reply ← read (.get index)
  if reply != .node none then
    modify fun s => { s with cursors := s.cursors.set k (index + 1) }
  return reply

end Scripted

end XPath
