import LimitOrderBook.Lib.Fault
import LimitOrderBook.Lib.ColorTree
import Mathlib.Logic.Function.Basic

/-!
# The red-black tree of `storage/rbtree.hpp`

The class `RBTree<T, Compare>` and its nodes, pointer by pointer. Memory is a
partial map from addresses to nodes: `new` takes the next fresh address, `delete`
empties the cell, and following an address with no node behind it – the null
pointer or a freed one – is the fault `Fault.badPointer`. The sentinel `_nil` is
the node the constructor allocates first and is never reassigned; its address is
the constant `LimitOrderBook.RBTree.nil`, its key is never initialised and its
links are null.

The two rotations and the two halves of each rebalancing loop are mirror images
of each other in the source; they are written once, for a side `d`, and
`LimitOrderBook.RBTree.rotateLeft`, `LimitOrderBook.RBTree.rotateRight` are its
two instances. The comparator is an argument of the operations that use it.
-/

namespace LimitOrderBook

/-- A node in memory, linked to others by their addresses. Only the sentinel has
no key. -/
structure Node (α : Type) where
  /-- The key; `none` for the sentinel, whose key is left uninitialised. -/
  key : Option α
  /-- The colour. -/
  isBlack : Bool
  parent : ℕ
  left : ℕ
  right : ℕ

namespace Node

variable {α : Type}

/-- The child on a side. -/
def child (n : Node α) : Dir → ℕ
  | .left => n.left
  | .right => n.right

/-- The node with another child on a side. -/
def setChild (n : Node α) (d : Dir) (p : ℕ) : Node α :=
  match d with
  | .left => { n with left := p }
  | .right => { n with right := p }

end Node

/-- The tree: its memory, the next address `new` returns, and its fields. -/
structure RBTree (α : Type) where
  mem : ℕ → Option (Node α)
  fresh : ℕ
  root : ℕ
  first : ℕ
  last : ℕ
  size : UInt64

namespace RBTree

variable {α : Type}

/-- The null pointer. -/
def nullptr : ℕ := 0

/-- The address of the sentinel `_nil`. -/
def nil : ℕ := 1

/-- The constructor: the sentinel alone. -/
def empty : RBTree α where
  mem := fun p => if p = nil then some ⟨none, true, nullptr, nullptr, nullptr⟩ else none
  fresh := 2
  root := nil
  first := nil
  last := nil
  size := 0

/-! ### Reading and writing nodes -/

/-- Follow a pointer. -/
def fetch (t : RBTree α) (p : ℕ) : Except Fault (Node α) := deref (t.mem p)

/-- Read the key of a node. -/
def key (t : RBTree α) (p : ℕ) : Except Fault α := do
  deref (← t.fetch p).key

def isBlack (t : RBTree α) (p : ℕ) : Except Fault Bool := do
  .ok (← t.fetch p).isBlack

def parent (t : RBTree α) (p : ℕ) : Except Fault ℕ := do
  .ok (← t.fetch p).parent

def child (t : RBTree α) (d : Dir) (p : ℕ) : Except Fault ℕ := do
  .ok ((← t.fetch p).child d)

/-- `p->left`. -/
def left (t : RBTree α) (p : ℕ) : Except Fault ℕ := t.child .left p

/-- `p->right`. -/
def right (t : RBTree α) (p : ℕ) : Except Fault ℕ := t.child .right p

/-- Put a node at an address. -/
def write (t : RBTree α) (p : ℕ) (n : Node α) : RBTree α :=
  { t with mem := Function.update t.mem p (some n) }

/-- Change the node behind a pointer. -/
def modify (t : RBTree α) (p : ℕ) (f : Node α → Node α) : Except Fault (RBTree α) := do
  .ok (t.write p (f (← t.fetch p)))

def setKey (t : RBTree α) (p : ℕ) (value : α) : Except Fault (RBTree α) :=
  t.modify p fun n => { n with key := some value }

def setBlack (t : RBTree α) (p : ℕ) (b : Bool) : Except Fault (RBTree α) :=
  t.modify p fun n => { n with isBlack := b }

def setParent (t : RBTree α) (p q : ℕ) : Except Fault (RBTree α) :=
  t.modify p fun n => { n with parent := q }

def setChild (t : RBTree α) (d : Dir) (p q : ℕ) : Except Fault (RBTree α) :=
  t.modify p fun n => n.setChild d q

/-- `new Node(value, false, parent, _nil, _nil)`, at the next fresh address. -/
def alloc (t : RBTree α) (value : α) (parent : ℕ) : RBTree α :=
  { t with
    mem := Function.update t.mem t.fresh (some ⟨some value, false, parent, nil, nil⟩)
    fresh := t.fresh + 1 }

/-- `delete p`. -/
def delete (t : RBTree α) (p : ℕ) : RBTree α :=
  { t with mem := Function.update t.mem p none }

/-- The fuel of the loops: no path of the tree has more nodes than were ever
allocated. -/
def fuel (t : RBTree α) : ℕ := t.fresh

/-! ### Rotations -/

/-- Hang `new` where `old` hung under `up`, or at the root. The source tests one
side first, and takes the other one otherwise. -/
def relink (d : Dir) (t : RBTree α) (up old new : ℕ) : Except Fault (RBTree α) :=
  if up = nil then .ok { t with root := new }
  else do
    if old = (← t.child d up) then t.setChild d up new else t.setChild d.flip up new

/-- The guarded update of a parent link: the sentinel is left alone. -/
def adopt (t : RBTree α) (p q : ℕ) : Except Fault (RBTree α) :=
  if p ≠ nil then t.setParent p q else .ok t

/-- A rotation that moves `p` down on side `d`. -/
def rotate (d : Dir) (t : RBTree α) (p : ℕ) : Except Fault (RBTree α) := do
  let c ← t.child d.flip p
  let t ← t.setChild d.flip p (← t.child d c)
  let t ← t.adopt (← t.child d c) p
  let t ← t.setParent c (← t.parent p)
  let t ← t.relink d (← t.parent p) p c
  let t ← t.setChild d c p
  t.setParent p c

def rotateLeft (t : RBTree α) (p : ℕ) : Except Fault (RBTree α) := t.rotate .left p

def rotateRight (t : RBTree α) (p : ℕ) : Except Fault (RBTree α) := t.rotate .right p

/-! ### Searching -/

section Search

variable (lt : α → α → Bool)

/-- The loop of `search_tree`. -/
def searchTree (t : RBTree α) (value : α) : ℕ → ℕ → Except Fault ℕ
  | 0, _ => .error .outOfFuel
  | n + 1, p =>
    if p = nil then .ok nil
    else do
      let k ← t.key p
      if lt value k then searchTree t value n (← t.left p)
      else if lt k value then searchTree t value n (← t.right p)
      else .ok p

def find (t : RBTree α) (value : α) : Except Fault (Option α) := do
  let p ← t.searchTree lt value t.fuel t.root
  if p = nil then .ok none else do
    .ok (some (← t.key p))

def contains (t : RBTree α) (value : α) : Except Fault Bool := do
  .ok (← t.find lt value).isSome

end Search

/-! ### Insertion -/

/-- The first rotation of a round of `rebalance_insert`: a node that is the inner
child of its parent changes places with it. -/
def straighten (d : Dir) (t : RBTree α) (p : ℕ) : Except Fault (RBTree α × ℕ) := do
  let parent ← t.parent p
  if p = (← t.child d.flip parent) then do
    let t ← t.rotate d parent
    .ok (t, parent)
  else .ok (t, p)

/-- One round of the loop of `rebalance_insert`, for a red node whose red parent
is the child of the grandparent on side `d`. -/
def rebalanceInsertStep (d : Dir) (t : RBTree α) (p : ℕ) :
    Except Fault (RBTree α × ℕ) := do
  let parent ← t.parent p
  let grand ← t.parent parent
  let u ← t.child d.flip grand
  if !(← t.isBlack u) then do
    let t ← t.setBlack u true
    let t ← t.setBlack parent true
    let t ← t.setBlack grand false
    .ok (t, grand)
  else do
    let (t, p) ← t.straighten d p
    let parent ← t.parent p
    let t ← t.setBlack parent true
    let grand ← t.parent parent
    let t ← t.setBlack grand false
    let t ← t.rotate d.flip grand
    .ok (t, p)

/-- The loop of `rebalance_insert`. -/
def rebalanceInsertLoop : ℕ → RBTree α → ℕ → Except Fault (RBTree α)
  | 0, _, _ => .error .outOfFuel
  | n + 1, t, p =>
    if p = t.root then .ok t
    else do
      let parent ← t.parent p
      if ← t.isBlack parent then .ok t
      else do
        let grand ← t.parent parent
        let d := if parent = (← t.right grand) then Dir.right else Dir.left
        let (t, p) ← t.rebalanceInsertStep d p
        rebalanceInsertLoop n t p

def rebalanceInsert (t : RBTree α) (p : ℕ) : Except Fault (RBTree α) := do
  let t ← rebalanceInsertLoop t.fuel t p
  t.setBlack t.root true

/-- The descent of `insert`: a node with an equivalent key, or the parent of the
new node and whether it goes to its left. -/
def insertPosition (lt : α → α → Bool) (t : RBTree α) (value : α) :
    ℕ → ℕ → ℕ → Bool → Except Fault (ℕ ⊕ ℕ × Bool)
  | 0, _, _, _ => .error .outOfFuel
  | n + 1, parent, current, less =>
    if current = nil then .ok (.inr (parent, less))
    else do
      let k ← t.key current
      if lt value k then insertPosition lt t value n current (← t.left current) true
      else if lt k value then insertPosition lt t value n current (← t.right current) false
      else .ok (.inl current)

/-- Hang a new node below the parent that was found; an empty tree becomes the
new node. -/
def link (t : RBTree α) (p parent : ℕ) (less : Bool) : Except Fault (RBTree α) :=
  if parent = nil then .ok { t with root := p, first := p, last := p }
  else if less then t.setChild .left parent p
  else t.setChild .right parent p

/-- What `insert` does to `_first` and `_last`: each moves on to a child that has
appeared beyond it. -/
def extendEnds (t : RBTree α) : Except Fault (RBTree α) := do
  let l ← t.left t.first
  let t := if l ≠ nil then { t with first := l } else t
  let r ← t.right t.last
  .ok (if r ≠ nil then { t with last := r } else t)

def insert (lt : α → α → Bool) (t : RBTree α) (value : α) : Except Fault (RBTree α) := do
  match ← t.insertPosition lt value t.fuel nil t.root true with
  | .inl current => t.setKey current value
  | .inr (parent, less) =>
    let p := t.fresh
    let t ← (t.alloc value parent).link p parent less
    let t ← t.extendEnds
    let t ← t.rebalanceInsert p
    .ok { t with size := t.size + 1 }

/-! ### Removal -/

def transplant (t : RBTree α) (u v : ℕ) : Except Fault (RBTree α) := do
  let t ← t.relink .left (← t.parent u) u v
  t.setParent v (← t.parent u)

/-- The loops of `most_left` and `most_right`. -/
def most (d : Dir) (t : RBTree α) : ℕ → ℕ → Except Fault ℕ
  | 0, _ => .error .outOfFuel
  | n + 1, p => do
    let c ← t.child d p
    if c ≠ nil then most d t n c else .ok p

def mostLeft (t : RBTree α) (p : ℕ) : Except Fault ℕ := most .left t t.fuel p

def mostRight (t : RBTree α) (p : ℕ) : Except Fault ℕ := most .right t t.fuel p

/-- The sibling in a round of `rebalance_delete`, after the rotation that replaces
a red one by a black one. -/
def blackSibling (d : Dir) (t : RBTree α) (p : ℕ) : Except Fault (RBTree α × ℕ) := do
  let parent ← t.parent p
  let sib ← t.child d.flip parent
  if !(← t.isBlack sib) then do
    let t ← t.setBlack sib true
    let t ← t.setBlack parent false
    let t ← t.rotate d parent
    .ok (t, ← t.child d.flip (← t.parent p))
  else .ok (t, sib)

/-- The test of `rebalance_delete` for a sibling with two black children; the far
child is only looked at when the near one is black. -/
def blackChildren (d : Dir) (t : RBTree α) (sib : ℕ) : Except Fault Bool := do
  if ← t.isBlack (← t.child d sib) then t.isBlack (← t.child d.flip sib) else .ok false

/-- The sibling after the rotation that brings a red child to its far side. -/
def alignSibling (d : Dir) (t : RBTree α) (p sib : ℕ) : Except Fault (RBTree α × ℕ) := do
  if ← t.isBlack (← t.child d.flip sib) then do
    let t ← t.setBlack (← t.child d sib) true
    let t ← t.setBlack sib false
    let t ← t.rotate d.flip sib
    .ok (t, ← t.child d.flip (← t.parent p))
  else .ok (t, sib)

/-- One round of the loop of `rebalance_delete`, for a black node that is the
child of its parent on side `d`. -/
def rebalanceDeleteStep (d : Dir) (t : RBTree α) (p : ℕ) :
    Except Fault (RBTree α × ℕ) := do
  let (t, sib) ← t.blackSibling d p
  if ← t.blackChildren d sib then do
    let t ← t.setBlack sib false
    .ok (t, ← t.parent p)
  else do
    let (t, sib) ← t.alignSibling d p sib
    let parent ← t.parent p
    let t ← t.setBlack sib (← t.isBlack parent)
    let t ← t.setBlack parent true
    let t ← t.setBlack (← t.child d.flip sib) true
    let t ← t.rotate d parent
    .ok (t, t.root)

/-- The loop of `rebalance_delete`. -/
def rebalanceDeleteLoop : ℕ → RBTree α → ℕ → Except Fault (RBTree α × ℕ)
  | 0, _, _ => .error .outOfFuel
  | n + 1, t, p =>
    if p = t.root then .ok (t, p)
    else do
      if ← t.isBlack p then do
        let d := if p = (← t.left (← t.parent p)) then Dir.left else Dir.right
        let (t, p) ← t.rebalanceDeleteStep d p
        rebalanceDeleteLoop n t p
      else .ok (t, p)

def rebalanceDelete (t : RBTree α) (p : ℕ) : Except Fault (RBTree α) := do
  let (t, p) ← rebalanceDeleteLoop t.fuel t p
  t.setBlack p true

/-- What `remove(Node*)` does to `_first` and `_last` before it unlinks. -/
def retireEnds (t : RBTree α) (p : ℕ) : Except Fault (RBTree α) :=
  if p = t.first then do
    let r ← t.right p
    if r ≠ nil then .ok { t with first := r } else do
      .ok { t with first := ← t.parent p }
  else if p = t.last then do
    let l ← t.left p
    if l ≠ nil then .ok { t with last := l } else do
      .ok { t with last := ← t.parent p }
  else .ok t

/-- Take the in-order successor `pom` of a node out of the node's right subtree,
which it then heads. -/
def detachSuccessor (t : RBTree α) (p pom : ℕ) : Except Fault (RBTree α) := do
  if (← t.parent pom) = p then t.setParent (← t.right pom) pom
  else do
    let t ← t.transplant pom (← t.right pom)
    let t ← t.setChild .right pom (← t.right p)
    t.setParent (← t.right pom) pom

/-- The part of `remove(Node*)` that unlinks the node: the tree, the node to
rebalance from, and the colour that was lost. -/
def unlink (t : RBTree α) (p : ℕ) : Except Fault (RBTree α × ℕ × Bool) := do
  let originalColor ← t.isBlack p
  let l ← t.left p
  let r ← t.right p
  if l = nil then do
    let t ← t.transplant p r
    .ok (t, r, originalColor)
  else if r = nil then do
    let t ← t.transplant p l
    .ok (t, l, originalColor)
  else do
    let pom ← t.mostLeft r
    let originalColor ← t.isBlack pom
    let fixNode ← t.right pom
    let t ← t.detachSuccessor p pom
    let t ← t.transplant p pom
    let t ← t.setChild .left pom (← t.left p)
    let t ← t.setParent (← t.left pom) pom
    let t ← t.setBlack pom (← t.isBlack p)
    .ok (t, fixNode, originalColor)

/-- `remove(Node*)`. -/
def removeNode (t : RBTree α) (p : ℕ) : Except Fault (RBTree α) := do
  let t ← t.retireEnds p
  let (t, fixNode, originalColor) ← t.unlink p
  let t := t.delete p
  if originalColor then t.rebalanceDelete fixNode else .ok t

/-- `remove(const T&)`. -/
def remove (lt : α → α → Bool) (t : RBTree α) (value : α) :
    Except Fault (RBTree α × Bool) := do
  let p ← t.searchTree lt value t.fuel t.root
  if p = nil then .ok (t, false)
  else do
    let t ← t.removeNode p
    .ok ({ t with size := t.size - 1 }, true)

/-! ### Clearing -/

/-- The recursion of `clear(Node*)`. -/
def clearFrom : ℕ → RBTree α → ℕ → Except Fault (RBTree α)
  | 0, _, _ => .error .outOfFuel
  | n + 1, t, p =>
    if p = nil then .ok t
    else do
      let t ← clearFrom n t (← t.left p)
      let t ← clearFrom n t (← t.right p)
      let t := t.delete p
      .ok { t with size := t.size - 1 }

/-- `clear()`; `_first` and `_last` stay as they are. -/
def clear (t : RBTree α) : Except Fault (RBTree α) := do
  let t ← clearFrom t.fuel t t.root
  .ok { t with root := nil }

/-! ### Iteration -/

/-- The climb of `successor` and `predecessor`: up, as long as the node is the
child on side `d` and the loop is not stopped at the node reached. -/
def climb (d : Dir) (stop : ℕ → Bool) (t : RBTree α) : ℕ → ℕ → ℕ → Except Fault ℕ
  | 0, _, _ => .error .outOfFuel
  | n + 1, p, up =>
    if stop up then .ok up
    else do
      if p = (← t.child d up) then climb d stop t n up (← t.parent up) else .ok up

/-- The neighbour of a node in key order, on side `d`. -/
def neighbour (d : Dir) (stop : ℕ → Bool) (t : RBTree α) (p : ℕ) : Except Fault ℕ := do
  let c ← t.child d p
  if c ≠ nil then most d.flip t t.fuel c else climb d stop t t.fuel p (← t.parent p)

/-- The climb of `successor` stops at the null pointer, too. -/
def successor (t : RBTree α) (p : ℕ) : Except Fault ℕ :=
  t.neighbour .right (fun up => up == nullptr || up == nil) p

def predecessor (t : RBTree α) (p : ℕ) : Except Fault ℕ :=
  t.neighbour .left (fun up => up == nil) p

/-- The keys seen from a node on, stepping with `++` as long as the iterator is
valid. -/
def keysFrom (t : RBTree α) : ℕ → ℕ → Except Fault (List α)
  | 0, _ => .error .outOfFuel
  | n + 1, p =>
    if p = nil then .ok []
    else do
      let k ← t.key p
      let ks ← keysFrom t n (← t.successor p)
      .ok (k :: ks)

/-- The keys visited by `for (auto it = begin(); it.valid(); it++)`. -/
def keys (t : RBTree α) : Except Fault (List α) := t.keysFrom t.fuel t.first

/-- The nodes an iterator is at, from one on, stepping with `++` until it is at
`stop`. -/
def visit (next : ℕ → Except Fault ℕ) (stop : ℕ) : ℕ → ℕ → Except Fault (List ℕ)
  | 0, _ => .error .outOfFuel
  | n + 1, p =>
    if p = stop then .ok []
    else do
      let ps ← visit next stop n (← next p)
      .ok (p :: ps)

/-- The nodes visited from `begin()` on by an iterator that is valid. -/
def forward (t : RBTree α) : Except Fault (List ℕ) := visit t.successor nil t.fuel t.first

/-- The nodes visited from `rbegin()` on, whose iterator steps to the predecessor. -/
def backward (t : RBTree α) : Except Fault (List ℕ) := visit t.predecessor nil t.fuel t.last

/-- The loops of `lower_bound` and `upper_bound`, which go to the right of the keys that
are too small. -/
def bound (tooSmall : α → Bool) (t : RBTree α) : ℕ → ℕ → ℕ → Except Fault ℕ
  | 0, _, _ => .error .outOfFuel
  | n + 1, result, p =>
    if p = nil then .ok result
    else do
      if tooSmall (← t.key p) then bound tooSmall t n result (← t.right p)
      else bound tooSmall t n p (← t.left p)

def lowerBound (lt : α → α → Bool) (t : RBTree α) (fromValue : α) : Except Fault ℕ :=
  t.bound (fun k => lt k fromValue) t.fuel t.last t.root

def upperBound (lt : α → α → Bool) (t : RBTree α) (toValue : α) : Except Fault ℕ :=
  t.bound (fun k => !lt toValue k) t.fuel t.last t.root

/-- `range(from, to)`: its first and its second iterator. -/
def range (lt : α → α → Bool) (t : RBTree α) (fromValue toValue : α) :
    Except Fault (ℕ × ℕ) := do
  .ok (← t.lowerBound lt fromValue, ← t.upperBound lt toValue)

/-- `first()`. -/
def firstKey (t : RBTree α) : Except Fault (Option α) :=
  if t.first = nil then .ok none else do
    .ok (some (← t.key t.first))

/-- `last()`. -/
def lastKey (t : RBTree α) : Except Fault (Option α) :=
  if t.last = nil then .ok none else do
    .ok (some (← t.key t.last))

end RBTree

end LimitOrderBook
