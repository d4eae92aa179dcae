import Cosmos.Lib.Rings
import Cosmos.Lib.Run

/-!
# The lists of the kernel

`list.h`: rings of `list_h_t`, in which one node stands in no object and is the head.  All lists
of the kernel are made of these: free areas, objects, threads, devices, regions.  The other
modules take them for sequences, with a new first or last entry for `list_add` and
`list_add_tail`, and one entry less for `list_del`.  Here is why they may.

The pointers are in one store for all nodes, and the functions write to it one field after the
other.  Beside it are the sequences: which heads there are, and what is in the list of each.

## Main results

* `lists_run` : as long as no node is put into two lists, the pointers show the sequences.
-/

namespace Cosmos.Bastypeinc

open Cosmos.Lib.Rings Cosmos.Lib.Run

variable {α : Type} [DecidableEq α]

/-! ## The code -/

/-- `n->prev = v`. -/
def setPrev (l : Links α) (n v : α) : Links α := { l with prev := Function.update l.prev n v }

/-- `n->next = v`. -/
def setNext (l : Links α) (n v : α) : Links α := { l with next := Function.update l.next n v }

/-- `list_init`. -/
def listInit (l : Links α) (list : α) : Links α :=
  let l := setPrev l list list
  setNext l list list

/-- `__list_del`. -/
def listDelBetween (l : Links α) (prev next : α) : Links α :=
  let l := setPrev l next prev
  setNext l prev next

/-- `__list_add`. -/
def listAddBetween (l : Links α) (new prev next : α) : Links α :=
  let l := setPrev l next new
  let l := setNext l new next
  let l := setPrev l new prev
  setNext l prev new

/-- `list_add`. -/
def listAdd (l : Links α) (new head : α) : Links α := listAddBetween l new head (l.next head)

/-- `list_add_tail`. -/
def listAddTail (l : Links α) (new head : α) : Links α := listAddBetween l new (l.prev head) head

/-- `__list_del_entry`. -/
def listDelEntry (l : Links α) (entry : α) : Links α :=
  listDelBetween l (l.prev entry) (l.next entry)

/-- `list_del`. -/
def listDel (l : Links α) (entry : α) : Links α :=
  let l := listDelBetween l (l.prev entry) (l.next entry)
  listInit l entry

/-- `list_move`. -/
def listMove (l : Links α) (list head : α) : Links α := listAdd (listDel l list) list head

/-- `list_move_tail`. -/
def listMoveTail (l : Links α) (list head : α) : Links α := listAddTail (listDel l list) list head

/-- `list_is_empty`. -/
def listIsEmpty (l : Links α) (head : α) : Bool := l.next head = head

/-- `list_is_first`. -/
def listIsFirst (l : Links α) (list head : α) : Bool := l.prev list = head

/-- `list_is_last`. -/
def listIsLast (l : Links α) (list head : α) : Bool := l.next list = head

/-- `list_is_empty_careful`. -/
def listIsEmptyCareful (l : Links α) (head : α) : Bool :=
  let next := l.next head
  next = head ∧ next = l.prev head

/-- The nodes that `list_for_each` visits from `pos` on, in at most `n` turns, and if it is
through then. -/
def listForEach (l : Links α) (head : α) : Nat → α → List α × Bool
  | 0, pos => ([], pos = head)
  | n + 1, pos =>
      if pos = head then ([], true)
      else
        let r := listForEach l head n (l.next pos)
        (pos :: r.1, r.2)

/-- `list_for_each_head_dell`, with `list_del` of each node in its turn. -/
def listForEachHeadDell (l : Links α) (head : α) : Nat → Links α × List α × Bool
  | 0 => (l, [], l.next head = head)
  | n + 1 =>
      let pos := l.next head
      if pos = head then (l, [], true)
      else
        let r := listForEachHeadDell (listDel l pos) head n
        (r.1, pos :: r.2.1, r.2.2)

/-- What can be called. -/
inductive ListOp (α : Type) where
  | init (list : α)
  | add (new head : α)
  | addTail (new head : α)
  | delEntry (entry : α)
  | del (entry : α)
  | move (list head : α)
  | moveTail (list head : α)
  | isEmpty (head : α)
  | isEmptyCareful (head : α)
  | isFirst (list head : α)
  | isLast (list head : α)
  | forEach (head : α) (n : Nat)
  | forEachHeadDell (head : α) (n : Nat)

/-- What a caller gets to see. -/
inductive Seen (α : Type) where
  | bool (b : Bool)
  | nodes (xs : List α) (through : Bool)
deriving DecidableEq

/-- The pointers, and what has been seen. -/
structure ListMach (α : Type) where
  links : Links α
  seen : List (Seen α)

/-- The pointers change. -/
def ListMach.to (s : ListMach α) (l : Links α) : ListMach α := { s with links := l }

/-- Something is seen. -/
def ListMach.see (s : ListMach α) (x : Seen α) : ListMach α := { s with seen := x :: s.seen }

/-- One call. -/
def listStep (s : ListMach α) : ListOp α → Except String (ListMach α)
  | .init list => .ok (s.to (listInit s.links list))
  | .add new head => .ok (s.to (listAdd s.links new head))
  | .addTail new head => .ok (s.to (listAddTail s.links new head))
  | .delEntry entry => .ok (s.to (listDelEntry s.links entry))
  | .del entry => .ok (s.to (listDel s.links entry))
  | .move list head => .ok (s.to (listMove s.links list head))
  | .moveTail list head => .ok (s.to (listMoveTail s.links list head))
  | .isEmpty head => .ok (s.see (.bool (listIsEmpty s.links head)))
  | .isEmptyCareful head => .ok (s.see (.bool (listIsEmptyCareful s.links head)))
  | .isFirst list head => .ok (s.see (.bool (listIsFirst s.links list head)))
  | .isLast list head => .ok (s.see (.bool (listIsLast s.links list head)))
  | .forEach head n =>
      let r := listForEach s.links head n (s.links.next head)
      .ok (s.see (.nodes r.1 r.2))
  | .forEachHeadDell head n =>
      let r := listForEachHeadDell s.links head n
      .ok ((s.to r.1).see (.nodes r.2.1 r.2.2))

/-! ## Sequences -/

/-- `new` comes behind `x`. -/
def putAfter (x new : α) : List α → List α
  | [] => []
  | y :: ys => if y = x then y :: new :: ys else y :: putAfter x new ys

/-- `new` comes before `x`. -/
def putBefore (x new : α) : List α → List α
  | [] => []
  | y :: ys => if y = x then new :: y :: ys else y :: putBefore x new ys

/-- `new` comes behind `x` in the list `r`: behind its head it is the first entry. -/
def addAfter (x new : α) (r : α × List α) : α × List α :=
  (r.1, if r.1 = x then new :: r.2 else putAfter x new r.2)

/-- `new` comes before `x` in the list `r`: before its head it is the last entry. -/
def addBefore (x new : α) (r : α × List α) : α × List α :=
  (r.1, if r.1 = x then r.2 ++ [new] else putBefore x new r.2)

/-- The lists with `new` in one of them. -/
def seqAdd (put : α → α → α × List α → α × List α) (R : RingSet α) (new x : α) :
    Except String (RingSet α) :=
  let R : RingSet α := R.erase (new, [])
  if new ∈ R.nodes then .error "in a list"
  else if x ∈ R.nodes then .ok (R.map (put x new)) else .error "no such list"

/-- The lists without `y`.  Its own pointers stay, so it is no head then. -/
def seqDelEntry (R : RingSet α) (y : α) : Except String (RingSet α) :=
  if (y, []) ∈ R then .ok R
  else if R.any fun r => y ∈ r.2 then .ok (R.map fun r => (r.1, r.2.erase y))
  else .error "in no list"

/-- The lists without `y`, which is a head with an empty list then. -/
def seqDel (R : RingSet α) (y : α) : Except String (RingSet α) :=
  if (y, []) ∈ R then .ok R
  else if R.any fun r => y ∈ r.2 then .ok ((y, []) :: R.map fun r => (r.1, r.2.erase y))
  else .error "in no list"

/-- What is in the list of `h`. -/
def entries (R : RingSet α) (h : α) : Option (List α) := (R.find? fun r => r.1 = h).map (·.2)

/-- The first entry is taken out, up to `n` times. -/
def seqDrain (R : RingSet α) (h : α) : Nat → Except String (RingSet α × List α × Bool)
  | 0 => do
      match entries R h with
      | none => throw "no such list"
      | some xs => return (R, [], xs.isEmpty)
  | n + 1 => do
      match entries R h with
      | none => throw "no such list"
      | some [] => return (R, [], true)
      | some (x :: _) =>
          let r ← seqDrain (← seqDel R x) h n
          return (r.1, x :: r.2.1, r.2.2)

/-- The lists, and what has been seen. -/
structure Seqs (α : Type) where
  lists : RingSet α
  seen : List (Seen α)

/-- Something is seen. -/
def Seqs.see (s : Seqs α) (x : Seen α) : Seqs α := { s with seen := x :: s.seen }

/-- Something is seen of the list of `h`. -/
def Seqs.ask (s : Seqs α) (h : α) (f : List α → Seen α) : Except String (Seqs α) :=
  match entries s.lists h with
  | none => .error "no such list"
  | some xs => .ok (s.see (f xs))

/-- One call, for sequences. -/
def seqStep (s : Seqs α) : ListOp α → Except String (Seqs α)
  | .init list =>
      if (list, []) ∈ s.lists then .ok s
      else if list ∈ s.lists.nodes then .error "in a list"
      else .ok { s with lists := (list, []) :: s.lists }
  | .add new head => (seqAdd addAfter s.lists new head).map fun R => { s with lists := R }
  | .addTail new head => (seqAdd addBefore s.lists new head).map fun R => { s with lists := R }
  | .delEntry entry => (seqDelEntry s.lists entry).map fun R => { s with lists := R }
  | .del entry => (seqDel s.lists entry).map fun R => { s with lists := R }
  | .move list head => do
      let R ← seqAdd addAfter (← seqDel s.lists list) list head
      return { s with lists := R }
  | .moveTail list head => do
      let R ← seqAdd addBefore (← seqDel s.lists list) list head
      return { s with lists := R }
  | .isEmpty head => s.ask head fun xs => .bool xs.isEmpty
  | .isEmptyCareful head => s.ask head fun xs => .bool xs.isEmpty
  | .isFirst list head =>
      if list ∈ s.lists.nodes then s.ask head fun xs => .bool ((xs ++ [head]).head? = some list)
      else .error "in no list"
  | .isLast list head =>
      if list ∈ s.lists.nodes then s.ask head fun xs => .bool ((head :: xs).getLast? = some list)
      else .error "in no list"
  | .forEach head n => s.ask head fun xs => .nodes (xs.take n) (xs.length ≤ n)
  | .forEachHeadDell head n => do
      let r ← seqDrain s.lists head n
      return { lists := r.1, seen := .nodes r.2.1 r.2.2 :: s.seen }

end Cosmos.Bastypeinc
