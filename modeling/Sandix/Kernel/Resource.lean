import Sandix.Machinery.Exec

/-!
# Kernel/Resource — the resource tree

`kernel/resource.c`.  A `struct resource` is a node of the heap, named by its address; the tree is
threaded through `parent`, `sibling` and `child`.  The loops follow these pointers, so they run on a
budget, and following a null pointer is a fault.

`struct resource **p` is a `Link`: the `child` field of a node, or the `sibling` field of one.
-/

namespace Sandix

open Machinery

/-- `struct resource`; the name and the flags are read by nothing here. -/
structure Resource where
  start : ℕ
  stop : ℕ
  parent : Option ℕ
  sibling : Option ℕ
  child : Option ℕ
deriving DecidableEq, Repr

/-- The resources in memory. -/
abbrev ResHeap := ℕ → Resource

/-- A pointer to a pointer: `&r->child` or `&r->sibling`. -/
inductive Link
  | child (r : ℕ)
  | sibling (r : ℕ)
deriving DecidableEq, Repr

/-- The resource a link is a field of. -/
def Link.owner : Link → ℕ
  | .child r => r
  | .sibling r => r

/-- `*p`. -/
def Link.load (h : ResHeap) : Link → Option ℕ
  | .child r => (h r).child
  | .sibling r => (h r).sibling

/-- `*p = v`. -/
def Link.store (h : ResHeap) (v : Option ℕ) : Link → ResHeap
  | .child r => Function.update h r { h r with child := v }
  | .sibling r => Function.update h r { h r with sibling := v }

/-- `r->parent = v`. -/
def setParent (h : ResHeap) (r : ℕ) (v : Option ℕ) : ResHeap :=
  Function.update h r { h r with parent := v }

variable (fuel : ℕ) (h : ResHeap)

/-- One round of the loop of `__request_resource`. -/
def requestStep (root new : ℕ) (p : Link) : Exec (Link ⊕ (Option ℕ × ResHeap)) :=
  let linked : Exec (Link ⊕ (Option ℕ × ResHeap)) :=
    .ok (.inr (none, setParent (p.store (Link.store h (p.load h) (.sibling new)) (some new)) new
      (some root)))
  match p.load h with
  | none => linked
  | some tmp =>
    if (h tmp).start > (h new).stop then linked
    else if (h tmp).stop < (h new).start then .ok (.inl (.sibling tmp))
    else .ok (.inr (some tmp, h))

/-- `__request_resource`: the conflicting entry, or null. -/
def requestResource (root new : ℕ) : Exec (Option ℕ × ResHeap) :=
  if (h new).stop < (h new).start then .ok (some root, h)
  else if (h new).start < (h root).start then .ok (some root, h)
  else if (h new).stop > (h root).stop then .ok (some root, h)
  else Exec.loop (requestStep h root new) fuel (.child root)

/-- One round of the loop of `__insert_resource` over the resources `new` would take over: the
conflict, or the last of them. -/
def captureStep (new next : ℕ) : Exec (ℕ ⊕ (ℕ ⊕ ℕ)) :=
  if (h next).start < (h new).start ∨ (h next).stop > (h new).stop then .ok (.inr (.inl next))
  else
    match (h next).sibling with
    | none => .ok (.inr (.inr next))
    | some sib => if (h sib).start > (h new).stop then .ok (.inr (.inr next)) else .ok (.inl sib)

/-- One round of the loop that gives the children of `new` their parent. -/
def reparentStep (new : ℕ) : ResHeap × Option ℕ → Exec ((ResHeap × Option ℕ) ⊕ ResHeap)
  | (h, none) => .ok (.inr h)
  | (h, some next) =>
    let h' := setParent h next (some new)
    .ok (.inl (h', (h' next).sibling))

/-- One round of the search for the resource before `first`. -/
def beforeStep (first next : ℕ) : Exec (ℕ ⊕ ℕ) :=
  if (h next).sibling = some first then .ok (.inr next)
  else
    match (h next).sibling with
    | none => .error .fault
    | some sib => .ok (.inl sib)

/-- The end of `__insert_resource`: `new` takes the place of the resources from `first` to `next`,
which become its children. -/
def captureRun (parent new first next : ℕ) : Exec (Option ℕ × ResHeap) := do
  let h₁ := Function.update h new
    { h new with parent := some parent, sibling := (h next).sibling, child := some first }
  let h₂ := Link.store h₁ none (.sibling next)
  let h₃ ← Exec.loop (reparentStep new) fuel (h₂, some first)
  if (h₃ parent).child = some first then
    pure (none, Link.store h₃ (some new) (.child parent))
  else
    match (h₃ parent).child with
    | none => .error .fault
    | some head =>
      let before ← Exec.loop (beforeStep h₃ first) fuel head
      pure (none, Link.store h₃ (some new) (.sibling before))

/-- One round of the outer loop of `__insert_resource`, with what follows it where it breaks. -/
def insertStep (new : ℕ) :
    ResHeap × ℕ → Exec ((ResHeap × ℕ) ⊕ (Option ℕ × ResHeap))
  | (h, parent) => do
    let (conflict, h) ← requestResource fuel h parent new
    match conflict with
    | none => pure (.inr (none, h))
    | some first =>
      if first = parent then pure (.inr (some first, h))
      else if first = new then pure (.inr (some first, h))
      else if ((h first).start > (h new).start ∨ (h first).stop < (h new).stop) ∨
          ((h first).start = (h new).start ∧ (h first).stop = (h new).stop) then do
        let last ← Exec.loop (captureStep h new) fuel first
        match last with
        | .inl next => pure (.inr (some next, h))
        | .inr next => do
          let r ← captureRun fuel h parent new first next
          pure (.inr r)
      else pure (.inl (h, first))

/-- `__insert_resource`. -/
def insertResource (parent new : ℕ) : Exec (Option ℕ × ResHeap) :=
  Exec.loop (insertStep fuel new) fuel (h, parent)

/-- One round of the loop of `__release_resource` that hands the children of `tmp` to its parent: the
last of them. -/
def adoptStep (tmp : ℕ) : ResHeap × ℕ → Exec ((ResHeap × ℕ) ⊕ (ResHeap × ℕ))
  | (h, chd) =>
    let h' := setParent h chd (h tmp).parent
    match (h' chd).sibling with
    | none => .ok (.inr (h', chd))
    | some sib => .ok (.inl (h', sib))

/-- One round of the loop of `__release_resource`. -/
def releaseStep (old : ℕ) (releaseChild : Bool) (p : Link) : Exec (Link ⊕ (ℤ × ResHeap)) :=
  match p.load h with
  | none => .ok (.inr (-EINVAL, h))
  | some tmp =>
    if tmp = old then
      match releaseChild, (h tmp).child with
      | false, some first => do
        let (h₁, chd) ← Exec.loop (adoptStep tmp) fuel (h, first)
        let h₂ := p.store h₁ (h₁ tmp).child
        let h₃ := Link.store h₂ (h₂ tmp).sibling (.sibling chd)
        pure (.inr (0, setParent h₃ old none))
      | _, _ => .ok (.inr (0, setParent (p.store h (h tmp).sibling) old none))
    else .ok (.inl (.sibling tmp))

/-- `__release_resource`. -/
def rawReleaseResource (old : ℕ) (releaseChild : Bool) : Exec (ℤ × ResHeap) :=
  match (h old).parent with
  | none => .error .fault
  | some parent => Exec.loop (releaseStep fuel h old releaseChild) fuel (.child parent)

/-- `release_resource`. -/
def releaseResource (old : ℕ) : Exec (ℤ × ResHeap) := rawReleaseResource fuel h old true

end Sandix
