import Sandix.Lib.Sort

/-!
# E820/Sanitize — the sweep that removes overlaps from the BIOS memory map

`sanitize_e820_map` records where every non-empty entry starts and ends, sorts these change points
through an array of pointers, and sweeps over them with a list of the entries that overlap the current
address; the largest type on that list wins.  The result is built in a static array, which still holds
what an earlier call left there, and copied back over the input.

A map is the memory it lies in (`ℕ → E820Entry`) and the number of valid entries.
-/

namespace Sandix

open Machinery

/-- `E820MAX`. -/
abbrev e820Max : ℤ := 128

/-- `E820_PRAM`. -/
abbrev e820Pram : ℕ := 12

/-- `struct e820entry`. -/
structure E820Entry where
  addr : ℕ
  size : ℕ
  type : ℕ
deriving DecidableEq, Repr

instance : Inhabited E820Entry := ⟨⟨0, 0, 0⟩⟩

/-- `addr + size`, in `u64`. -/
def E820Entry.stop (x : E820Entry) : ℕ := (x.addr + x.size) % 2 ^ 64

/-- `struct change_member`; `pbios` is the index of the entry it points to. -/
structure ChangeMember where
  pbios : ℕ
  addr : ℕ
deriving DecidableEq, Repr

section Model

variable (biosmap : ℕ → E820Entry)

/-- The change point is the start of its entry. -/
def ChangeMember.isStart (c : ChangeMember) : Bool := c.addr = (biosmap c.pbios).addr

/-- `cpcompare`: by address; at one address the starts come before the ends. -/
def cpcompare (a b : ChangeMember) : ℤ :=
  if a.addr ≠ b.addr then if a.addr > b.addr then 1 else -1
  else (if a.isStart biosmap then 0 else 1) - (if b.isStart biosmap then 0 else 1)

/-- `change_point_list` after recording: the two change points of every non-empty entry. -/
def changePointList (oldNr : ℕ) : List ChangeMember :=
  (List.range oldNr).flatMap fun i =>
    if (biosmap i).size ≠ 0 then [⟨i, (biosmap i).addr⟩, ⟨i, (biosmap i).stop⟩] else []

/-- The calls `sort` makes on `change_point[]`, an array of 4-byte pointers into `points`; the swap
function it picks is `u32_swap`. -/
def changePointOps (points : List ChangeMember) : SortOps (ℕ → ℕ) where
  cmp p x y :=
    (cpcompare biosmap (points.getD (p (x / 4)) ⟨0, 0⟩) (points.getD (p (y / 4)) ⟨0, 0⟩), p)
  swap p x y := p ∘ Equiv.swap (x / 4) (y / 4)

/-- The variables of the sweep. -/
structure Sweep where
  overlapList : List ℕ
  newBios : ℕ → E820Entry
  newBiosEntry : ℕ
  lastType : ℕ
  lastAddr : ℕ

/-- Remove an entry from the overlap list: wherever it stands the last one is put, and the list is
cut by one. -/
def removeOverlap (overlapList : List ℕ) (pbios : ℕ) : List ℕ :=
  (overlapList.map fun q => if q = pbios then overlapList.getLastD 0 else q).dropLast

/-- The largest type on the overlap list. -/
def overlapType (overlapList : List ℕ) : ℕ :=
  overlapList.foldl (fun current q =>
    if (biosmap q).type > current then (biosmap q).type else current) 0

/-- The overlap list after a change point. -/
def updateOverlap (overlapList : List ℕ) (c : ChangeMember) : List ℕ :=
  if c.isStart biosmap then overlapList ++ [c.pbios] else removeOverlap overlapList c.pbios

/-- Close the entry being built at `addr`; it counts unless it is empty. -/
def closeEntry (s : Sweep) (addr : ℕ) : Sweep :=
  let size := sub64 addr s.lastAddr
  { s with
    newBios := Function.update s.newBios s.newBiosEntry { s.newBios s.newBiosEntry with size }
    newBiosEntry := if size ≠ 0 then s.newBiosEntry + 1 else s.newBiosEntry }

/-- Begin an entry of type `type` at `addr`. -/
def openEntry (s : Sweep) (addr type : ℕ) : Sweep :=
  { s with
    newBios := Function.update s.newBios s.newBiosEntry
      { s.newBios s.newBiosEntry with addr, type }
    lastAddr := addr }

/-- One round of the sweep; `true` when there is no space left for new entries and the loop is
left. -/
def sweepStep (maxNrMap : ℤ) (s : Sweep) (c : ChangeMember) : Sweep × Bool :=
  let s := { s with overlapList := updateOverlap biosmap s.overlapList c }
  let currentType := overlapType biosmap s.overlapList
  if currentType ≠ s.lastType ∨ currentType = e820Pram then
    let closed := if s.lastType ≠ 0 then closeEntry s c.addr else s
    if closed.newBiosEntry ≠ s.newBiosEntry ∧ (closed.newBiosEntry : ℤ) ≥ maxNrMap then
      (closed, true)
    else
      let opened := if currentType ≠ 0 then openEntry closed c.addr currentType else closed
      ({ opened with lastType := currentType }, false)
  else (s, false)

/-- The loop over the change points. -/
def sweep (maxNrMap : ℤ) : List ChangeMember → Sweep → Sweep
  | [], s => s
  | c :: cs, s =>
    match sweepStep biosmap maxNrMap s c with
    | (s, true) => s
    | (s, false) => sweep maxNrMap cs s

end Model

/-- `sanitize_e820_map`: the return value, the memory of the map, and `*pnr_map`.  `newBios` is what
the static array holds on entry. -/
def sanitizeE820Map (newBios biosmap : ℕ → E820Entry) (maxNrMap : ℤ) (nrMap : ℕ) :
    Exec (ℤ × (ℕ → E820Entry) × ℕ) :=
  if nrMap < 2 then .ok (-1, biosmap, nrMap)
  else
    let oldNr := int32 nrMap
    if oldNr > maxNrMap then .error .bug
    else if ∃ i < oldNr.toNat, (biosmap i).stop < (biosmap i).addr then .ok (-1, biosmap, nrMap)
    else do
      let points := changePointList biosmap oldNr.toNat
      let chgNr := points.length
      let changePoint ← sort (changePointOps biosmap points) 4 chgNr id
      let s := sweep biosmap maxNrMap
        ((List.range chgNr).map fun i => points.getD (changePoint i) ⟨0, 0⟩) ⟨[], newBios, 0, 0, 0⟩
      let newNr := s.newBiosEntry
      pure (0, fun i => if i < newNr then s.newBios i else biosmap i, newNr)

end Sandix
