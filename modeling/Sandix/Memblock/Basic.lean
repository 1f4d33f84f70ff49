import Sandix.Machinery.Exec
import Sandix.Machinery.Word

/-!
# Memblock/Basic — the boot-time region arrays and the functions that edit them

`mm/memblock.c` keeps two arrays of regions, `memblock.memory` and `memblock.reserved`, and edits
them in place: `memblockInsertRegion` opens a slot with `memmove`, `memblockRemoveRegion` closes
one, `memblockMergeRegions` joins neighbours while it scans, and `memblockAddRange` and
`memblockIsolateRange` walk the array they are editing.

Addresses are 32-bit (`phys_addr_t` without `CONFIG_PHYS_ADDR_T_64BIT`): a sum that the source
computes in `phys_addr_t` is reduced modulo `2 ^ 32`, a difference is a `sub32`.  A region array is
the list of its live entries, so `nr_regions` is its length; no function reads an entry at or past
`nr_regions`.  A `BUG_ON` stops the machine (`Stop.bug`); a `WARN_ON` does not change what is
computed.
-/

namespace Sandix

open Machinery

/-- `(phys_addr_t)ULLONG_MAX`. -/
abbrev physMax : ℕ := 2 ^ 32 - 1

/-- `INIT_MEMBLOCK_REGIONS`. -/
abbrev initMemblockRegions : ℕ := 128

/-- `MAX_NR_NODES`, with `NODES_SHIFT` undefined. -/
abbrev maxNrNodes : ℤ := 1

/-- `NUMA_NO_NODE`. -/
abbrev numaNoNode : ℤ := -1

/-- `-ENOMEM`. -/
abbrev enomem : ℤ := -12

/-- `struct memblock_region`. -/
structure MemblockRegion where
  base : ℕ
  size : ℕ
  flags : ℕ
  nid : ℤ
deriving DecidableEq, Repr

/-- The one region of an empty map: `[0, 0)`, as `memblock_remove_region` leaves it. -/
def MemblockRegion.dummy : MemblockRegion := ⟨0, 0, 0, maxNrNodes⟩

instance : Inhabited MemblockRegion := ⟨.dummy⟩

/-- `r->base + r->size`, in `phys_addr_t`. -/
def MemblockRegion.stop (r : MemblockRegion) : ℕ := (r.base + r.size) % 2 ^ 32

/-- `struct memblock_type`; `regions` holds the live entries. -/
structure MemblockType where
  max : ℕ
  totalSize : ℕ
  regions : List MemblockRegion
deriving DecidableEq, Repr

namespace MemblockType

/-- `type->nr_regions`. -/
def nrRegions (t : MemblockType) : ℕ := t.regions.length

/-- `type->regions[i]`. -/
def region (t : MemblockType) (i : ℕ) : MemblockRegion := t.regions.getD i default

/-- `type->regions[i] = r`. -/
def setRegion (t : MemblockType) (i : ℕ) (r : MemblockRegion) : MemblockType :=
  { t with regions := t.regions.set i r }

end MemblockType

/-- `struct memblock`. -/
structure Memblock where
  isBottomUp : Bool
  currentLimit : ℕ
  memory : MemblockType
  reserved : MemblockType
deriving DecidableEq, Repr

/-- The static initializer of an array: one zeroed region, which counts as present. -/
def initMemblockType : MemblockType :=
  { max := initMemblockRegions, totalSize := 0, regions := [⟨0, 0, 0, 0⟩] }

/-- The initial `memblock`. -/
def initMemblock : Memblock :=
  { isBottomUp := false
    currentLimit := physMax
    memory := initMemblockType
    reserved := initMemblockType }

/-- `memblock_cap_size`: the size cut so that the range ends at `physMax` at the latest. -/
def memblockCapSize (base size : ℕ) : ℕ := min size (physMax - base)

/-! ## The array editors -/

/-- `memblock_insert_region`: `memmove` the tail up one slot and store the new region at `idx`. -/
def memblockInsertRegion (t : MemblockType) (idx base size : ℕ) (nid : ℤ) (flags : ℕ) :
    Exec MemblockType :=
  if t.max ≤ t.nrRegions then .error .bug
  else .ok { t with
    regions := t.regions.insertIdx idx ⟨base, size, flags, nid⟩
    totalSize := (t.totalSize + size) % 2 ^ 32 }

/-- `memblock_remove_region`: `memmove` the tail down over slot `r`; an array that becomes empty
gets the dummy region back. -/
def memblockRemoveRegion (t : MemblockType) (r : ℕ) : MemblockType :=
  let rest := t.regions.eraseIdx r
  { t with
    regions := if rest.length = 0 then [.dummy] else rest
    totalSize := sub32 t.totalSize (t.region r).size }

/-- One round of `memblock_merge_regions` at index `i`. -/
def memblockMergeStep : MemblockType × ℕ → Exec (MemblockType × ℕ ⊕ MemblockType)
  | (t, i) =>
    if i + 1 < t.nrRegions then
      let this := t.region i
      let next := t.region (i + 1)
      if this.stop ≠ next.base ∨ this.nid ≠ next.nid ∨ this.flags ≠ next.flags then
        if this.stop > next.base then .error .bug
        else .ok (.inl (t, i + 1))
      else
        let grown := { this with size := (this.size + next.size) % 2 ^ 32 }
        .ok (.inl ({ t with regions := (t.regions.set i grown).eraseIdx (i + 1) }, i))
    else .ok (.inr t)

/-- `memblock_merge_regions`: join neighbours that touch and agree in node and flags. -/
def memblockMergeRegions (t : MemblockType) : Exec MemblockType :=
  Exec.loop memblockMergeStep (t.nrRegions + 1) (t, 0)

/-! ## Adding a range -/

/-- The variables of the scan in `memblock_add_range`. -/
structure AddScan where
  type : MemblockType
  idx : ℕ
  base : ℕ
  nrNew : ℕ

section AddRange

variable (insert : Bool) (stop : ℕ) (nid : ℤ) (flags : ℕ)

/-- Count a missing piece `[base, upto)`, and on the second pass insert it at `idx`; `idx` is moved
past the piece. -/
def addPiece (s : AddScan) (upto : ℕ) : Exec AddScan :=
  if insert then do
    let t ← memblockInsertRegion s.type s.idx s.base (upto - s.base) nid flags
    pure { s with type := t, idx := s.idx + 1, nrNew := s.nrNew + 1 }
  else .ok { s with nrNew := s.nrNew + 1 }

/-- One round of the `for_each_memblock_type` loop of `memblock_add_range`. -/
def addScanStep (s : AddScan) : Exec (AddScan ⊕ AddScan) :=
  if s.idx < s.type.nrRegions then
    let r := s.type.region s.idx
    if r.base ≥ stop then .ok (.inr s)
    else if r.stop ≤ s.base then .ok (.inl { s with idx := s.idx + 1 })
    else do
      let s' ← if r.base > s.base then addPiece insert nid flags s r.base else pure s
      pure (.inl { s' with base := min r.stop stop, idx := s'.idx + 1 })
  else .ok (.inr s)

/-- One of the two passes of `memblock_add_range`: the scan, then the remaining portion. -/
def addPass (t : MemblockType) (base : ℕ) : Exec AddScan := do
  let s ← Exec.loop (addScanStep insert stop nid flags) (t.nrRegions + 1) ⟨t, 0, base, 0⟩
  if s.base < stop then addPiece insert nid flags s stop else pure s

end AddRange

/-- `memblock_add_range`: the first pass counts the pieces of `[base, base + size)` not yet in the
array, the second inserts them, and neighbours are then merged.  Returns the error code and the
array. -/
def memblockAddRange (t : MemblockType) (base size : ℕ) (nid : ℤ) (flags : ℕ) :
    Exec (ℤ × MemblockType) :=
  let size := memblockCapSize base size
  let stop := (base + size) % 2 ^ 32
  if size = 0 then .ok (0, t)
  else if (t.region 0).size = 0 then
    .ok (0, { t.setRegion 0 ⟨base, size, flags, nid⟩ with totalSize := size })
  else do
    let count ← addPass false stop nid flags t base
    if t.nrRegions + count.nrNew > t.max then pure (enomem, t)
    else do
      let s ← addPass true stop nid flags t base
      let t' ← memblockMergeRegions s.type
      pure (0, t')

/-! ## Isolating and removing a range -/

/-- The variables of the walk in `memblock_isolate_range`. -/
structure IsolateScan where
  type : MemblockType
  idx : ℕ
  startRgn : ℕ
  endRgn : ℕ

/-- `rgn` with its part below `cut` given away: the new top half. -/
def MemblockRegion.above (rgn : MemblockRegion) (cut : ℕ) : MemblockRegion :=
  { rgn with base := cut, size := sub32 rgn.size (cut - rgn.base) }

/-- Split the region at `idx` at the address `cut`: the entry keeps the top half, and the bottom
half is inserted in front of it. -/
def splitRegion (t : MemblockType) (idx cut : ℕ) : Exec MemblockType :=
  let rgn := t.region idx
  let t := { t.setRegion idx (rgn.above cut) with
    totalSize := sub32 t.totalSize (cut - rgn.base) }
  memblockInsertRegion t idx rgn.base (cut - rgn.base) rgn.nid rgn.flags

/-- One round of the `for_each_memblock_type` loop of `memblock_isolate_range`. -/
def isolateStep (base stop : ℕ) (s : IsolateScan) : Exec (IsolateScan ⊕ IsolateScan) :=
  if s.idx < s.type.nrRegions then
    let rgn := s.type.region s.idx
    if rgn.base ≥ stop then .ok (.inr s)
    else if rgn.stop ≤ base then .ok (.inl { s with idx := s.idx + 1 })
    else if rgn.base < base then do
      -- intersects from below: go on with the new top half
      let t ← splitRegion s.type s.idx base
      pure (.inl { s with type := t, idx := s.idx + 1 })
    else if rgn.stop > stop then do
      -- intersects from above: redo the new bottom half, which now sits at `idx`
      let t ← splitRegion s.type s.idx stop
      pure (.inl { s with type := t })
    else
      .ok (.inl { s with
        idx := s.idx + 1
        startRgn := if s.endRgn = 0 then s.idx else s.startRgn
        endRgn := s.idx + 1 })
  else .ok (.inr s)

/-- `memblock_isolate_range`: split the regions that cross an end of the range.  Returns the error
code, the array, and the indices `start_rgn`, `end_rgn` of the regions inside the range. -/
def memblockIsolateRange (t : MemblockType) (base size : ℕ) :
    Exec (ℤ × MemblockType × ℕ × ℕ) :=
  let size := memblockCapSize base size
  let stop := (base + size) % 2 ^ 32
  if size = 0 then .ok (0, t, 0, 0)
  else if t.nrRegions + 2 > t.max then .ok (enomem, t, 0, 0)
  else do
    let s ← Exec.loop (isolateStep base stop) (t.nrRegions + 4) ⟨t, 0, 0, 0⟩
    pure (0, s.type, s.startRgn, s.endRgn)

/-- The downward loop of `memblock_remove_range`: remove `count` regions, the last of them at index
`start + count - 1`. -/
def removeRegions (start : ℕ) : ℕ → MemblockType → MemblockType
  | 0, t => t
  | count + 1, t => removeRegions start count (memblockRemoveRegion t (start + count))

/-- `memblock_remove_range`. -/
def memblockRemoveRange (t : MemblockType) (base size : ℕ) : Exec (ℤ × MemblockType) := do
  let (ret, t, startRgn, endRgn) ← memblockIsolateRange t base size
  if ret ≠ 0 then pure (ret, t)
  else pure (0, removeRegions startRgn (endRgn - startRgn) t)

/-- The loop of `memblock_set_node`: `count` regions from index `i` on get the node `nid`. -/
def setRegionNodes (nid : ℤ) : ℕ → ℕ → MemblockType → MemblockType
  | _, 0, t => t
  | i, count + 1, t => setRegionNodes nid (i + 1) count (t.setRegion i { t.region i with nid })

/-- `memblock_set_node`, on the array `type` points at. -/
def memblockSetNode (t : MemblockType) (base size : ℕ) (nid : ℤ) : Exec (ℤ × MemblockType) := do
  let (ret, t, startRgn, endRgn) ← memblockIsolateRange t base size
  if ret ≠ 0 then pure (ret, t)
  else do
    let t ← memblockMergeRegions (setRegionNodes nid startRgn (endRgn - startRgn) t)
    pure (0, t)

/-! ## The calls a boot makes -/

/-- The two arrays a caller of `memblock_set_node` can name. -/
inductive MemblockSel
  | memory
  | reserved
deriving DecidableEq, Repr

/-- The calls that edit `memblock`. -/
inductive MemblockOp
  | add (base size : ℕ)
  | addNode (base size : ℕ) (nid : ℤ)
  | reserve (base size : ℕ)
  | remove (base size : ℕ)
  | free (base size : ℕ)
  | setNode (base size : ℕ) (type : MemblockSel) (nid : ℤ)
deriving Repr

namespace Memblock

/-- Run an editor on `memblock.memory`. -/
def onMemory (m : Memblock) (f : MemblockType → Exec (ℤ × MemblockType)) : Exec (ℤ × Memblock) := do
  let (ret, t) ← f m.memory
  pure (ret, { m with memory := t })

/-- Run an editor on `memblock.reserved`. -/
def onReserved (m : Memblock) (f : MemblockType → Exec (ℤ × MemblockType)) :
    Exec (ℤ × Memblock) := do
  let (ret, t) ← f m.reserved
  pure (ret, { m with reserved := t })

end Memblock

/-- `memblock_add_node`. -/
def memblockAddNode (m : Memblock) (base size : ℕ) (nid : ℤ) : Exec (ℤ × Memblock) :=
  m.onMemory fun t => memblockAddRange t base size nid 0

/-- `memblock_add`. -/
def memblockAdd (m : Memblock) (base size : ℕ) : Exec (ℤ × Memblock) :=
  m.onMemory fun t => memblockAddRange t base size maxNrNodes 0

/-- `memblock_reserve`. -/
def memblockReserve (m : Memblock) (base size : ℕ) : Exec (ℤ × Memblock) :=
  m.onReserved fun t => memblockAddRange t base size maxNrNodes 0

/-- `memblock_remove`. -/
def memblockRemove (m : Memblock) (base size : ℕ) : Exec (ℤ × Memblock) :=
  m.onMemory fun t => memblockRemoveRange t base size

/-- `memblock_free`. -/
def memblockFree (m : Memblock) (base size : ℕ) : Exec (ℤ × Memblock) :=
  m.onReserved fun t => memblockRemoveRange t base size

/-- One call, with its error code. -/
def MemblockOp.exec (m : Memblock) : MemblockOp → Exec (ℤ × Memblock)
  | .add base size => memblockAdd m base size
  | .addNode base size nid => memblockAddNode m base size nid
  | .reserve base size => memblockReserve m base size
  | .remove base size => memblockRemove m base size
  | .free base size => memblockFree m base size
  | .setNode base size .memory nid => m.onMemory fun t => memblockSetNode t base size nid
  | .setNode base size .reserved nid => m.onReserved fun t => memblockSetNode t base size nid

/-- The state after a sequence of calls. -/
def runOps : List MemblockOp → Memblock → Exec Memblock
  | [], m => .ok m
  | op :: ops, m => do
    let (_, m) ← op.exec m
    runOps ops m

end Sandix
