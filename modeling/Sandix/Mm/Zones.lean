import Sandix.Memblock.Alloc
import Sandix.Memblock.PfnRange

/-!
# Mm/Zones — dividing the memory of the node into zones

`mm/page_alloc.c`: `free_area_init_nodes` lays the zones end to end, from the lowest frame of RAM on,
and counts for each of them the frames it spans and, as the difference of spanned and absent frames, the
frames present.  The two counts are made by two functions that clamp the zone to the node in two
different ways.

The configuration is the default one: one node, and the zones `ZONE_DMA`, `ZONE_NORMAL`, `ZONE_HIGHMEM`
and `ZONE_MOVABLE`, numbered from `0`.  What a pass leaves in `struct zone` and `pg_data_t` besides the
page counts (`managed_pages`, `node_mem_map`) depends on the counts and not the other way round, and is
left out.
-/

namespace Sandix

open Machinery

/-- `ULONG_MAX`. -/
abbrev ulongMax : ℕ := 2 ^ 32 - 1

/-- `__MAX_NR_ZONES`. -/
abbrev maxNrZones : ℕ := 4

/-- `ZONE_MOVABLE`. -/
abbrev zoneMovable : ℕ := 3

/-- `arch_zone_lowest_possible_pfn` and `arch_zone_highest_possible_pfn`. -/
structure ArchZones where
  lowest : ℕ → ℕ
  highest : ℕ → ℕ

/-- The page counts of `struct zone`. -/
structure Zone where
  zoneStartPfn : ℕ
  spannedPages : ℕ
  presentPages : ℕ
deriving DecidableEq, Repr

/-- The page counts of `struct pglist_data`. -/
structure PglistData where
  nodeStartPfn : ℕ
  nodeZones : ℕ → Zone
  nodeSpannedPages : ℕ
  nodePresentPages : ℕ

/-! ## The bounds of the node and of the zones -/

/-- `find_min_pfn_for_node`. -/
def findMinPfnForNode (t : MemblockType) (nid : ℤ) : Exec ℕ := do
  let ranges ← forEachMemPfnRange t nid
  let minPfn := ranges.foldl (fun minPfn x => min minPfn x.start) ulongMax
  pure (if minPfn = ulongMax then 0 else minPfn)

/-- `find_min_pfn_with_active_regions`. -/
def findMinPfnWithActiveRegions (t : MemblockType) : Exec ℕ := findMinPfnForNode t maxNrNodes

/-- `get_pfn_range_for_nid`: `*start_pfn` and `*end_pfn`. -/
def getPfnRangeForNid (t : MemblockType) (nid : ℤ) : Exec (ℕ × ℕ) := do
  let ranges ← forEachMemPfnRange t nid
  let (start, stop) := ranges.foldl (fun s x => (min s.1 x.start, max s.2 x.stop)) (ulongMax, 0)
  pure (if start = ulongMax then 0 else start, stop)

/-- One round of the loop of `free_area_init_nodes` over the zones. -/
def archZoneStep (zoneMaxPfns : ℕ → ℕ) (z : ArchZones) (i : ℕ) : ArchZones :=
  if i = zoneMovable then z
  else
    let lowest := Function.update z.lowest i (z.highest (i - 1))
    ⟨lowest, Function.update z.highest i (max (zoneMaxPfns i) (lowest i))⟩

/-- The zone bounds `free_area_init_nodes` computes from `zone_max_pfns` and the lowest frame. -/
def archZones (zoneMaxPfns : ℕ → ℕ) (minPfn : ℕ) : ArchZones :=
  let z : ArchZones :=
    ⟨Function.update (fun _ => 0) 0 minPfn, Function.update (fun _ => 0) 0 (zoneMaxPfns 0)⟩
  let z := (List.range' 1 (maxNrZones - 1)).foldl (archZoneStep zoneMaxPfns) z
  ⟨Function.update z.lowest zoneMovable 0, Function.update z.highest zoneMovable 0⟩

/-! ## The page counts -/

/-- `zone_spanned_pages_in_node`: the number of frames, and `*zone_start_pfn` where it is written. -/
def zoneSpannedPagesInNode (z : ArchZones) (zoneType nodeStartPfn nodeEndPfn : ℕ) :
    ℕ × Option ℕ :=
  if nodeStartPfn = 0 ∧ nodeEndPfn = 0 then (0, none)
  else
    let zoneStartPfn := z.lowest zoneType
    let zoneEndPfn := z.highest zoneType
    if zoneEndPfn < nodeStartPfn ∨ zoneStartPfn > nodeEndPfn then (0, some zoneStartPfn)
    else
      let zoneEndPfn := min zoneEndPfn nodeEndPfn
      let zoneStartPfn := max zoneStartPfn nodeStartPfn
      (sub32 zoneEndPfn zoneStartPfn, some zoneStartPfn)

/-- `__absent_pages_in_range`. -/
def absentPagesInRange (t : MemblockType) (nid : ℤ) (rangeStartPfn rangeEndPfn : ℕ) : Exec ℕ := do
  let ranges ← forEachMemPfnRange t nid
  pure (ranges.foldl (fun nrAbsent x =>
    sub32 nrAbsent (sub32 (clamp x.stop rangeStartPfn rangeEndPfn)
      (clamp x.start rangeStartPfn rangeEndPfn))) (sub32 rangeEndPfn rangeStartPfn))

/-- `zone_absent_pages_in_node`. -/
def zoneAbsentPagesInNode (t : MemblockType) (z : ArchZones) (nid : ℤ)
    (zoneType nodeStartPfn nodeEndPfn : ℕ) : Exec ℕ :=
  let zoneLow := z.lowest zoneType
  let zoneHigh := z.highest zoneType
  if nodeStartPfn = 0 ∧ nodeEndPfn = 0 then .ok 0
  else absentPagesInRange t nid (clamp nodeStartPfn zoneLow zoneHigh)
    (clamp nodeEndPfn zoneLow zoneHigh)

/-- One round of the loop of `calculate_node_totalpages`: the zones, `totalpages` and
`realtotalpages`. -/
def totalpagesStep (t : MemblockType) (z : ArchZones) (nid : ℤ) (nodeStartPfn nodeEndPfn : ℕ)
    (s : (ℕ → Zone) × ℕ × ℕ) (i : ℕ) : Exec ((ℕ → Zone) × ℕ × ℕ) := do
  let (size, zoneStartPfn) := zoneSpannedPagesInNode z i nodeStartPfn nodeEndPfn
  let absent ← zoneAbsentPagesInNode t z nid i nodeStartPfn nodeEndPfn
  let realSize := sub32 size absent
  let start := if size ≠ 0 then zoneStartPfn.getD 0 else 0
  pure (Function.update s.1 i ⟨start, size, realSize⟩, (s.2.1 + size) % 2 ^ 32,
    (s.2.2 + realSize) % 2 ^ 32)

/-- `calculate_node_totalpages`. -/
def calculateNodeTotalpages (t : MemblockType) (z : ArchZones) (nid : ℤ) (pgdata : PglistData)
    (nodeStartPfn nodeEndPfn : ℕ) : Exec PglistData := do
  let (zones, totalpages, realtotalpages) ← (List.range maxNrZones).foldlM
    (totalpagesStep t z nid nodeStartPfn nodeEndPfn) (pgdata.nodeZones, 0, 0)
  pure { pgdata with
    nodeZones := zones
    nodeSpannedPages := totalpages
    nodePresentPages := realtotalpages }

/-- `free_area_init_node`. -/
def freeAreaInitNode (t : MemblockType) (z : ArchZones) (nid : ℤ) (pgdata : PglistData)
    (nodeStartPfn : ℕ) : Exec PglistData := do
  let (startPfn, endPfn) ← getPfnRangeForNid t nid
  calculateNodeTotalpages t z nid { pgdata with nodeStartPfn } startPfn endPfn

/-- `free_area_init_nodes`: the zone bounds, and node `0`, the only node online. -/
def freeAreaInitNodes (t : MemblockType) (zoneMaxPfns : ℕ → ℕ) (pgdata : PglistData) :
    Exec (ArchZones × PglistData) := do
  let minPfn ← findMinPfnWithActiveRegions t
  let z := archZones zoneMaxPfns minPfn
  let nodeStartPfn ← findMinPfnForNode t 0
  let pgdata ← freeAreaInitNode t z 0 pgdata nodeStartPfn
  pure (z, pgdata)

end Sandix
